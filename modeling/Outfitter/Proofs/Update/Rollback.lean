import Outfitter.Proofs.Manifest
import Outfitter.Proofs.Snapshot.Copy
import Outfitter.Proofs.Update.Untouched

/-! # Updates can be undone

Before an update changes the assets of a project it copies them to a snapshot. No later
phase enters the snapshot, and pruning spares it, as it is the newest of all.
-/

namespace Outfitter.Update

open Disk Action Files Install Snapshot

variable {k : Kit} {root : Path} {keep : Nat} {r : Report} {d a b : Disk} {ts : String}
  {e : Edit} {p rel : List String}

/-! ## Edits beside the snapshots -/

/-- Edits that erase nothing and stay out of the directory of snapshots, but may make the
directories that the path of the root passes. -/
def Outside (d : Disk) (root : Path) (e : Edit) (p : List String) : Prop :=
  e ≠ .erase ∧ (¬ d.place root ++ [Layout.snapshotsDirName] <+: p ∨ e = .make ∧ d.Passes root p)

theorem outside_below (he : e ≠ .erase) (hrel : ¬ [Layout.snapshotsDirName] <+: rel) :
    Outside d root e (d.place root ++ rel) :=
  ⟨he, Or.inl fun h => hrel ((List.prefix_append_right_inj _).mp h)⟩

theorem mayMake_outside (hn : ∀ s ∈ rel, isName s = true) (hrel : ¬ [Layout.snapshotsDirName] <+: rel) :
    MayMake (Outside d root) (d.trail root ++ rel) :=
  mayMake_below hn (fun _ h => ⟨by simp, Or.inr ⟨rfl, h⟩⟩) fun _ hzs =>
    outside_below (by simp) fun h => hrel (h.trans hzs)

theorem merges_outside (h : Settings.Merges d root e p) : Outside d root e p := by
  have hbelow : ∀ name, e ≠ .erase → Outside d root e (d.place root ++ [Layout.assetsDirName, name]) :=
    fun name he => outside_below he fun hc => absurd (List.cons_prefix_cons.mp hc).1 (by decide)
  rcases h with (⟨rfl, rfl | rfl⟩ | ⟨rfl, rfl | rfl⟩ | ⟨rfl, rfl⟩) | ⟨rfl, rfl | rfl⟩
  all_goals exact hbelow _ (by simp)

/-- Edits beside the snapshots leave the directory of snapshots as it is, if the root leads to
the project. -/
theorem Outside.at?_snapshots (hp : a.top.isPlain = true) (hlead : a.Leads root)
    (h : Steps (Outside a root) a b) :
    b.top.at? (a.place root ++ [Layout.snapshotsDirName]) =
      a.top.at? (a.place root ++ [Layout.snapshotsDirName]) := by
  refine Steps.at?_eq ?_ ?_ (h.drop_makes (fun _ => dir_of_passes hp hlead) fun q _ p hp _ => hp.1 rfl)
  · rintro e p ⟨⟨-, hout | ⟨he, hpass⟩⟩, hmake⟩
    · exact hout
    · exact absurd hpass (hmake he)
  · rintro p ⟨⟨he, -⟩, -⟩
    exact absurd rfl he

/-! ## Phases beside the snapshots -/

section Phases

variable (hp : d.top.isPlain = true) (hn : root.Named)

include hp hn

theorem install_outside {bundle : Bundle} {m : Manifest} (hin : ∀ name ∈ listed bundle d,
      isClean name = true ∧ Manifest.curated.includes name = true) :
    Steps (Outside d root) d ((Install.run bundle m root).on d).2 := by
  refine run_keeps (fun name hmem r => keeps_installOne fun a ha _ => ?_) (.refl _)
  obtain ⟨hclean, hincluded⟩ := hin name hmem
  have hapart := Manifest.destination_apart hclean hincluded
  exact keeps_copyOne hp hn (isName_destination hclean)
    (mayMake_outside (isName_destination hclean) hapart)
    (outside_below (by simp) fun h => hapart (h.trans (List.dropLast_prefix _)))
    (outside_below (by simp) hapart) (fun _ => outside_below (by simp) hapart) a ha

theorem save_outside {allow : Edit → List String → Prop}
    (ha : ∀ e p, Outside d root e p → allow e p) (version : String) :
    Keeps (Steps allow d) (Release.save root version) := by
  have hstamp : ∀ s ∈ splitSlash Layout.stampName, isName s = true := by decide
  have hapart : ¬ [Layout.snapshotsDirName] <+: splitSlash Layout.stampName := by decide
  refine keeps_replace hp (named_div hn hstamp) (steps_div root hstamp) ?_ ?_ ?_ fun _ => ?_
  · rw [Layout.stamp, trail_div hstamp]
    exact fun ys hys => ha _ _ (mayMake_outside hstamp hapart ys hys)
  · rw [Layout.stamp, climb_dropLast hstamp]
    exact ha _ _ (outside_below (by simp) fun h => hapart (h.trans (List.dropLast_prefix _)))
  · rw [Layout.stamp, place_div hstamp]
    exact ha _ _ (outside_below (by simp) hapart)
  · rw [Layout.stamp, place_div hstamp]
    exact ha _ _ (outside_below (by simp) hapart)

/-- The phases between the installation and pruning stay beside the snapshots. -/
theorem tidy_outside {Q : Disk → Prop}
    (hprune : ∀ a, Steps (Outside d root) d a → Q ((prune root keep).on a).2)
    (ha : Steps (Outside d root) d a) : Q (tidy root keep a).2 := by
  have hignore : ∀ s ∈ splitSlash Layout.ignoreName, isName s = true := by decide
  refine tidy_keeps (keeps_removeRetired hp fun text htext _ => ?_)
    (Settings.keeps_mergeStatusLine hp hn (mayMake_outside (by decide) (by decide))
      fun _ _ => merges_outside)
    (Settings.keeps_mergeHooks hp hn fun _ _ => merges_outside)
    (keeps_ensureIgnored hp (named_div hn hignore) ?_ ?_) hprune ha
  · have hretired : ∀ text ∈ Inventory.retired, ¬ [Layout.snapshotsDirName] <+: splitSlash text := by
      decide
    exact outside_below (by simp) (hretired text htext)
  · rw [Layout.ignoreFile, place_div hignore]
    exact outside_below (by simp) (by decide)
  · rw [Layout.ignoreFile, place_div hignore]
    exact outside_below (by simp) (by decide)

end Phases

/-! ## Edits that spare a snapshot -/

/-- Edits that neither enter a snapshot nor erase it. -/
def Spares (d : Disk) (root : Path) (ts : String) (e : Edit) (p : List String) : Prop :=
  ¬ archive d root ts <+: p ∧ (e = .erase → ¬ p <+: archive d root ts)

theorem Spares.at?_archive (h : Steps (Spares d root ts) a b) :
    b.top.at? (archive d root ts) = a.top.at? (archive d root ts) :=
  h.at?_eq (fun _ _ hp => hp.1) fun _ hp => hp.2 rfl

theorem spares_below (he : e ≠ .erase) (hrel : ¬ [Layout.snapshotsDirName, ts] <+: rel) :
    Spares d root ts e (d.place root ++ rel) :=
  ⟨fun h => hrel ((List.prefix_append_right_inj _).mp h), fun h => absurd h he⟩

theorem spares_passes {q : List String} (hpass : Avoids d root ts) (h : d.Passes root q) :
    Spares d root ts .make q := by
  refine ⟨?_, by simp⟩
  rintro ⟨rest, rfl⟩
  exact hpass rest h

theorem Outside.spares (hpass : Avoids d root ts) (h : Outside d root e p) : Spares d root ts e p := by
  obtain ⟨he, hout | ⟨rfl, hpasses⟩⟩ := h
  · refine ⟨fun hpre => hout (List.IsPrefix.trans ?_ hpre), fun h => absurd h he⟩
    exact (List.prefix_append_right_inj _).mpr ⟨[ts], rfl⟩
  · exact spares_passes hpass hpasses

/-- Pruning spares the newest snapshot. -/
theorem prune_spares (hp : d.top.isPlain = true) (hkeep : 1 ≤ keep)
    (hnew : ∃ es, d.top.at? (archive d root ts) = some (.dir d.now es))
    (hold : ∀ other t es, other ≠ ts → d.top.at? (archive d root other) = some (.dir t es) →
      t.seconds < d.clock) :
    Steps (Spares d root ts) d ((prune root keep).on d).2 := by
  have hother : ∀ other, other ≠ ts → Spares d root ts .erase (archive d root other) := by
    intro other hne
    refine ⟨fun h => hne ?_, fun _ h => hne ?_⟩
    · have htail := (List.prefix_append_right_inj _).mp h
      exact (by simpa using htail : ts = other).symm
    · have htail := (List.prefix_append_right_inj _).mp h
      simpa using htail
  refine steps_prune hp fun t es hdir s hs => hother s.2 ?_
  have hlookup : ∀ name, d.top.at? (archive d root name) = es.lookup name := by
    intro name
    rw [archive_eq, Node.at?_append, hdir, Option.bind_some, Node.at?_dir_cons]
    cases es.lookup name <;> simp
  have hnodup := (Node.isPlain_dir_iff.mp (Node.isPlain_of_at? hp hdir).2).1
  have hnewer : ∀ other stamp es', (other, Node.dir stamp es') ∈ es → other ≠ ts →
      d.now.le stamp = false := by
    intro other stamp es' hmem hne
    have hlt := hold other stamp es' hne (by rw [hlookup]; exact Entries.lookup_of_mem hnodup hmem)
    have hnot : ¬ (d.clock : Int) ≤ stamp.seconds := by omega
    cases hf : stamp.fresh <;> simp [Stamp.le, now, hf, hnot]
  obtain ⟨below, hat⟩ := hnew
  rw [hlookup] at hat
  obtain ⟨rest, hfirst, hrest⟩ := newestFirst_eq_cons hnodup (Entries.mem_of_lookup hat) hnewer
  obtain ⟨n, rfl⟩ := Nat.exists_eq_add_of_le' hkeep
  rw [hfirst, List.drop_succ_cons] at hs
  exact hrest s (List.mem_of_mem_drop hs)

/-! ## The snapshot at the end -/

theorem spares_eq {allow : Edit → List String → Prop} (h : Steps allow d a) :
    Spares a root ts = Spares d root ts := by
  funext e p
  rw [Spares, Spares, archive, archive, h.place_eq]

/-- After its snapshot is taken, an automatic update spares it. -/
theorem auto_spares (htake : ((take root).on d).2 = a) (hp : a.top.isPlain = true)
    (hlead : a.Leads root) (hpass : Avoids a root ts)
    (hin : ∀ name ∈ listed k.bundle a, isClean name = true ∧ Manifest.curated.includes name = true)
    (hkeep : 1 ≤ keep) (hnew : ∃ es, a.top.at? (archive a root ts) = some (.dir a.now es))
    (hold : ∀ other t es, other ≠ ts → a.top.at? (archive a root other) = some (.dir t es) →
      t.seconds < a.clock) :
    Steps (Spares a root ts) a (auto k root keep r d).2 := by
  have hn := hlead.named hp
  refine auto_keeps (P := Steps (Outside a root) a) ?_ (fun b hb => hb.mono fun _ _ => Outside.spares hpass)
    (fun b hb => tidy_outside hp hn (fun c hc => ?_) hb)
    (save_outside hp hn (fun _ _ => Outside.spares hpass) _)
  · rw [htake]
    exact install_outside hp hn hin
  · -- up to here the directory of snapshots is as it was when the snapshot was taken
    have hsame : ∀ name, c.top.at? (archive c root name) = a.top.at? (archive a root name) := by
      intro name
      rw [archive, hc.place_eq, ← archive, archive_eq, Node.at?_append,
        Outside.at?_snapshots hp hlead hc, ← Node.at?_append]
    have hprune : Steps (Spares c root ts) c ((prune root keep).on c).2 := prune_spares (hc.isPlain hp) hkeep
      (by rw [hsame, now, hc.clock_eq]; exact hnew)
      (fun other t es hne hat => by rw [hc.clock_eq]; exact hold other t es hne (hsame other ▸ hat))
    rw [spares_eq hc] at hprune
    exact (hc.mono fun _ _ => Outside.spares hpass).trans hprune

theorem guide_ne_timestamp (t : Nat) : Calendar.timestamp t ≠ "MANUAL_MERGE_GUIDE.md" := by
  intro h
  have hm : 'M' ∈ (Calendar.timestamp t).toList := by
    rw [h]
    decide
  rcases Calendar.mem_timestamp hm with hdigit | hund | hsign
  · exact absurd hdigit (by decide)
  · exact absurd hund (by decide)
  · exact absurd hsign (by decide)

/-- The guide for a merge by hand stands beside the snapshots. -/
theorem keeps_writeGuide {version : String} {dir : Path} (hp : d.top.isPlain = true)
    (hn : root.Named) (hpass : Avoids d root ts) (hts : ts ≠ "MANUAL_MERGE_GUIDE.md") :
    Keeps (Steps (Spares d root ts) d) (writeGuide root version dir) := by
  have hname : ∀ s ∈ [Layout.snapshotsDirName, "MANUAL_MERGE_GUIDE.md"], isName s = true := by decide
  have hguide : Layout.guide root = root.join ⟨[Layout.snapshotsDirName, "MANUAL_MERGE_GUIDE.md"]⟩ :=
    Layout.snapshots_div (by decide)
  have hapart : ¬ [Layout.snapshotsDirName, ts] <+: [Layout.snapshotsDirName, "MANUAL_MERGE_GUIDE.md"] := by
    simpa using hts
  refine (Keeps.ask _).bind fun _ => Keeps.bind ?_ fun _ => Keeps.pure _
  rw [hguide]
  refine keeps_replace hp (hn.join hname) (steps_join_ne_nil hname (by simp)) ?_ ?_ ?_ fun _ => ?_
  · rw [trail_join hname (by simp)]
    exact mayMake_below hname (fun _ => spares_passes hpass) fun zs hzs =>
      spares_below (by simp) fun h => hapart (h.trans hzs)
  · rw [trail_join hname (by simp), List.dropLast_append_of_ne_nil (by simp), climb_below (by decide)]
    exact spares_below (by simp) (by simp)
  · rw [place_join hname (by simp)]
    exact spares_below (by simp) hapart
  · rw [place_join hname (by simp)]
    exact spares_below (by simp) hapart

theorem manual_run (k : Kit) (root : Path) (r : Report) (d : Disk) :
    ∃ dir, (manual k root r d).2 = ((writeGuide root k.version dir).on ((take root).on d).2).2 ∧
      (manual k root r d).1.backup = ((take root).on d).1.toOption := by
  refine ⟨((take root).on d).1.toOption.getD (Layout.snapshots root / "<timestamp>"), ?_⟩
  unfold manual
  simp only [bind, StateT.bind, outcome, snapshot_run]
  rcases (writeGuide root k.version _).on ((take root).on d).2 with ⟨e | guide, d₂⟩
  · exact ⟨rfl, rfl⟩
  · exact ⟨rfl, rfl⟩

theorem auto_backup (k : Kit) (root : Path) (keep : Nat) (r : Report) (d : Disk) :
    (auto k root keep r d).1.backup = ((take root).on d).1.toOption := by
  rw [auto_run]
  split
  · rfl
  · split <;> rfl

/-- An update that is not only a check, of a project that is not up to date. -/
theorem run_of_outdated {o : Options} {lookup : Except Error String} (upgrade : Except Error Unit)
    (ho : o.checkOnly = false) (hv : Release.current root d ≠ (begin k lookup).latest) :
    ∃ r, run k root o lookup upgrade d =
      match o.strategy with
      | .auto => auto k root o.keep r d
      | .manual => manual k root r d := by
  refine ⟨{ begin k lookup with
    upgraded := (begin k lookup).wantsUpgrade o && upgrade.isOk, before := Release.current root d }, ?_⟩
  unfold run files
  rw [ho, if_neg Bool.false_ne_true]
  dsimp only [bind, StateT.bind, get, getThe, MonadStateOf.get, StateT.get, pure]
  split
  · next h => exact absurd h hv
  · cases o.strategy <;> rfl

/-- Taking a snapshot leaves the others as they are. -/
theorem at?_other_takes {other : String} (h : Steps (Takes d root ts) d a) (hne : other ≠ ts) :
    a.top.at? (archive d root other) = d.top.at? (archive d root other) := by
  have hts : ∀ p, archive d root ts <+: p → ¬ archive d root other <+: p ∧ ¬ p <+: archive d root other := by
    intro p hpre
    have hlen : (archive d root ts).length = (archive d root other).length := by simp [archive]
    have hdiff : archive d root ts ≠ archive d root other := fun h => hne (by simpa [archive] using h.symm)
    refine ⟨fun h => hdiff ?_, fun h => hdiff ?_⟩
    · exact (List.prefix_of_prefix_length_le hpre h (Nat.le_of_eq hlen)).eq_of_length hlen
    · exact (hpre.trans h).eq_of_length hlen
  refine h.at?_eq ?_ ?_
  · rintro e p (⟨-, rfl⟩ | hpre) hother
    · have hlen := hother.length_le
      simp [archive] at hlen
    · exact (hts p hpre).1 hother
  · rintro p (⟨he, -⟩ | hpre)
    · cases he
    · exact (hts p hpre).2

/-- A project with an older snapshot, and with leftovers where the next one goes. -/
def veteran : Disk :=
  ⟨.dir ⟨0, false⟩
    [ (".claude", .dir ⟨1, false⟩
        [ ("notes.md", .file "notes".toUTF8 0o640 ⟨5, false⟩)
        , ("local", .dir ⟨2, false⟩ []) ])
    , (".claude-backups", .dir ⟨3, false⟩
        [ ("19700101_000001", .dir ⟨50, false⟩ [])
        , ("19700101_000140", .dir ⟨60, false⟩ [("stale", .file "stale".toUTF8 0o644 ⟨7, false⟩)]) ]) ],
    [], 100⟩

/-- A bundle that brings a command. -/
def planner : Kit :=
  { bundle := .held [".claude/commands/00_plan.md"] [(".claude/commands/00_plan.md", "plan".toUTF8)]
    manifest := .curated
    version := "2.0.0" }

theorem place_veteran : veteran.place (Path.ofText "/") = [] := rfl

theorem nodes_veteran {q : List String} {n : Node}
    (h : veteran.top.at? (assets veteran (Path.ofText "/") ++ q) = some n) :
    (q = [] ∨ q = ["local"]) ∧ n.shape = .dir ∨
      q = ["notes.md"] ∧ n = .file "notes".toUTF8 0o640 ⟨5, false⟩ := by
  rw [assets, place_veteran] at h
  rcases q with _ | ⟨a, q⟩
  · cases h
    exact Or.inl ⟨Or.inl rfl, rfl⟩
  · change Option.bind (List.lookup a [("notes.md", Node.file "notes".toUTF8 0o640 ⟨5, false⟩),
      ("local", .dir ⟨2, false⟩ [])]) (·.at? q) = some n at h
    rw [List.lookup_cons, List.lookup_cons, List.lookup_nil] at h
    split at h
    · next ha =>
      rw [eq_of_beq ha]
      cases q <;> cases h
      exact Or.inr ⟨rfl, rfl⟩
    · split at h
      · next ha =>
        rw [eq_of_beq ha]
        cases q <;> cases h
        exact Or.inl ⟨Or.inr rfl, rfl⟩
      · cases h

theorem copiable_veteran : Copiable veteran (Path.ofText "/") "19700101_000140" where
  plain := by decide
  leads := ⟨⟨0, false⟩, _, by rw [place_veteran]; exact walk_nil _ _ _⟩
  name := by decide
  fits q n h := by
    rcases nodes_veteran h with ⟨rfl | rfl, -⟩ | ⟨rfl, -⟩
    all_goals exact ⟨by decide, by decide⟩
  free q c m t h := by
    rcases nodes_veteran h with ⟨-, hdir⟩ | ⟨-, hfile⟩
    · cases hdir
    · cases hfile
      decide

/-- A project with assets that may not be written. -/
def sealed : Disk :=
  ⟨.dir ⟨0, false⟩ [(".claude", .dir ⟨1, false⟩ [("notes.md", .file "notes".toUTF8 0o444 ⟨5, false⟩)])],
    [], 100⟩

end Outfitter.Update
