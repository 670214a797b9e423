import Outfitter.Proofs.Update.Parallel

/-! # Updates by hand

An update by hand takes a snapshot and writes a guide beside it. Whatever fails on the way,
it changes nothing but the snapshot of its own time and the guide.
-/

namespace Outfitter.Update

open Disk Action Files Install Snapshot

variable {k : Kit} {root : Path} {r : Report} {d a a' : Disk} {q : List String}

/-! ## Runs -/

/-- An update of a project that is up to date does nothing. -/
theorem run_of_current {o : Options} {lookup : Except Error String} (upgrade : Except Error Unit)
    (hv : Release.current root d = (begin k lookup).latest) :
    (run k root o lookup upgrade d).1.status = .alreadyCurrent ∧ (run k root o lookup upgrade d).2 = d := by
  unfold run files
  split
  · exact ⟨rfl, rfl⟩
  · dsimp only [bind, StateT.bind, get, getThe, MonadStateOf.get, StateT.get, pure]
    split
    · exact ⟨rfl, rfl⟩
    · next h => exact absurd hv h

/-- An update finds nothing to do, or goes one of the two ways. -/
theorem run_cases (k : Kit) (root : Path) (o : Options) (lookup : Except Error String)
    (upgrade : Except Error Unit) (d : Disk) :
    (run k root o lookup upgrade d).1.status = .alreadyCurrent ∧ (run k root o lookup upgrade d).2 = d ∨
      ∃ r, run k root o lookup upgrade d =
        match o.strategy with
        | .auto => auto k root o.keep r d
        | .manual => manual k root r d := by
  by_cases hcheck : o.checkOnly = true
  · left
    unfold run
    rw [if_pos hcheck]
    exact ⟨rfl, rfl⟩
  by_cases hcurrent : Release.current root d = (begin k lookup).latest
  · exact Or.inl (run_of_current upgrade hcurrent)
  · exact Or.inr (run_of_outdated upgrade (Bool.eq_false_iff.mpr hcheck) hcurrent)

/-- The guide is one replaced file. -/
theorem writeGuide_run (root : Path) (version : String) (dir : Path) (d : Disk) :
    ∃ bytes, (writeGuide root version dir).on d =
      (((replace (Layout.guide root) bytes).on d).1.map fun _ => Layout.guide root,
        ((replace (Layout.guide root) bytes).on d).2) := by
  refine ⟨(Guide.render version (dir.fileName?.getD "<timestamp>") (Calendar.dateTime d.clock)).toUTF8, ?_⟩
  rw [writeGuide, on_bind_ask]
  rcases hrun : (replace (Layout.guide root) _).on d with ⟨e | u, d'⟩
  · exact on_bind_error hrun
  · exact on_bind_ok hrun

/-- An update by hand ends as the replacement of its guide does. -/
theorem manual_ends (k : Kit) (root : Path) (r : Report) (d : Disk) :
    ∃ bytes, (manual k root r d).2 = ((replace (Layout.guide root) bytes).on ((take root).on d).2).2 ∧
      ((manual k root r d).1.status = .updated →
        ((replace (Layout.guide root) bytes).on ((take root).on d).2).1 = .ok () ∧
        (manual k root r d).1.guide = some (Layout.guide root)) ∧
      ((manual k root r d).1.status = .failed →
        ((replace (Layout.guide root) bytes).on ((take root).on d).2).1.isOk = false) := by
  obtain ⟨bytes, hguide⟩ := writeGuide_run root k.version
    (((take root).on d).1.toOption.getD (Layout.snapshots root / "<timestamp>")) ((take root).on d).2
  refine ⟨bytes, ?_⟩
  unfold manual
  simp only [bind, StateT.bind, outcome, snapshot_run]
  rw [hguide]
  rcases (replace (Layout.guide root) bytes).on ((take root).on d).2 with ⟨e | u, d₂⟩
  · exact ⟨rfl, (by rintro ⟨⟩), fun _ => rfl⟩
  · exact ⟨rfl, fun _ => ⟨rfl, rfl⟩, by rintro ⟨⟩⟩

/-! ## Edits among the snapshots -/

/-- The name of the guide among the snapshots. -/
def guideName : String := "MANUAL_MERGE_GUIDE.md"

/-- Edits at the directory of snapshots, in the snapshot of the time, and at the guide. -/
def Shelves (d : Disk) (root : Path) (e : Edit) (p : List String) : Prop :=
  ((e = .make ∨ e = .touch) ∧ p = d.place root ++ [Layout.snapshotsDirName]) ∨
    archive d root (Calendar.timestamp d.clock) <+: p ∨
    (e ≠ .erase ∧ p = archive d root guideName)

theorem isName_guide : ∀ s ∈ [Layout.snapshotsDirName, guideName], isName s = true := by decide

theorem guide_eq (root : Path) : Layout.guide root = root.join ⟨[Layout.snapshotsDirName, guideName]⟩ :=
  Layout.snapshots_div (by decide)

/-- An update by hand stays among the snapshots. Directories that the root passes are there
already, or were in the snapshot that it takes anew. -/
theorem steps_manual (hp : d.top.isPlain = true) (hroot : d.Leads root) :
    Steps (Shelves d root) d (manual k root r d).2 := by
  have hn := hroot.named hp
  have hl := Node.linkFree_of_isPlain hp
  let allow (e : Edit) (p : List String) : Prop := e = .make ∧ d.Passes root p ∨ Shelves d root e p
  have htake : Keeps (Steps allow d) (take root) := by
    refine keeps_take hp hn (fun q hq => Or.inl ⟨rfl, hq⟩) (Or.inr (Or.inl ⟨Or.inl rfl, rfl⟩)) ?_
    intro e rest
    exact Or.inr (Or.inr (Or.inl ⟨rest, by simp [archive]⟩))
  have hguide : ∀ bytes, Keeps (Steps allow d) (replace (Layout.guide root) bytes) := by
    intro bytes
    have hname : ∀ e, e ≠ Edit.erase → allow e (d.place root ++ [Layout.snapshotsDirName, guideName]) :=
      fun e he => Or.inr (Or.inr (Or.inr ⟨he, rfl⟩))
    rw [guide_eq]
    refine keeps_replace hp (hn.join isName_guide) (steps_join_ne_nil isName_guide (by simp)) ?_ ?_ ?_
      fun _ => ?_
    · rw [trail_join isName_guide (by simp)]
      refine mayMake_below isName_guide (fun q hq => Or.inl ⟨rfl, hq⟩) fun zs hzs => ?_
      rcases List.prefix_cons_iff.mp hzs with rfl | ⟨ys, rfl, hys⟩
      · rw [List.append_nil]
        exact Or.inl ⟨rfl, _, List.prefix_refl _, rfl⟩
      rcases List.prefix_cons_iff.mp hys with rfl | ⟨xs, rfl, hxs⟩
      · exact Or.inr (Or.inl ⟨Or.inl rfl, rfl⟩)
      · rw [List.prefix_nil.mp hxs]
        exact hname _ (by simp)
    · rw [trail_join isName_guide (by simp), List.dropLast_append_of_ne_nil (by simp), climb_below (by decide)]
      exact Or.inr (Or.inl ⟨Or.inr rfl, rfl⟩)
    · rw [place_join isName_guide (by simp)]
      exact hname _ (by simp)
    · rw [place_join isName_guide (by simp)]
      exact hname _ (by simp)
  have hs : Steps allow d (manual k root r d).2 := by
    obtain ⟨bytes, hend, -⟩ := manual_ends k root r d
    rw [hend]
    exact hguide bytes _ (htake d (.refl _))
  refine steps_of_passes hp hroot ?_ (fun _ hin => Or.inr (Or.inl hin)) hs
  rintro p (⟨he | he, -⟩ | hpre | ⟨he, -⟩)
  · cases he
  · cases he
  · exact hpre
  · exact absurd rfl he

/-! ## What an update by hand leaves -/

theorem spared_shelves (hq : ¬ archive d root (Calendar.timestamp d.clock) <+: q) :
    Spared (Shelves d root) q := by
  rintro p (⟨he | he, -⟩ | hpre | ⟨he, -⟩) hpq
  · cases he
  · cases he
  · exact hq (hpre.trans hpq)
  · exact he rfl

theorem snapshots_prefix_archive (d : Disk) (root : Path) (name : String) :
    d.place root ++ [Layout.snapshotsDirName] <+: archive d root name :=
  ⟨[name], by simp [archive]⟩

section Frame

variable (hp : d.top.isPlain = true) (hroot : d.Leads root)

include hp hroot

/-- Beside the snapshots nothing changes. -/
theorem shape?_manual (hq : ¬ d.place root ++ [Layout.snapshotsDirName] <+: q) :
    (manual k root r d).2.top.shape? q = d.top.shape? q := by
  have harchive : ∀ name, ¬ archive d root name <+: q := fun name h =>
    hq ((snapshots_prefix_archive d root name).trans h)
  refine (steps_manual hp hroot).shape?_eq ?_ (spared_shelves (harchive _))
  rintro e (⟨-, rfl⟩ | hpre | ⟨-, rfl⟩)
  · exact hq (List.prefix_refl _)
  · exact harchive _ hpre
  · exact harchive _ (List.prefix_refl _)

/-- The directory of snapshots is made if it was missing. -/
theorem snapshots_manual :
    (manual k root r d).2.top.shape? (d.place root ++ [Layout.snapshotsDirName]) =
        d.top.shape? (d.place root ++ [Layout.snapshotsDirName]) ∨
      d.top.shape? (d.place root ++ [Layout.snapshotsDirName]) = none ∧
        (manual k root r d).2.top.shape? (d.place root ++ [Layout.snapshotsDirName]) = some .dir := by
  have harchive : ∀ name, ¬ archive d root name <+: d.place root ++ [Layout.snapshotsDirName] := by
    intro name h
    have hlen := h.length_le
    simp [archive] at hlen
  refine ((steps_manual hp hroot).made ?_ (spared_shelves (harchive _))).imp_right fun h => h.2
  rintro e (⟨he, -⟩ | hpre | ⟨-, he⟩)
  · exact he
  · exact absurd hpre (harchive _)
  · exact absurd ⟨[], by rw [List.append_nil, he]⟩ (harchive guideName)

/-- What has another name among the snapshots is left as it is. -/
theorem at?_manual {name : String} (hts : name ≠ Calendar.timestamp d.clock) (hguide : name ≠ guideName) :
    (manual k root r d).2.top.at? (archive d root name) = d.top.at? (archive d root name) := by
  refine (steps_manual hp hroot).at?_eq ?_ (spared_shelves ?_)
  · rintro e p (⟨-, rfl⟩ | ⟨rest, rfl⟩ | ⟨-, rfl⟩) h
    · have hlen := h.length_le
      simp [archive] at hlen
    · exact hts (archive_prefix_iff.mp h)
    · exact hguide (archive_prefix_iff.mp (h.trans (List.prefix_append _ [])))
  · intro h
    exact hts (archive_prefix_iff.mp (h.trans (List.prefix_append _ []))).symm

/-- The root still leads to the project. -/
theorem leads_manual (hh : Homed d root) : (manual k root r d).2.Leads root := by
  obtain ⟨bytes, hend, -⟩ := manual_ends k root r d
  have hs := steps_take hp (hroot.named hp)
  rw [hend]
  refine leads_of_steps (hs.isPlain hp) (leads_after_take hp hroot hh) ?_
  rw [guide_eq]
  exact steps_replace (hs.isPlain hp) ((hroot.named hp).join isName_guide)
    (steps_join_ne_nil isName_guide (by simp)) bytes

theorem twin_manual (hh : Homed d root) : Twin d (Aside d root) d (manual k root r d).2 := by
  have hs : Steps (Shelves d root) d (manual k root r d).2 := steps_manual hp hroot
  have hlead : (manual k root r d).2.Leads root := leads_manual hp hroot hh
  have hp' := hs.isPlain hp
  refine ⟨rfl, hs.cwd_eq, hs.clock_eq.symm, fun q hq => ?_, Node.linkFree_of_isPlain hp'⟩
  by_cases hpre : d.place root ++ [Layout.snapshotsDirName] <+: q
  · obtain ⟨ys, hys, he⟩ : d.Passes root q := not_not.mp fun h => hq ⟨hpre, h⟩
    rw [dir_of_passes hp hroot ⟨ys, hys, he⟩, dir_of_passes hp' hlead ⟨ys, by rwa [hs.trail_eq], he⟩]
  · exact (shape?_manual hp hroot hpre).symm

end Frame

/-- Disks that differ only among the snapshots hold the same version. -/
theorem current_eq_of_twin (h : Twin d (Aside d root) a a') :
    Release.current root a = Release.current root a' := by
  rw [Release.current, Release.current, h.readText misses_stamp]

/-- A project of an earlier version, with an old snapshot, one of the present time and a guide. -/
def shelved : Disk :=
  ⟨.dir ⟨0, false⟩
    [ (".claude", .dir ⟨1, false⟩ [(".pilot-version", .file "1.9.0\n".toUTF8 0o600 ⟨5, false⟩)])
    , (".claude-backups", .dir ⟨3, false⟩
        [ ("19700101_000001", .dir ⟨50, false⟩ [])
        , ("19700101_000140", .dir ⟨60, false⟩ [("stale", .file "stale".toUTF8 0o644 ⟨7, false⟩)])
        , ("MANUAL_MERGE_GUIDE.md", .file "old".toUTF8 0o444 ⟨8, false⟩) ]) ],
    [], 100⟩

end Outfitter.Update
