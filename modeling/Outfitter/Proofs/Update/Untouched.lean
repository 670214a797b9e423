import Outfitter.Proofs.Install
import Outfitter.Proofs.Settings.Merge
import Outfitter.Proofs.Snapshot
import Outfitter.Update

/-! # What an automatic update leaves untouched

Each phase of an update is a run of edits at known places. A file that stands at none of
them is as it was when the update is over, and so is a file of the user that the bundle
would bring anew.
-/

namespace Outfitter.Update

open Disk Action Files Install

variable {k : Kit} {root : Path} {keep : Nat} {r : Report} {d : Disk} {q : List String}

/-! ## Phases -/

/-- What follows the installation is four phases that keep `P`, and a last one. -/
theorem tidy_keeps {P Q : Disk → Prop} (hretired : Keeps P (removeRetired root))
    (hstatus : Keeps P (Settings.mergeStatusLine root)) (hhooks : Keeps P (Settings.mergeHooks root))
    (hignore : Keeps P (ensureIgnored root Layout.ignoredPlans (some ignoreComment)))
    (hprune : ∀ d, P d → Q ((Snapshot.prune root keep).on d).2) (hd : P d) : Q (tidy root keep d).2 :=
  hprune _ (hignore _ (hhooks _ (hstatus _ (hretired d hd))))

theorem snapshot_run (root : Path) (d : Disk) :
    snapshot root d = (((Snapshot.take root).on d).1.toOption, ((Snapshot.take root).on d).2) := by
  have hrun : (Snapshot.take root).outcome d = (Snapshot.take root).on d := rfl
  rcases hd : (Snapshot.take root).on d with ⟨r, d'⟩
  rw [hd] at hrun
  simp only [snapshot, bind, StateT.bind, hrun]
  cases r <;> rfl

theorem auto_run (k : Kit) (root : Path) (keep : Nat) (r : Report) (d : Disk) :
    auto k root keep r d =
      (match (Install.run k.bundle k.manifest root).on ((Snapshot.take root).on d).2 with
      | (.error _, d₂) =>
        ({ r with backup := ((Snapshot.take root).on d).1.toOption, status := .failed }, d₂)
      | (.ok files, d₂) =>
        match (Release.save root k.version).on (tidy root keep d₂).2 with
        | (.error _, d₃) =>
          ({ r with
              backup := ((Snapshot.take root).on d).1.toOption, files := some files
              status := .failed }, d₃)
        | (.ok (), d₃) =>
          ({ r with
              backup := ((Snapshot.take root).on d).1.toOption, files := some files
              status := .updated, target := k.version }, d₃)) := by
  unfold auto
  simp only [bind, StateT.bind, outcome, snapshot_run]
  rcases (Install.run k.bundle k.manifest root).on ((Snapshot.take root).on d).2 with ⟨e | files, d₂⟩
  · rfl
  · rcases htidy : tidy root keep d₂ with ⟨u, d'⟩
    simp only [StateT.bind, bind, htidy, outcome]
    rcases (Release.save root k.version).on d' with ⟨e | v, d₃⟩
    · rfl
    · rfl

theorem auto_ok {files : Install.Report} {d₂ d₃ : Disk}
    (hinstall : (Install.run k.bundle k.manifest root).on ((Snapshot.take root).on d).2 = (.ok files, d₂))
    (hsave : (Release.save root k.version).on (tidy root keep d₂).2 = (.ok (), d₃)) :
    (auto k root keep r d).1.status = .updated ∧ (auto k root keep r d).2 = d₃ := by
  rw [auto_run, hinstall]
  dsimp only
  rw [hsave]
  exact ⟨rfl, rfl⟩

/-- What holds once the bundle is installed, and after what follows, holds at the end. -/
theorem auto_keeps {P Q : Disk → Prop}
    (hinstall : P ((Install.run k.bundle k.manifest root).on ((Snapshot.take root).on d).2).2)
    (hleave : ∀ d, P d → Q d) (htidy : ∀ d, P d → Q (tidy root keep d).2)
    (hsave : Keeps Q (Release.save root k.version)) : Q (auto k root keep r d).2 := by
  rw [auto_run]
  rcases hrun : (Install.run k.bundle k.manifest root).on ((Snapshot.take root).on d).2 with
    ⟨e | files, d₂⟩
  · rw [hrun] at hinstall
    exact hleave _ hinstall
  · rw [hrun] at hinstall
    have hd := hsave _ (htidy d₂ hinstall)
    dsimp only
    rcases hsave : (Release.save root k.version).on (tidy root keep d₂).2 with ⟨e | u, d₃⟩
    · rw [hsave] at hd
      exact hd
    · rw [hsave] at hd
      exact hd

/-! ## Edits of an update -/

/-- The names that an update installs: those that its bundle lists after the snapshot. -/
def installs (k : Kit) (root : Path) (d : Disk) : List String :=
  listed k.bundle ((Snapshot.take root).on d).2

/-- The files of a project that an update may rewrite or remove, apart from those that it
installs. -/
def maintained (clock : Nat) : List String :=
  Inventory.retired ++ [Layout.stampName, ".claude/settings.json", ".claude/settings.json.tmp",
    ".claude/settings.json.backup." ++ Calendar.timestamp clock]

/-- A place below the directory of snapshots of a project. -/
def Archived (d : Disk) (root : Path) (p : List String) : Prop :=
  ∃ name rest, p = d.place root ++ Layout.snapshotsDirName :: name :: rest

/-- A place of a project that is maintained. -/
def Maintained (d : Disk) (root : Path) (p : List String) : Prop :=
  ∃ rel, p = d.place root ++ rel ∧ (Path.mk rel).text ∈ maintained d.clock

/-- A place to which a file is installed that is not the user's, if it is at `q`. -/
def Installed (d : Disk) (root : Path) (names : List String) (q p : List String) : Prop :=
  ∃ name ∈ names, p = spot d root (Inventory.destination name) ∧
    (p = q → Inventory.isUserOwned (Inventory.destination name) = false)

/-- What an update may do, as a file at `q` sees it. -/
def Does (d : Disk) (root : Path) (names : List String) (q : List String) (e : Edit)
    (p : List String) : Prop :=
  (e = .make ∨ e = .touch ∨ e = .create) ∨ Archived d root p ∨
    (e = .append ∧ p = spot d root Layout.ignoreName) ∨
    ((e = .rewrite ∨ e = .unlink) ∧ Maintained d root p) ∨
    (e = .rewrite ∧ Installed d root names q p)

theorem text_splitSlash (text : String) : (Path.mk (splitSlash text)).text = text :=
  Path.text_ofText text

theorem maintained_spot (text : String) (h : text ∈ maintained d.clock) :
    Maintained d root (spot d root text) :=
  ⟨splitSlash text, rfl, by rw [text_splitSlash]; exact h⟩

theorem text_backup (clock : Nat) :
    (Path.mk [Layout.assetsDirName, Settings.backupName clock]).text =
      ".claude/settings.json.backup." ++ Calendar.timestamp clock := by
  rw [← String.toList_inj, Path.text, String.toList_intercalate, String.toList_append]
  simp only [List.map_cons, List.map_nil, Settings.toList_backupName]
  simp [List.intercalate, Layout.assetsDirName]

variable {names : List String} {e : Edit} {p : List String}

theorem maintained_of_merges (h : Settings.Merges d root e p) :
    Maintained d root p ∧ (e = .create ∨ e = .rewrite ∨ e = .unlink) := by
  have hsettings : Maintained d root (d.place root ++ [Layout.assetsDirName, "settings.json"]) :=
    maintained_spot ".claude/settings.json" (by simp [maintained])
  have hstaging : Maintained d root (d.place root ++ [Layout.assetsDirName, "settings.json.tmp"]) :=
    maintained_spot ".claude/settings.json.tmp" (by simp [maintained])
  have hbackup : Maintained d root (Settings.backupPlace d root) :=
    ⟨_, rfl, by rw [text_backup]; simp [maintained]⟩
  have hwrites : ∀ {place}, Maintained d root place → Settings.Writes place e p →
      Maintained d root p ∧ (e = .create ∨ e = .rewrite ∨ e = .unlink) := by
    rintro place hm ⟨rfl, he⟩
    exact ⟨hm, he.imp_right Or.inl⟩
  rcases h with (hw | hw | ⟨rfl, rfl⟩) | hw
  · exact hwrites hstaging hw
  · exact hwrites hsettings hw
  · exact ⟨hstaging, Or.inr (Or.inr rfl)⟩
  · exact hwrites hbackup hw

theorem does_swaps (h : Settings.Merges d root e p) : Does d root names q e p := by
  obtain ⟨hm, rfl | he⟩ := maintained_of_merges h
  · exact Or.inl (Or.inr (Or.inr rfl))
  · exact Or.inr (Or.inr (Or.inr (Or.inl ⟨he, hm⟩)))

/-! ## The phases together -/

theorem steps_take (hp : d.top.isPlain = true) (hn : root.Named) :
    Steps (fun e p => e = .make ∨ Archived d root p) d ((Snapshot.take root).on d).2 :=
  Snapshot.keeps_take hp hn (fun _ _ => Or.inl rfl) (Or.inl rfl) (fun _ rest => Or.inr ⟨_, rest, rfl⟩) d
    (.refl _)

theorem spared_of_not_archived {allow : Edit → List String → Prop}
    (ha : ∀ p, allow .erase p → Archived d root p) (hq : ¬ Archived d root q) :
    Spared allow q := by
  rintro p hp ⟨rest, rfl⟩
  obtain ⟨name, more, rfl⟩ := ha p hp
  exact hq ⟨name, more ++ rest, by simp⟩

theorem steps_install (hp : d.top.isPlain = true) (hroot : d.Leads root)
    (hm : k.manifest = .curated) (hclean : ∀ name ∈ installs k root d, isClean name = true)
    (hq : ∃ c m t, d.top.at? q = some (.file c m t)) (hout : ¬ Archived d root q) :
    Steps (Does d root (installs k root d) q) d
      ((Install.run k.bundle k.manifest root).on ((Snapshot.take root).on d).2).2 := by
  have hn := hroot.named hp
  have hsnap := steps_take hp hn
  have hrooted : Rooted ((Snapshot.take root).on d).2 root := Snapshot.leads_take hp hroot
  have hfile := hsnap.isFile (spared_of_not_archived (by simp) hout) (by simpa using hout) hq
  have hspot : ∀ dest, spot ((Snapshot.take root).on d).2 root dest = spot d root dest := by
    intro dest
    rw [spot, hsnap.place_eq, spot]
  have hrun : Steps (fun e p => (e = .make ∨ e = .touch ∨ e = .create) ∨
      (e = .rewrite ∧ Installed d root (installs k root d) q p)) ((Snapshot.take root).on d).2
      ((Install.run k.bundle k.manifest root).on ((Snapshot.take root).on d).2).2 := by
    rw [hm]
    refine steps_run (hsnap.isPlain hp) hn hrooted hclean (by simp) (by simp) (by simp) (by simp)
      (by simp) (fun name hmem hown => Or.inr ⟨rfl, name, hmem, ?_⟩) hfile
    rw [hspot] at hown ⊢
    exact ⟨rfl, hown⟩
  refine (hsnap.mono ?_).trans (hrun.mono ?_)
  · rintro e p (rfl | hin)
    · exact Or.inl (Or.inl rfl)
    · exact Or.inr (Or.inl hin)
  · rintro e p (hmake | hrewrite)
    · exact Or.inl hmake
    · exact Or.inr (Or.inr (Or.inr (Or.inr hrewrite)))

theorem keeps_save (hp : d.top.isPlain = true) (hn : root.Named) (version : String) :
    Keeps (Steps (Does d root names q) d) (Release.save root version) := by
  have hstamp : ∀ s ∈ splitSlash Layout.stampName, isName s = true := by decide
  refine keeps_replace hp (named_div hn hstamp) (steps_div root hstamp)
    (fun _ _ => Or.inl (Or.inl rfl)) (Or.inl (Or.inr (Or.inl rfl))) (Or.inl (Or.inr (Or.inr rfl)))
    fun _ => Or.inr (Or.inr (Or.inr (Or.inl ⟨Or.inl rfl, ?_⟩)))
  rw [Layout.stamp, place_div hstamp]
  exact maintained_spot Layout.stampName (by simp [maintained])

/-- An automatic update is a run of the edits that an update may do. -/
theorem auto_steps (hp : d.top.isPlain = true) (hroot : d.Leads root)
    (hm : k.manifest = .curated) (hclean : ∀ name ∈ installs k root d, isClean name = true)
    (hq : ∃ c m t, d.top.at? q = some (.file c m t)) (hout : ¬ Archived d root q) :
    Steps (Does d root (installs k root d) q) d (auto k root keep r d).2 := by
  have hn := hroot.named hp
  have hignore : ∀ s ∈ splitSlash Layout.ignoreName, isName s = true := by decide
  refine auto_keeps (steps_install hp hroot hm hclean hq hout) (fun _ hs => hs) (fun d' hs => ?_)
    (keeps_save hp hn k.version)
  refine tidy_keeps (keeps_removeRetired hp fun text htext _ => ?_)
    (Settings.keeps_mergeStatusLine hp hn (fun _ _ => Or.inl (Or.inl rfl)) fun _ _ => does_swaps)
    (Settings.keeps_mergeHooks hp hn fun _ _ => does_swaps)
    (keeps_ensureIgnored hp (named_div hn hignore) (Or.inl (Or.inr (Or.inr rfl))) ?_)
    (Snapshot.keeps_prune hp fun name => Or.inr (Or.inl ⟨name, [], rfl⟩)) hs
  · exact Or.inr (Or.inr (Or.inr (Or.inl
      ⟨Or.inr rfl, maintained_spot text (List.mem_append_left _ htext)⟩)))
  · exact Or.inr (Or.inr (Or.inl ⟨rfl, place_div hignore⟩))

/-! ## Files of the user -/

theorem owns_cases {owned dest : String} (h : Inventory.owns owned dest = true) :
    (owned.toList ++ ['/']) <+: dest.toList ∨ owned.toList <:+ dest.toList := by
  simp only [Inventory.owns, Bool.or_eq_true, beq_iff_eq, List.isPrefixOf_iff_prefix,
    List.isSuffixOf_iff_suffix] at h
  rcases h with (rfl | h) | h
  · exact Or.inr (List.suffix_refl _)
  · exact Or.inl h
  · exact Or.inr ((List.suffix_cons _ _).trans h)

/-- A backup of the settings is not the user's: it ends in a time and lies beside them. -/
theorem isUserOwned_backup (clock : Nat) :
    Inventory.isUserOwned (".claude/settings.json.backup." ++ Calendar.timestamp clock) = false := by
  rw [Bool.eq_false_iff]
  intro h
  obtain ⟨owned, hmem, howns⟩ := List.any_eq_true.mp h
  have hlist : (".claude/settings.json.backup." ++ Calendar.timestamp clock).toList =
      ".claude/settings.json.backup.".toList ++ (Calendar.timestamp clock).toList :=
    String.toList_append
  have hprefix : ∀ owned ∈ Inventory.userFiles,
      (owned.toList ++ ['/']).length ≤ ".claude/settings.json.backup.".toList.length ∧
        ¬ (owned.toList ++ ['/']) <+: ".claude/settings.json.backup.".toList := by decide
  have hlast : ∀ owned ∈ Inventory.userFiles, ∃ c, owned.toList.getLast? = some c ∧
      c.isDigit = false ∧ c ≠ '_' ∧ c ≠ '+' := by
    simp only [Inventory.userFiles, List.forall_mem_cons]
    exact ⟨⟨_, rfl, by decide⟩, ⟨_, rfl, by decide⟩, ⟨_, rfl, by decide⟩, ⟨_, rfl, by decide⟩,
      ⟨_, rfl, by decide⟩, by simp⟩
  rcases owns_cases howns with hp | hs
  · obtain ⟨hlen, hno⟩ := hprefix owned hmem
    rw [hlist] at hp
    exact hno (List.prefix_of_prefix_length_le hp (List.prefix_append _ _) hlen)
  · obtain ⟨c, hc, hdigit, hund, hsign⟩ := hlast owned hmem
    obtain ⟨init, hinit⟩ := hs
    have hend : (Calendar.timestamp clock).toList.getLast? = some c := by
      have hne : (Calendar.timestamp clock).toList ≠ [] :=
        List.ne_nil_of_mem (Calendar.underscore_mem_timestamp clock)
      have hne' : owned.toList ≠ [] := by
        rintro he
        rw [he] at hc
        cases hc
      have hgl := congrArg List.getLast? hinit
      rw [hlist, List.getLast?_append_of_ne_nil _ hne', List.getLast?_append_of_ne_nil _ hne, hc] at hgl
      exact hgl.symm
    rcases Calendar.mem_timestamp (List.mem_of_getLast? hend) with h | h | h
    · rw [hdigit] at h
      cases h
    · exact hund h
    · exact hsign h

theorem isUserOwned_maintained {clock : Nat} {text : String} (h : text ∈ maintained clock)
    (ho : Inventory.isUserOwned text = true) : text = ".claude/settings.json" := by
  simp only [maintained, Inventory.retired, List.cons_append, List.nil_append, List.mem_cons,
    List.not_mem_nil, or_false] at h
  rcases h with rfl | rfl | rfl | rfl | rfl
  · exact absurd ho (by decide)
  · exact absurd ho (by decide)
  · rfl
  · exact absurd ho (by decide)
  · rw [isUserOwned_backup] at ho
    cases ho

theorem ignoreName_not_maintained (clock : Nat) : Layout.ignoreName ∉ maintained clock := by
  have hbackup : Layout.ignoreName ≠ ".claude/settings.json.backup." ++ Calendar.timestamp clock := by
    intro he
    have hlist := congrArg (·.toList.take 2) he
    rw [String.toList_append, List.take_append_of_le_length (by decide)] at hlist
    exact absurd hlist (by decide)
  simp only [maintained, List.mem_append, List.mem_cons, List.not_mem_nil, or_false, hbackup]
  decide

/-! ## Survival -/

/-- An automatic update runs to its end, or changes nothing. -/
theorem run_auto (k : Kit) (root : Path) (d : Disk) {o : Options} (ho : o.strategy = .auto)
    (lookup : Except Error String) (upgrade : Except Error Unit) :
    (run k root o lookup upgrade d).2 = d ∨
      ∃ r, (run k root o lookup upgrade d).2 = (auto k root o.keep r d).2 := by
  unfold run files
  split
  · exact Or.inl rfl
  · rw [ho]
    dsimp only [bind, StateT.bind, get, getThe, MonadStateOf.get, StateT.get, pure]
    split
    · exact Or.inl rfl
    · exact Or.inr ⟨_, rfl⟩

section Survival

variable {d' : Disk} (hs : Steps (Does d root names q) d d') (hout : ¬ Archived d root q)
  (hm : ¬ Maintained d root q) (hi : ¬ Installed d root names q q)

include hs hout hm hi

theorem file_survives {c : ByteArray} {m : Nat} {t : Stamp} (hg : q ≠ spot d root Layout.ignoreName)
    (hat : d.top.at? q = some (.file c m t)) : d'.top.at? q = some (.file c m t) :=
  hs.file (spared_of_not_archived (by simp [Does]) hout) (by simp [Does, hout, hm, hi])
    (by simp [Does, hout, hg]) (by simp [Does, hout, hm]) hat

theorem file_grows {c : ByteArray} {m : Nat} {t : Stamp} (hat : d.top.at? q = some (.file c m t)) :
    ∃ c' t', d'.top.at? q = some (.file (c ++ c') m t') :=
  hs.file_append (spared_of_not_archived (by simp [Does]) hout) (by simp [Does, hout, hm, hi])
    (by simp [Does, hout, hm]) ⟨t, hat⟩

end Survival

theorem text_of_spot {rel : List String} {text : String}
    (h : d.place root ++ rel = spot d root text) : (Path.mk rel).text = text := by
  rw [List.append_cancel_left h, text_splitSlash]

theorem text_of_maintained {rel : List String} (h : Maintained d root (d.place root ++ rel)) :
    (Path.mk rel).text ∈ maintained d.clock := by
  obtain ⟨rel', hrel, htext⟩ := h
  rw [List.append_cancel_left hrel]
  exact htext

/-- Files of the user survive an automatic update, and so do all files but those that it
installs or maintains; an ignore file that it does not install only grows. -/
theorem files_survive_update (k : Kit) (root : Path) (o : Options) (lookup : Except Error String)
    (upgrade : Except Error Unit) (d : Disk) (hp : d.top.isPlain = true) (hroot : d.Leads root)
    (hm : k.manifest = .curated) (ho : o.strategy = .auto)
    (hclean : ∀ name ∈ installs k root d, isClean name = true) :
    let d' := (run k root o lookup upgrade d).2
    let destinations := (installs k root d).map Inventory.destination
    (∀ rel c m t, d.top.at? (d.place root ++ rel) = some (.file c m t) →
      Inventory.isUserOwned (Path.mk rel).text = true →
      (Path.mk rel).text ≠ ".claude/settings.json" → ¬ Archived d root (d.place root ++ rel) →
      d'.top.at? (d.place root ++ rel) = some (.file c m t)) ∧
    (∀ place c m t, d.top.at? place = some (.file c m t) → ¬ Archived d root place →
      (∀ rel, place = d.place root ++ rel →
        (Path.mk rel).text ∉ destinations ++ maintained d.clock ++ [Layout.ignoreName]) →
      d'.top.at? place = some (.file c m t)) ∧
    (∀ c m t, d.top.at? (d.place root ++ [Layout.ignoreName]) = some (.file c m t) →
      Layout.ignoreName ∉ destinations →
      ∃ c' t', d'.top.at? (d.place root ++ [Layout.ignoreName]) = some (.file (c ++ c') m t')) := by
  intro d' destinations
  have hsteps : ∀ q, (∃ c m t, d.top.at? q = some (.file c m t)) → ¬ Archived d root q →
      Steps (Does d root (installs k root d) q) d d' := by
    intro q hq hout
    rcases run_auto k root d ho lookup upgrade with hrun | ⟨r, hrun⟩
    · rw [show d' = d from hrun]
      exact .refl _
    · rw [show d' = _ from hrun]
      exact auto_steps hp hroot hm hclean hq hout
  refine ⟨fun rel c m t hat hown hne hout => ?_, fun place c m t hat hout hno => ?_,
    fun c m t hat hno => ?_⟩
  · refine file_survives (hsteps _ ⟨c, m, t, hat⟩ hout) hout (fun hmaint => ?_) ?_ (fun hg => ?_) hat
    · exact hne (isUserOwned_maintained (text_of_maintained hmaint) hown)
    · rintro ⟨name, -, hspot, howned⟩
      rw [text_of_spot hspot, howned rfl] at hown
      cases hown
    · rw [text_of_spot hg] at hown
      exact absurd hown (by decide)
  · refine file_survives (hsteps _ ⟨c, m, t, hat⟩ hout) hout ?_ ?_ (fun hg => ?_) hat
    · rintro ⟨rel, hrel, htext⟩
      exact hno rel hrel (by simp [htext])
    · rintro ⟨name, hmem, hspot, -⟩
      refine hno _ hspot ?_
      rw [text_splitSlash, List.mem_append, List.mem_append]
      exact Or.inl (Or.inl (List.mem_map_of_mem hmem))
    · refine hno _ hg ?_
      rw [text_splitSlash]
      simp
  · have hout : ¬ Archived d root (d.place root ++ [Layout.ignoreName]) := by
      rintro ⟨name, rest, he⟩
      exact absurd (List.append_cancel_left he) (by simp)
    refine file_grows (hsteps _ ⟨c, m, t, hat⟩ hout) hout (fun hmaint => ?_) ?_ hat
    · exact ignoreName_not_maintained d.clock (text_of_maintained hmaint)
    · rintro ⟨name, hmem, hspot, -⟩
      have htext : Layout.ignoreName = Inventory.destination name := text_of_spot hspot
      exact hno (htext ▸ List.mem_map_of_mem hmem)

/-- A project whose guidance is its user's own. -/
def home : Disk :=
  ⟨.dir ⟨0, false⟩
    [ ("CLAUDE.md", .file "mine".toUTF8 0o600 ⟨5, false⟩)
    , ("README.md", .file "read".toUTF8 0o644 ⟨7, false⟩)
    , (".gitignore", .file "target".toUTF8 0o644 ⟨9, false⟩) ], [], 0⟩

/-- A bundle that brings guidance and a command. -/
def starter : Kit :=
  { bundle := .held ["CLAUDE.md.template", ".claude/commands/00_plan.md"]
      [("CLAUDE.md.template", "theirs".toUTF8), (".claude/commands/00_plan.md", "plan".toUTF8)]
    manifest := .curated
    version := "2.0.0" }

theorem files_survive_starter :
    let root := Path.ofText "/"
    let d' := (run starter root {} (.ok "2.0.0") (.ok ()) home).2
    home.top.isPlain = true ∧ home.Leads root ∧
      (∀ name ∈ installs starter root home, isClean name = true) ∧
      "CLAUDE.md" ∈ (installs starter root home).map Inventory.destination ∧
      d'.top.at? ["CLAUDE.md"] = some (.file "mine".toUTF8 0o600 ⟨5, false⟩) ∧
      d'.top.at? ["README.md"] = some (.file "read".toUTF8 0o644 ⟨7, false⟩) ∧
      ∃ c t, d'.top.at? [".gitignore"] = some (.file ("target".toUTF8 ++ c) 0o644 t) := by
  intro root d'
  have hp : home.top.isPlain = true := by decide
  have hplace : home.place root = [] := by decide
  have hroot : home.Leads root := ⟨⟨0, false⟩, _, by rw [hplace]; exact walk_nil _ _ _⟩
  have hclean : ∀ name ∈ installs starter root home, isClean name = true := by decide
  have hsurvive := files_survive_update starter root {} (.ok "2.0.0") (.ok ()) home hp hroot
    rfl rfl hclean
  have hd' : (run starter root {} (.ok "2.0.0") (.ok ()) home).2 = d' := rfl
  simp only [hplace, hd', List.nil_append] at hsurvive
  clear_value d'
  obtain ⟨ha, hb, hc⟩ := hsurvive
  have harchived : ∀ name, ¬ Archived home root [name] := by
    rintro name ⟨n, rest, he⟩
    rw [hplace] at he
    cases he
  refine ⟨hp, hroot, hclean, by decide, ?_, ?_, ?_⟩
  · exact ha ["CLAUDE.md"] _ _ _ (by simp [home, Node.at?]) (by decide) (by decide)
      (harchived _)
  · refine hb ["README.md"] _ _ _ (by simp [home, Node.at?, List.lookup_cons]) (harchived _) ?_
    rintro rel rfl
    decide
  · exact hc _ _ ⟨9, false⟩ (by simp [home, Node.at?, List.lookup_cons, Layout.ignoreName])
      (by decide)

end Outfitter.Update
