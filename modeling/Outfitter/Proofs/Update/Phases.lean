import Outfitter.Proofs.Update.Parallel

/-! # The phases after an installation

Once a bundle is installed, retired files are removed, the settings merged, plans ignored and
old snapshots pruned; then the stamp is saved. Each phase edits few places, and the stamp tells
what became of it.
-/

namespace Outfitter.Update

open Disk Action Files Install Snapshot

variable {k : Kit} {root : Path} {keep : Nat} {r : Report} {d a a' : Disk} {version : String}

/-! ## Outcomes -/

/-- An automatic update that succeeds went through all phases. -/
theorem auto_updated (h : (auto k root keep r d).1.status = .updated) :
    ∃ files d₂, (Install.run k.bundle k.manifest root).on ((take root).on d).2 = (.ok files, d₂) ∧
      (Release.save root k.version).on (tidy root keep d₂).2 = (.ok (), (auto k root keep r d).2) ∧
      (auto k root keep r d).1.files = some files ∧ (auto k root keep r d).1.target = k.version := by
  revert h
  rw [auto_run]
  rcases (Install.run k.bundle k.manifest root).on ((take root).on d).2 with ⟨e | files, d₂⟩
  · exact nofun
  · rcases hsave : (Release.save root k.version).on (tidy root keep d₂).2 with ⟨e | u, d₃⟩
    · exact fun h => by simp [hsave] at h
    · exact fun _ => ⟨files, d₂, rfl, by simp [hsave], by simp [hsave], by simp [hsave]⟩

/-- An automatic update that fails could not list its bundle, or not save the stamp. -/
theorem auto_failed (h : (auto k root keep r d).1.status = .failed) :
    (∃ e, (Install.run k.bundle k.manifest root).on ((take root).on d).2 =
      (.error e, (auto k root keep r d).2)) ∨
    ∃ files d₂ e, (Install.run k.bundle k.manifest root).on ((take root).on d).2 = (.ok files, d₂) ∧
      (Release.save root k.version).on (tidy root keep d₂).2 = (.error e, (auto k root keep r d).2) := by
  revert h
  rw [auto_run]
  rcases (Install.run k.bundle k.manifest root).on ((take root).on d).2 with ⟨e | files, d₂⟩
  · exact fun _ => Or.inl ⟨e, rfl⟩
  · rcases hsave : (Release.save root k.version).on (tidy root keep d₂).2 with ⟨e | u, d₃⟩
    · exact fun _ => Or.inr ⟨files, d₂, e, rfl, by simp [hsave]⟩
    · exact fun h => by simp [hsave] at h

/-! ## Tidying -/

/-- Edits of the merges and of the ignore file. -/
def Tends (d : Disk) (root : Path) (e : Edit) (p : List String) : Prop :=
  e = .make ∨ Settings.Merges d root e p ∨
    ((e = .create ∨ e = .append) ∧ p = spot d root Layout.ignoreName)

/-- Removals of retired files. -/
def Retires (d : Disk) (root : Path) (e : Edit) (p : List String) : Prop :=
  e = .unlink ∧ ∃ text ∈ Inventory.retired, p = spot d root text ∧ d.Admits (root / text)

theorem not_erase_tends {p : List String} : ¬ Tends d root .erase p := by
  rintro (he | ((⟨-, he | he⟩ | ⟨-, he | he⟩ | ⟨-, he⟩) | ⟨-, he | he⟩) | ⟨he | he, -⟩) <;> cases he

/-- Only the staged settings go away. -/
theorem unlink_tends {p : List String} (h : Tends d root .unlink p) :
    p = spot d root ".claude/settings.json.tmp" := by
  have hstaging : p = d.place root ++ [Layout.assetsDirName, "settings.json.tmp"] := by
    simpa [Tends, Settings.Merges, Settings.Swaps, Settings.Writes] using h
  exact hstaging

theorem steps_removeRetired (hp : d.top.isPlain = true) :
    Steps (Retires d root) d ((removeRetired root).on d).2 :=
  keeps_removeRetired hp (fun text htext ha => ⟨rfl, text, htext, rfl, ha⟩) d (.refl _)

theorem tends_eq (hcwd : a.cwd = d.cwd) (hclock : a.clock = d.clock) : Tends a root = Tends d root := by
  funext e p
  simp only [Tends, Settings.Merges, Settings.backupPlace, spot, place_of_cwd hcwd, hclock]

/-- The merges and the ignoring of plans only tend a project. -/
theorem keeps_tends {allow : Edit → List String → Prop} (hp : d.top.isPlain = true) (hn : root.Named)
    (ha : ∀ e q, Tends d root e q → allow e q) :
    Keeps (Steps allow d) (Settings.mergeStatusLine root) ∧
      Keeps (Steps allow d) (Settings.mergeHooks root) ∧
      Keeps (Steps allow d) (ensureIgnored root Layout.ignoredPlans (some ignoreComment)) := by
  have hignore : ∀ s ∈ splitSlash Layout.ignoreName, isName s = true := by decide
  have hmerges : ∀ e q, Settings.Merges d root e q → allow e q := fun _ _ h => ha _ _ (Or.inr (Or.inl h))
  refine ⟨Settings.keeps_mergeStatusLine hp hn (fun _ _ => ha _ _ (Or.inl rfl)) hmerges,
    Settings.keeps_mergeHooks hp hn hmerges, keeps_ensureIgnored hp (named_div hn hignore) ?_ ?_⟩
  · rw [Layout.ignoreFile, place_div hignore]
    exact ha _ _ (Or.inr (Or.inr ⟨Or.inl rfl, rfl⟩))
  · rw [Layout.ignoreFile, place_div hignore]
    exact ha _ _ (Or.inr (Or.inr ⟨Or.inr rfl, rfl⟩))

/-- The edits that tend a project, as a run from its own disk. -/
theorem steps_tends (hp : d.top.isPlain = true) (hn : root.Named) :
    Steps (Tends d root) d ((ensureIgnored root Layout.ignoredPlans (some ignoreComment)).on
      ((Settings.mergeHooks root).on ((Settings.mergeStatusLine root).on d).2).2).2 := by
  obtain ⟨hstatus, hhooks, hplans⟩ := keeps_tends hp hn fun _ _ h => h
  exact hplans _ (hhooks _ (hstatus d (.refl _)))

/-- Tidying removes retired files, then tends the settings and the ignore file, and prunes. -/
theorem tidy_run (hp : d.top.isPlain = true) (hn : root.Named) :
    ∃ b, Steps (Tends d root) ((removeRetired root).on d).2 b ∧
      (tidy root keep d).2 = ((prune root keep).on b).2 := by
  have hs : Steps (Retires d root) d ((removeRetired root).on d).2 := steps_removeRetired hp
  refine ⟨_, ?_, rfl⟩
  rw [← tends_eq hs.cwd_eq hs.clock_eq]
  exact steps_tends (hs.isPlain hp) hn

theorem isPlain_tidy (hp : d.top.isPlain = true) (hn : root.Named) :
    (tidy root keep d).2.top.isPlain = true := by
  obtain ⟨b, htends, htidy⟩ : ∃ b, Steps (Tends d root) ((removeRetired root).on d).2 b ∧
      (tidy root keep d).2 = ((prune root keep).on b).2 := tidy_run hp hn
  have hs : Steps (Retires d root) d ((removeRetired root).on d).2 := steps_removeRetired hp
  have hpb := htends.isPlain (hs.isPlain hp)
  have hprune : Steps (fun e p => e = .erase ∧ Archived b root p) b ((prune root keep).on b).2 :=
    prune_steps hpb rfl
  rw [htidy]
  exact hprune.isPlain hpb

/-! ## From a directory that is gone -/

theorem named_stamp (hn : root.Named) : (Layout.stamp root).Named := named_div hn isName_stamp

theorem tidy_of_not_grounded (hp : d.top.isPlain = true) (hn : root.Named) (hg : ¬ Grounded d root) :
    (tidy root keep d).2 = d := by
  have hl := Node.linkFree_of_isPlain hp
  have hretired : ∀ text ∈ Inventory.retired, ∀ s ∈ splitSlash text, isName s = true := by decide
  have hassets : ∀ s ∈ splitSlash Layout.assetsDirName, isName s = true := by decide
  have hsettings : ∀ s ∈ splitSlash ".claude/settings.json", isName s = true := by decide
  have hignore : ∀ s ∈ splitSlash Layout.ignoreName, isName s = true := by decide
  have hsnapshots : ∀ s ∈ splitSlash Layout.snapshotsDirName, isName s = true := by decide
  refine tidy_keeps (P := (· = d)) (Q := (· = d)) ?_ ?_ ?_ ?_ ?_ rfl
  · rintro a rfl
    rw [removeRetired_idle]
    intro text htext
    obtain ⟨e, he⟩ := find_of_not_grounded hl hg (hretired text htext)
    rw [isFile, he]
  · rintro a rfl
    have hg' : ¬ Grounded a (Layout.assetsDir root) := by rwa [Layout.assetsDir, grounded_div hassets]
    have hstay := makeDirs_of_not_grounded hl hg' a rfl
    rcases hrun : (makeDirs (Layout.assetsDir root)).on a with ⟨e | u, a'⟩
    · rw [hrun] at hstay
      rw [Settings.mergeStatusLine, on_bind_error hrun]
      exact hstay
    · rw [hrun] at hstay
      obtain rfl : a' = a := hstay
      exact absurd (.of_leads hl (leads_of_makeDirs hp (named_div hn hassets) (steps_div root hassets) hrun)) hg'
  · rintro a rfl
    obtain ⟨e, he⟩ := find_of_not_grounded hl hg hsettings
    rw [Settings.mergeHooks, on_bind_ask, Layout.settings, isThere, he]
    rfl
  · rintro a rfl
    obtain ⟨e, he⟩ : ∃ e, a.locate true (root / Layout.ignoreName) = .error e :=
      locate_of_not_grounded hl (by rwa [grounded_div hignore]) (steps_div root hignore) true
    have hgone : a.isThere (root / Layout.ignoreName) = false := by
      rw [isThere, find, he]
      rfl
    rw [ensureIgnored, on_bind_ask, Layout.ignoreFile, hgone]
    exact congrArg Prod.snd (on_bind_error (on_change_error (by rw [append, edit, he])))
  · rintro a rfl
    obtain ⟨e, he⟩ := find_of_not_grounded hl hg hsnapshots
    rw [prune, on_bind_ask, Layout.snapshots, isDir, he]
    rfl

/-- A root from which a stamp was saved at the end led to the project from the start. -/
theorem leads_of_saved {files : Install.Report} {d₂ d₃ : Disk} (hp : d.top.isPlain = true)
    (hroot : d.Leads root) (hclean : ∀ name ∈ installs k root d, isClean name = true)
    (hinstall : (Install.run k.bundle k.manifest root).on ((take root).on d).2 = (.ok files, d₂))
    (hsave : (Release.save root version).on (tidy root keep d₂).2 = (.ok (), d₃)) :
    ((take root).on d).2.Leads root := by
  have hn := hroot.named hp
  have hp₁ := (steps_take hp hn).isPlain hp
  refine (leads_take hp hroot).resolve_right fun hg => ?_
  have hstay : ((Install.run k.bundle k.manifest root).on ((take root).on d).2).2 = ((take root).on d).2 := by
    refine run_keeps (P := (· = ((take root).on d).2)) (fun name hmem r => ?_) rfl
    refine keeps_installOne fun a ha _ => ?_
    subst ha
    exact copyOne_of_not_grounded (Node.linkFree_of_isPlain hp₁) hg (isName_destination (hclean name hmem)) _ rfl
  rw [hinstall] at hstay
  obtain rfl : d₂ = _ := hstay
  rw [tidy_of_not_grounded hp₁ hn hg] at hsave
  have hopen := (replace_ok hp₁ (named_stamp hn) (steps_div root isName_stamp) hsave).1
  exact hg ((grounded_div isName_stamp).mp hopen.grounded)

/-! ## The stamp -/

theorem isFile_of_readText {p : Path} {text : String} (h : d.readText p = .ok text) : d.isFile p = true := by
  obtain ⟨place, c, mode, t, hfind, -⟩ := readText_ok h
  rw [isFile, hfind]
  rfl

/-- A project of some version has a stamp. -/
theorem isFile_of_current (h : Release.current root d ≠ Release.noVersion) :
    d.isFile (Layout.stamp root) = true := by
  cases hread : d.readText (Layout.stamp root) with
  | ok text => exact isFile_of_readText hread
  | error e =>
    rw [Release.current, hread] at h
    exact absurd rfl h

/-- A stamp that was saved tells its version. -/
theorem current_of_save (hp : a.top.isPlain = true) (hn : root.Named)
    (h : (Release.save root version).on a = (.ok (), a')) :
    Release.current root a' = Release.versionIn version := by
  have hfind := find_of_replace hp (named_stamp hn) (steps_div root isName_stamp) h
  rw [Release.current, readText_of_find hfind (by decide) (fromUTF8?_toUTF8 version)]

/-- Where no stamp could be saved there is none. -/
theorem current_of_save_error {e : Error} (hp : a.top.isPlain = true) (hn : root.Named)
    (h : (Release.save root version).on a = (.error e, a')) :
    Release.current root a' = Release.noVersion := by
  by_contra hversion
  have hfile := isFile_of_replace_error hp (named_stamp hn) (steps_div root isName_stamp) h
  rw [isFile_of_current hversion] at hfile
  cases hfile

end Outfitter.Update
