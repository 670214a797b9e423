import Outfitter.Proofs.Disk.Twin
import Outfitter.Proofs.Files
import Outfitter.Proofs.Install
import Outfitter.Proofs.Settings.Merge

/-! # Actions on disks that look alike

An action runs in lockstep on related disks if it has the same outcome on both and leaves
them related. On twins this holds of every action whose paths miss the places that differ.
-/

namespace Outfitter

open Disk

namespace Action

variable {α β : Type} {R : Disk → Disk → Prop} {x : Action α} {f : α → Action β}

/-- Related disks give the same outcome and stay related. -/
def Lockstep (R : Disk → Disk → Prop) (x : Action α) : Prop :=
  ∀ a b, R a b → (x.on a).1 = (x.on b).1 ∧ R (x.on a).2 (x.on b).2

namespace Lockstep

theorem pure (v : α) : Lockstep R (Pure.pure v : Action α) := fun _ _ h => ⟨rfl, h⟩

theorem fail (e : Error) : Lockstep R (Action.fail e : Action α) := fun _ _ h => ⟨rfl, h⟩

theorem ask {g : Disk → α} (hg : ∀ a b, R a b → g a = g b) : Lockstep R (Action.ask g) :=
  fun a b h => ⟨congrArg Except.ok (hg a b h), h⟩

theorem fetch {g : Disk → Except Fault α} (hg : ∀ a b, R a b → g a = g b) :
    Lockstep R (Action.fetch g) := by
  intro a b h
  have hab := hg a b h
  cases hb : g b with
  | ok v =>
    rw [on_fetch_ok hb, on_fetch_ok (hab.trans hb)]
    exact ⟨rfl, h⟩
  | error e =>
    rw [on_fetch_error hb, on_fetch_error (hab.trans hb)]
    exact ⟨rfl, h⟩

theorem attempt (hx : Lockstep R x) : Lockstep R (Action.attempt x) := fun a b h =>
  ⟨congrArg Except.ok (hx a b h).1, (hx a b h).2⟩

theorem ignore (hx : Lockstep R x) : Lockstep R (Action.ignore x) := fun a b h =>
  ⟨rfl, (hx a b h).2⟩

/-- Sequencing, with what is known of the first result. -/
theorem bind_of {Q : α → Prop} (hx : Lockstep R x) (hq : ∀ d v d', x.on d = (.ok v, d') → Q v)
    (hf : ∀ v, Q v → Lockstep R (f v)) : Lockstep R (x >>= f) := by
  intro a b h
  obtain ⟨hout, hrel⟩ := hx a b h
  rcases ha : x.on a with ⟨r, a'⟩
  rcases hb : x.on b with ⟨s, b'⟩
  rw [ha, hb] at hout hrel
  obtain rfl : r = s := hout
  cases r with
  | ok v =>
    rw [on_bind_ok ha, on_bind_ok hb]
    exact hf v (hq a v a' ha) a' b' hrel
  | error e =>
    rw [on_bind_error ha, on_bind_error hb]
    exact ⟨rfl, hrel⟩

theorem bind (hx : Lockstep R x) (hf : ∀ v, Lockstep R (f v)) : Lockstep R (x >>= f) :=
  hx.bind_of (Q := fun _ => True) (fun _ _ _ _ => trivial) fun v _ => hf v

theorem ite {c : Prop} [Decidable c] {y : Action α} (hx : Lockstep R x) (hy : Lockstep R y) :
    Lockstep R (if c then x else y) := by
  split
  · exact hx
  · exact hy

theorem foldlM {σ : Type} {g : σ → α → Action σ} {xs : List α}
    (hg : ∀ s, ∀ v ∈ xs, Lockstep R (g s v)) (s : σ) : Lockstep R (xs.foldlM g s) := by
  induction xs generalizing s with
  | nil => exact pure s
  | cons v xs ih =>
    rw [List.foldlM_cons]
    exact (hg s v List.mem_cons_self).bind fun s' =>
      ih (fun s w hw => hg s w (List.mem_cons_of_mem _ hw)) s'

theorem change {o : Disk} {X : List String → Prop} {g : Disk → Except Fault Disk}
    (hg : ∀ a b, Twin o X a b → Alike o X (g a) (g b)) : Lockstep (Twin o X) (Action.change g) := by
  intro a b h
  have hab := hg a b h
  generalize ha : g a = r at hab
  generalize hb : g b = s at hab
  cases hab with
  | fault e =>
    rw [on_change_error ha, on_change_error hb]
    exact ⟨rfl, h⟩
  | twins ht =>
    rw [on_change_ok ha, on_change_ok hb]
    exact ⟨rfl, ht⟩

end Lockstep

end Action

open Action

variable {o : Disk} {X : List String → Prop} {p : Path}

namespace Files

theorem lockstep_isDir (h : takes p = true → o.Misses X p) (e : Error) : Lockstep (Twin o X)
    (do if ← ask (·.isDir p) then pure () else fail e : Action Unit) :=
  (Lockstep.ask fun _ _ ht => ht.isDir h).bind fun _ => (Lockstep.pure ()).ite (.fail e)

theorem lockstep_makeLast (h : takes p = true → o.Misses X p) : Lockstep (Twin o X) (makeLast p) := by
  refine (Lockstep.change fun _ _ ht => ht.makeDir h).attempt.bind fun r => ?_
  split
  · exact .pure ()
  · exact lockstep_isDir h _

theorem lockstep_makeDirsFrom {ps : List Path} (h : ∀ p ∈ ps, p.isBare = true ∨ o.Misses X p) :
    Lockstep (Twin o X) (makeDirsFrom ps) := by
  induction ps with
  | nil => exact .fail _
  | cons p ps ih =>
    obtain ⟨hp, hrest⟩ := List.forall_mem_cons.mp h
    rw [makeDirsFrom]
    split
    · exact .pure ()
    next hbare =>
    have hp' : takes p = true → o.Misses X p := fun ht =>
      hp.resolve_left fun hb => hbare (Bool.and_eq_true_iff.mpr ⟨hb, (Bool.and_eq_true_iff.mp ht).2⟩)
    refine (Lockstep.change fun _ _ ht => ht.makeDir hp').attempt.bind fun r => ?_
    split
    · exact .pure ()
    · exact (ih hrest).bind fun _ => lockstep_makeLast hp'
    · exact lockstep_isDir hp' _

theorem lockstep_makeDirs (h : p.isBare = true ∨ o.Misses X p) : Lockstep (Twin o X) (makeDirs p) := by
  refine lockstep_makeDirsFrom fun q hq => ?_
  rcases h with hb | hm
  · exact Or.inl (Path.isBare_ancestors hb hq)
  · exact (ancestors_cases (d := o) hq).imp_right fun hon ys hys => hm ys (hys.trans hon.2)

theorem lockstep_makeParents (h : o.Misses X p) : Lockstep (Twin o X) (makeParents p) := by
  rw [makeParents]
  split
  · next dir hdir =>
    by_cases hs : p.steps = []
    · exact lockstep_makeDirs (Or.inl (Path.isBare_parent? hs hdir))
    · refine lockstep_makeDirs (Or.inr fun ys hys => h ys ?_)
      rw [trail_parent hs hdir] at hys
      exact hys.trans (List.dropLast_prefix _)
  · exact .pure ()

theorem lockstep_replace {bytes : ByteArray} (h : o.Misses X p) (hne : p.steps ≠ []) :
    Lockstep (Twin o X) (replace p bytes) := by
  refine (lockstep_makeParents h).bind fun _ a b ht => ?_
  obtain ⟨hout, htwin⟩ := ht.replace h hne bytes
  rcases ha : a.replace p bytes with ⟨r, a'⟩
  rcases hb : b.replace p bytes with ⟨s, b'⟩
  rw [ha, hb] at hout htwin
  obtain rfl : r = s := hout
  simp only [on, ha, hb]
  cases r <;> exact ⟨rfl, htwin⟩

theorem lockstep_makeExecutable (h : o.Misses X p) : Lockstep (Twin o X) (makeExecutable p) :=
  .change fun _ _ ht => ht.changeMode h

theorem lockstep_ensureIgnored {root : Path} {entry : String} {comment : Option String}
    (h : o.Misses X (Layout.ignoreFile root)) : Lockstep (Twin o X) (ensureIgnored root entry comment) := by
  have hadd : ∀ bytes, Lockstep (Twin o X) (change (·.append (Layout.ignoreFile root) bytes)) :=
    fun _ => .change fun _ _ ht => ht.edit h
  refine (Lockstep.ask fun _ _ ht => ht.isThere h).bind fun _ =>
    Lockstep.ite ((Lockstep.fetch fun _ _ ht => ht.readText h).bind fun _ => ?_)
      ((Lockstep.pure _).bind fun _ => ?_) <;>
  exact (Lockstep.pure _).ite ((hadd _).bind fun _ => .pure _)

end Files

namespace Settings

variable {file staging : Path} {doc : Document} {backup : Option Path}

theorem lockstep_read (h : o.Misses X file) : Lockstep (Twin o X) (read file) := by
  refine (Lockstep.fetch fun _ _ ht => ht.readText h).bind fun text => ?_
  split
  · exact .pure _
  · exact .fail _

theorem lockstep_stage (h : o.Misses X file) (hs : o.Misses X staging) :
    Lockstep (Twin o X) (stage file staging doc) := by
  refine (Lockstep.change fun _ _ ht => ht.edit hs).bind fun _ a b ht => ?_
  have htext := ht.readText hs
  cases hb : b.readText staging with
  | error e =>
    rw [on_bind_error (on_fetch_error (htext.trans hb)), on_bind_error (on_fetch_error hb)]
    exact ⟨rfl, ht⟩
  | ok text =>
    rw [on_bind_ok (on_fetch_ok (htext.trans hb)), on_bind_ok (on_fetch_ok hb)]
    split
    · exact ⟨rfl, ht⟩
    · -- what was read is a file, so it is a file that is renamed
      have hfile : b.isFile staging = true := by
        obtain ⟨_, _, _, _, hf, -⟩ := readText_ok hb
        rw [isFile, hf]
        rfl
      have halike := ht.rename hs h hfile
      generalize ha' : a.rename staging file = r at halike
      generalize hb' : b.rename staging file = s at halike
      cases halike with
      | fault e =>
        rw [on_change_error ha', on_change_error hb']
        exact ⟨rfl, ht⟩
      | twins ht' =>
        rw [on_change_ok ha', on_change_ok hb']
        exact ⟨rfl, ht'⟩

theorem lockstep_restore (h : o.Misses X file) (hs : o.Misses X staging)
    (hb : ∀ p ∈ backup, o.Misses X p) : Lockstep (Twin o X) (restore file staging backup) := by
  refine Lockstep.bind ?_ fun _ => ?_
  · refine (Lockstep.ask fun _ _ ht => ht.isFile hs).bind fun _ => Lockstep.ite ?_ (.pure _)
    exact (Lockstep.change fun _ _ ht => ht.removeFile hs).ignore
  · cases backup with
    | none => exact .pure _
    | some p =>
      have hp := hb p rfl
      refine (Lockstep.ask fun _ _ ht => ht.isFile hp).bind fun _ => Lockstep.ite ?_ (.pure _)
      exact (Lockstep.change fun _ _ ht => ht.copy hp h).ignore

theorem lockstep_write (h : o.Misses X file) (hs : o.Misses X (Layout.staging file))
    (hb : ∀ p ∈ backup, o.Misses X p) : Lockstep (Twin o X) (write file doc backup) := by
  refine (lockstep_stage h hs).attempt.bind fun r => ?_
  split
  · exact .pure _
  · exact (lockstep_restore h hs hb).bind fun _ => .fail _

end Settings

namespace Settings

variable {root : Path} {doc : Document}

/-- The path beside the settings that a backup has. -/
theorem tryBackUp_path {d d' : Disk} {backup : Option Path}
    (h : (tryBackUp (Layout.settings root)).on d = (.ok backup, d')) {p : Path} (hp : p ∈ backup) :
    p = root.join ⟨[Layout.assetsDirName, backupName d.clock]⟩ := by
  obtain ⟨d₁, -, hrun⟩ | ⟨_, -, hrun⟩ := tryBackUp_cases root d
  · cases hrun.symm.trans h
    cases hp
    exact Layout.settings_sibling root (isName_backupName d.clock)
  · cases hrun.symm.trans h
    cases hp

/-- What may stand beside the settings is missed. -/
def Misses (o : Disk) (X : List String → Prop) (root : Path) : Prop :=
  ∀ name, isName name = true → o.Misses X (root.join ⟨[Layout.assetsDirName, name]⟩)

namespace Misses

variable (h : Misses o X root)

include h

theorem settings : o.Misses X (Layout.settings root) := h "settings.json" (by decide)

theorem staging : o.Misses X (Layout.staging (Layout.settings root)) := by
  rw [Layout.staging_settings]
  exact h _ (by decide)

theorem assets : o.Misses X (Layout.assetsDir root) := by
  intro ys hys
  refine h "settings.json" (by decide) ys (hys.trans ?_)
  rw [trail_join Layout.isName_settings (by simp), Layout.assetsDir, trail_div (by decide)]
  exact ⟨["settings.json"], List.append_assoc ..⟩

theorem lockstep_backUp : Lockstep (Twin o X) (Snapshot.backUp (Layout.settings root)) := by
  intro a b ht
  rw [backUp_eq, backUp_eq, ht.clock, Layout.settings_sibling root (isName_backupName b.clock)]
  have hcopy : Lockstep (Twin o X) (change (·.copy (Layout.settings root)
      (root.join ⟨[Layout.assetsDirName, backupName b.clock]⟩))) :=
    .change fun _ _ ht => ht.copy h.settings (h _ (isName_backupName _))
  exact hcopy.bind (fun _ => .pure _) a b ht

theorem lockstep_saveOver : Lockstep (Twin o X) (saveOver (Layout.settings root) doc) := by
  refine Lockstep.bind_of (Q := fun backup => ∀ p ∈ backup, o.Misses X p) ?_ ?_ fun backup hb =>
    lockstep_write h.settings h.staging hb
  · refine h.lockstep_backUp.attempt.bind fun r => ?_
    split
    · exact .pure _
    · exact .pure _
  · intro d backup d' hrun p hp
    rw [tryBackUp_path hrun hp]
    exact h _ (isName_backupName _)

theorem lockstep_mergeStatusLine : Lockstep (Twin o X) (mergeStatusLine root) := by
  refine (Files.lockstep_makeDirs (Or.inr h.assets)).bind fun _ =>
    (Lockstep.ask fun _ _ ht => ht.isThere h.settings).bind fun _ =>
      Lockstep.ite ((lockstep_read h.settings).bind fun doc => ?_) ?_
  · exact (Lockstep.pure _).ite (h.lockstep_saveOver.bind fun _ => .pure _)
  · refine (lockstep_write h.settings h.staging ?_).bind fun _ => .pure _
    intro p hp
    cases hp

theorem lockstep_mergeHooks : Lockstep (Twin o X) (mergeHooks root) := by
  refine (Lockstep.ask fun _ _ ht => ht.isThere h.settings).bind fun _ =>
    Lockstep.ite ((lockstep_read h.settings).bind fun doc => ?_) (.pure _)
  split
  · exact h.lockstep_saveOver.bind fun _ => .pure _
  · split
    · exact .pure _
    · exact h.lockstep_saveOver.bind fun _ => .pure _

end Misses

end Settings

namespace Install

variable {root : Path} {m : Manifest} {names : List String} {contents : List (String × ByteArray)}

theorem lockstep_read (name : String) : Lockstep (Twin o X) ((Bundle.held names contents).read name) := by
  rw [Bundle.read]
  split
  · exact .pure _
  · exact .fail _

theorem lockstep_installOne {bundled : String} {r : Report}
    (h : o.Misses X (root / Inventory.destination bundled))
    (hne : (root / Inventory.destination bundled).steps ≠ []) :
    Lockstep (Twin o X) (installOne (.held names contents) m root r bundled) := by
  have hcopy : Lockstep (Twin o X) (copyOne (.held names contents) bundled
      (Inventory.destination bundled) (root / Inventory.destination bundled)) :=
    (lockstep_read _).bind fun _ => (Files.lockstep_replace h hne).bind fun _ =>
      (Files.lockstep_makeExecutable h).ite (.pure _)
  refine (Lockstep.ask fun _ _ ht => ht.isThere h).bind fun _ => (Lockstep.pure _).ite ?_
  refine hcopy.attempt.bind fun r => ?_
  split
  · exact .pure _
  · exact .pure _

theorem lockstep_run (h : ∀ name ∈ names, o.Misses X (root / Inventory.destination name))
    (hne : ∀ name ∈ names, (root / Inventory.destination name).steps ≠ []) :
    Lockstep (Twin o X) (run (.held names contents) m root) :=
  (Lockstep.pure _).bind_of (Q := (· = names))
    (fun _ _ _ hv => by cases hv; rfl)
    fun _ hv => .foldlM (fun _ name hname => lockstep_installOne (h name (hv ▸ hname)) (hne name (hv ▸ hname))) _

end Install

end Outfitter
