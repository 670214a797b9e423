import Outfitter.Files
import Outfitter.Proofs.Action
import Outfitter.Proofs.Disk.Operations

/-! # What operations on files do

Each operation takes only edits at the places that its paths spell: directories are made on
the way, and the last place is written.
-/

namespace Outfitter

open Disk

variable {allow : Edit → List String → Prop} {d₀ d d' : Disk} {p q source target : Path}

/-! ## Single changes -/

namespace Action

theorem keeps_change {g : Disk → Except Fault Disk}
    (hg : ∀ d d', Steps allow d₀ d → g d = .ok d' → Steps allow d d') :
    Keeps (Steps allow d₀) (change g) :=
  Keeps.change fun d d' hs h => hs.trans (hg d d' hs h)

theorem keeps_makeDir (hp : d₀.top.isPlain = true) (hn : p.Named)
    (hm : allow .make (d₀.place p)) : Keeps (Steps allow d₀) (change (·.makeDir p)) :=
  keeps_change fun _ _ hs h =>
    makeDir_steps (hs.isPlain hp) hn (by rw [hs.place_eq]; exact hm) h

theorem keeps_copy (hp : d₀.top.isPlain = true) (hn : target.Named)
    (hc : allow .create (d₀.place target)) (hr : allow .rewrite (d₀.place target)) :
    Keeps (Steps allow d₀) (change (·.copy source target)) :=
  keeps_change fun _ _ hs h =>
    copy_steps (hs.isPlain hp) hn (by rw [hs.place_eq]; exact hc)
      (by rw [hs.place_eq]; exact hr) h

theorem keeps_setModified {stamp : Stamp} (hp : d₀.top.isPlain = true)
    (hr : allow .rewrite (d₀.place p)) :
    Keeps (Steps allow d₀) (change (·.setModified p stamp)) :=
  keeps_change fun _ _ hs h =>
    setModified_steps (hs.isPlain hp) (by rw [hs.place_eq]; exact hr) h

theorem keeps_append {bytes : ByteArray} (hp : d₀.top.isPlain = true) (hn : p.Named)
    (hc : allow .create (d₀.place p)) (ha : allow .append (d₀.place p)) :
    Keeps (Steps allow d₀) (change (·.append p bytes)) :=
  keeps_change fun _ _ hs h =>
    append_steps (hs.isPlain hp) hn (by rw [hs.place_eq]; exact hc)
      (by rw [hs.place_eq]; exact ha) h

theorem keeps_removeFile (hp : d₀.top.isPlain = true) (hu : d₀.Admits p → allow .unlink (d₀.place p)) :
    Keeps (Steps allow d₀) (change (·.removeFile p)) :=
  keeps_change fun _ _ hs h =>
    removeFile_steps (hs.isPlain hp) (by rw [hs.place_eq, hs.admits_iff]; exact hu) h

theorem keeps_removeTree (hp : d₀.top.isPlain = true) (he : allow .erase (d₀.place p)) :
    Keeps (Steps allow d₀) (change (·.removeTree p)) :=
  keeps_change fun _ _ hs h =>
    removeTree_steps (hs.isPlain hp) (by rw [hs.place_eq]; exact he) h

end Action

namespace Files

open Action

/-! ## Directories -/

/-- What is around a path is on its way, or a directory in use. -/
theorem ancestors_cases {fuel : Nat} (h : q ∈ p.ancestorsUpTo fuel) :
    q.isBare = true ∨ d.base q = d.base p ∧ d.trail q <+: d.trail p := by
  induction fuel generalizing p with
  | zero =>
    rw [Path.ancestorsUpTo, List.mem_singleton] at h
    exact Or.inr (h ▸ ⟨rfl, List.prefix_refl _⟩)
  | succ fuel ih =>
    rw [Path.ancestorsUpTo] at h
    split at h
    · next r hr =>
      rcases List.mem_cons.mp h with rfl | h
      · exact Or.inr ⟨rfl, List.prefix_refl _⟩
      by_cases hs : p.steps = []
      · exact Or.inl (Path.isBare_ancestors (Path.isBare_parent? hs hr) h)
      · refine (ih h).imp_right fun hon => ⟨hon.1.trans (base_parent hs hr), hon.2.trans ?_⟩
        rw [trail_parent hs hr]
        exact List.dropLast_prefix _
    · rw [List.mem_singleton] at h
      exact Or.inr (h ▸ ⟨rfl, List.prefix_refl _⟩)

/-- No directory is made by a path that takes no step. -/
theorem makeDir_of_no_steps (hs : p.steps = []) (d : Disk) : ∃ e, d.makeDir p = .error e := by
  unfold makeDir
  split
  · exact ⟨_, rfl⟩
  · next hloc => exact absurd hs (steps_of_vacant hloc)
  · exact ⟨_, rfl⟩

theorem keeps_makeDir_of_no_steps {P : Disk → Prop} (hs : p.steps = []) :
    Keeps P (change (·.makeDir p)) :=
  Keeps.change fun d d' _ hd => by
    obtain ⟨e, he⟩ := makeDir_of_no_steps hs d
    rw [he] at hd
    cases hd

theorem keeps_makeDirsFrom {P : Disk → Prop} {ps : List Path}
    (h : ∀ p ∈ ps, Keeps P (change (·.makeDir p))) : Keeps P (makeDirsFrom ps) := by
  induction ps with
  | nil => exact Keeps.fail _
  | cons p ps ih =>
    obtain ⟨hmake, hrest⟩ := List.forall_mem_cons.mp h
    have hcheck : ∀ e, Keeps P
        (do if ← ask (·.isDir p) then pure () else fail e : Action Unit) := fun e =>
      (Keeps.ask _).bind fun _ => (Keeps.pure ()).ite (Keeps.fail e)
    rw [makeDirsFrom]
    refine (Keeps.pure ()).ite (hmake.attempt.bind fun r => ?_)
    split
    · exact Keeps.pure ()
    · refine (ih hrest).bind fun _ => hmake.attempt.bind fun r => ?_
      split
      · exact Keeps.pure ()
      · exact hcheck _
    · exact hcheck _

/-- Every directory on the way may be made. -/
def MayMake (allow : Edit → List String → Prop) (names : List String) : Prop :=
  ∀ ys, ys <+: names → allow .make (climb [] ys).reverse

theorem MayMake.mono {xs ys : List String} (h : MayMake allow ys) (hx : xs <+: ys) :
    MayMake allow xs :=
  fun zs hz => h zs (hz.trans hx)

/-- The directories on the way to a place below a path are passed by the path or lie below it. -/
theorem mayMake_below {root : Path} {rel : List String} (hn : ∀ s ∈ rel, isName s = true)
    (hpass : ∀ q, d.Passes root q → allow .make q)
    (hbelow : ∀ zs, zs <+: rel → allow .make (d.place root ++ zs)) :
    MayMake allow (d.trail root ++ rel) := by
  intro ys hys
  rcases List.prefix_or_prefix_of_prefix hys (List.prefix_append (d.trail root) rel) with h | ⟨zs, rfl⟩
  · exact hpass _ ⟨ys, h, rfl⟩
  · have hzs : zs <+: rel := (List.prefix_append_right_inj _).mp hys
    rw [climb_below fun s hs => hn s (hzs.subset hs)]
    exact hbelow zs hzs

theorem keeps_makeDirs (hp : d₀.top.isPlain = true) (hn : p.Named)
    (hm : MayMake allow (d₀.trail p)) : Keeps (Steps allow d₀) (makeDirs p) := by
  refine keeps_makeDirsFrom fun q hq => ?_
  rcases ancestors_cases (d := d₀) hq with hb | ⟨-, hpre⟩
  · exact keeps_makeDir_of_no_steps (Path.steps_of_isBare hb)
  · exact keeps_makeDir hp (hn.ancestors hq) (hm _ hpre)

/-- Directories that are made leave a place alone that they do not pass, or that is taken. -/
theorem shape?_makeDirs {place : List String} (hp : d.top.isPlain = true) (hn : p.Named)
    (hq : d.Passes p place → d.top.shape? place ≠ none) :
    ((makeDirs p).on d).2.top.shape? place = d.top.shape? place := by
  have hs : Steps (fun e q => e = .make ∧ d.Passes p q) d ((makeDirs p).on d).2 :=
    keeps_makeDirs hp hn (fun ys hys => ⟨rfl, ys, hys, rfl⟩) d (.refl _)
  refine hs.keeps (P := fun a => a.top.shape? place = d.top.shape? place) ?_ rfl
  intro a b hstep ha
  obtain ⟨e, q, -, ⟨rfl, hpass⟩, ⟨hold, -⟩, hsh, -⟩ := hstep.effect
  by_cases he : place = q
  · subst he
    rw [Node.shape?, hold] at ha
    exact absurd ha.symm (hq hpass)
  · rw [hsh place he (by simp)]
    exact ha

theorem keeps_makeParents (hp : d₀.top.isPlain = true) (hn : p.Named)
    (hm : MayMake allow (d₀.trail p).dropLast) : Keeps (Steps allow d₀) (makeParents p) := by
  unfold makeParents
  split
  · next q hq =>
    by_cases hs : p.steps = []
    · exact keeps_makeDirsFrom fun r hr =>
        keeps_makeDir_of_no_steps (Path.steps_of_isBare (Path.isBare_ancestors (Path.isBare_parent? hs hq) hr))
    · exact keeps_makeDirs hp (hn.parent hq) (trail_parent hs hq ▸ hm)
  · exact Keeps.pure ()

/-! ## Files -/

/-- A file is replaced by edits of its own place and of those above it. -/
theorem keeps_replace_below {bytes : ByteArray} (hp : d₀.top.isPlain = true) (hn : p.Named)
    (hne : p.steps ≠ []) (hm : MayMake allow (d₀.trail p).dropLast)
    (ht : allow .touch (climb [] (d₀.trail p).dropLast).reverse)
    (hc : allow .create (d₀.place p)) (hr : d₀.Admits p → allow .rewrite (d₀.place p)) :
    Keeps (Steps allow d₀) (replace p bytes) := by
  refine (keeps_makeParents hp hn hm).bind fun _ d hs => ?_
  have hd : Steps allow d (d.replace p bytes).2 := by
    apply replace_steps (hs.isPlain hp) hn hne
    · rw [hs.trail_eq]; exact ht
    · rw [hs.place_eq]; exact hc
    · rw [hs.admits_iff, hs.place_eq]; exact hr
  refine hs.trans ?_
  rcases hd' : d.replace p bytes with ⟨r, d'⟩
  rw [hd'] at hd
  cases r <;> simpa only [Action.on, hd'] using hd

theorem keeps_replace {bytes : ByteArray} (hp : d₀.top.isPlain = true) (hn : p.Named)
    (hne : p.steps ≠ []) (hm : MayMake allow (d₀.trail p))
    (ht : allow .touch (climb [] (d₀.trail p).dropLast).reverse)
    (hc : allow .create (d₀.place p)) (hr : d₀.Admits p → allow .rewrite (d₀.place p)) :
    Keeps (Steps allow d₀) (replace p bytes) :=
  keeps_replace_below hp hn hne (hm.mono (List.dropLast_prefix _)) ht hc hr

theorem keeps_copy (hp : d₀.top.isPlain = true) (hn : target.Named)
    (hm : MayMake allow (d₀.trail target)) (hc : allow .create (d₀.place target))
    (hr : allow .rewrite (d₀.place target)) : Keeps (Steps allow d₀) (copy source target) :=
  (keeps_makeParents hp hn (hm.mono (List.dropLast_prefix _))).bind fun _ => (Action.keeps_copy hp hn hc hr).bind fun _ =>
    (Keeps.fetch _).bind fun _ => keeps_setModified hp hr

theorem keeps_makeExecutable (hp : d₀.top.isPlain = true)
    (hr : d₀.Admits p → allow .rewrite (d₀.place p)) :
    Keeps (Steps allow d₀) (makeExecutable p) :=
  keeps_change fun _ _ hs h =>
    changeMode_steps (hs.isPlain hp) (by rw [hs.admits_iff, hs.place_eq]; exact hr) h

theorem keeps_ensureIgnored {root : Path} {entry : String} {comment : Option String}
    (hp : d₀.top.isPlain = true) (hn : (Layout.ignoreFile root).Named)
    (hc : allow .create (d₀.place (Layout.ignoreFile root)))
    (ha : allow .append (d₀.place (Layout.ignoreFile root))) :
    Keeps (Steps allow d₀) (ensureIgnored root entry comment) := by
  unfold ensureIgnored
  refine (Keeps.ask _).bind fun _ =>
    Keeps.ite ((Keeps.fetch _).bind fun _ => ?_) ((Keeps.pure _).bind fun _ => ?_) <;>
  exact (Keeps.pure _).ite ((keeps_append hp hn hc ha).bind fun _ => Keeps.pure _)

end Files

end Outfitter
