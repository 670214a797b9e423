import Outfitter.Install
import Outfitter.Proofs.Directories
import Outfitter.Proofs.Layout
import Outfitter.Proofs.Walk

/-! # What an installation changes

Installing a bundle writes the destinations of its files and makes the directories around
them. A file of the user at a destination is kept, as long as the root leads to the project.
-/

namespace Outfitter

open Disk Action Files

namespace Bundle

variable {P : Disk → Prop} {b : Bundle}

theorem keeps_read (name : String) : Keeps P (b.read name) := by
  unfold read
  split
  · split
    · exact Keeps.pure _
    · exact Keeps.fail _
  · exact (Keeps.ask _).bind fun _ => (Keeps.fetch _).ite (Keeps.fail _)

theorem keeps_files : Keeps P b.files := by
  unfold files
  split
  · exact Keeps.pure _
  · refine (Keeps.ask _).bind fun _ => Keeps.ite (Keeps.bind ?_ fun _ => Keeps.pure _) (Keeps.fail _)
    refine Walk.keeps_fold_of (N := fun _ => True) (fun _ _ _ _ _ _ _ => trivial) (fun found r _ => ?_) _ _
    cases r with
    | error e => exact Keeps.fail _
    | ok item => exact (Keeps.pure _).ite (Keeps.pure _)

end Bundle

namespace Install

variable {allow : Edit → List String → Prop} {d₀ d : Disk} {root : Path} {b : Bundle}
  {bundled dest : String} {q : List String}

/-- Where a destination lies in a project. -/
def spot (d : Disk) (root : Path) (dest : String) : List String := d.place root ++ splitSlash dest

theorem spot_inj {text other : String} (h : spot d root text = spot d root other) : text = other := by
  rw [← Path.text_ofText text, ← Path.text_ofText other]
  exact congrArg (fun rel => (Path.mk rel).text) (List.append_cancel_left h)

theorem climb_dropLast (hd : ∀ s ∈ splitSlash dest, isName s = true) :
    (climb [] (d.trail (root / dest)).dropLast).reverse =
      d.place root ++ (splitSlash dest).dropLast := by
  rw [trail_div hd, List.dropLast_append_of_ne_nil (Path.splitSlash_ne_nil dest),
    climb_below fun s hs => hd s ((List.dropLast_prefix _).subset hs)]

theorem steps_div (root : Path) (hd : ∀ s ∈ splitSlash dest, isName s = true) : (root / dest).steps ≠ [] :=
  steps_join_ne_nil hd (Path.splitSlash_ne_nil dest)

/-- A file is copied by edits of its own place and of those above it. -/
theorem keeps_copyOne_below (hp : d₀.top.isPlain = true) (hn : root.Named)
    (hd : ∀ s ∈ splitSlash dest, isName s = true)
    (hm : MayMake allow (d₀.trail root ++ (splitSlash dest).dropLast))
    (ht : allow .touch (d₀.place root ++ (splitSlash dest).dropLast))
    (hc : allow .create (spot d₀ root dest))
    (hr : d₀.Admits (root / dest) → allow .rewrite (spot d₀ root dest)) :
    Keeps (Steps allow d₀) (copyOne b bundled dest (root / dest)) := by
  have hpl : d₀.place (root / dest) = spot d₀ root dest := place_div hd
  refine (Bundle.keeps_read _).bind fun bytes => Keeps.bind ?_ fun _ => Keeps.ite ?_ (Keeps.pure _)
  · refine keeps_replace_below hp (named_div hn hd) (steps_div root hd) ?_ ?_ ?_ ?_
    · rw [trail_div hd, List.dropLast_append_of_ne_nil (Path.splitSlash_ne_nil dest)]
      exact hm
    · rw [climb_dropLast hd]; exact ht
    · rw [hpl]; exact hc
    · rw [hpl]; exact hr
  · exact keeps_makeExecutable hp (by rw [hpl]; exact hr)

theorem keeps_copyOne (hp : d₀.top.isPlain = true) (hn : root.Named)
    (hd : ∀ s ∈ splitSlash dest, isName s = true)
    (hm : MayMake allow (d₀.trail root ++ splitSlash dest))
    (ht : allow .touch (d₀.place root ++ (splitSlash dest).dropLast))
    (hc : allow .create (spot d₀ root dest))
    (hr : d₀.Admits (root / dest) → allow .rewrite (spot d₀ root dest)) :
    Keeps (Steps allow d₀) (copyOne b bundled dest (root / dest)) :=
  keeps_copyOne_below hp hn hd (hm.mono ((List.prefix_append_right_inj _).mpr (List.dropLast_prefix _))) ht hc hr

/-! ## From a directory that is gone -/

theorem grounded_div (hd : ∀ s ∈ splitSlash dest, isName s = true) :
    Grounded d (root / dest) ↔ Grounded d root := by
  rw [Grounded, Grounded, show d.base (root / dest) = _ from base_join hd (Path.splitSlash_ne_nil dest)]

theorem find_of_not_grounded (hl : d.top.LinkFree) (hg : ¬ Grounded d root)
    (hd : ∀ s ∈ splitSlash dest, isName s = true) : ∃ e, d.find (root / dest) = .error e := by
  rw [← grounded_div hd] at hg
  obtain ⟨e, he⟩ := locate_of_not_grounded hl hg (steps_div root hd) true
  exact ⟨e, by rw [find, he]⟩

theorem copyOne_of_not_grounded (hl : d.top.LinkFree) (hg : ¬ Grounded d root)
    (hd : ∀ s ∈ splitSlash dest, isName s = true) :
    Keeps (· = d) (copyOne b bundled dest (root / dest)) := by
  have hne := steps_div root hd
  have hg' : ¬ Grounded d (root / dest) := by rwa [grounded_div hd]
  refine (Bundle.keeps_read _).bind fun bytes => Keeps.bind ?_ fun _ => Keeps.ite ?_ (Keeps.pure _)
  · exact replace_of_not_grounded hl hg' hne bytes
  · refine Keeps.change fun a b ha hb => ?_
    obtain ⟨e, he⟩ := locate_of_not_grounded hl hg' hne true
    rw [ha, changeMode, find, he] at hb
    cases hb

/-! ## One file -/

theorem policy?_curated {p : Policy} (h : Manifest.curated.policy? bundled = some p) :
    p = .mergeOnly := by
  change List.lookup (Manifest.normalize bundled) [(".claude/settings.json", Policy.mergeOnly)] =
    some p at h
  rw [List.lookup_cons] at h
  split at h <;> cases h
  rfl

/-- By the manifest of what ships, what is there and belongs to the user is kept. -/
theorem keeps_curated (h : Inventory.isUserOwned dest = true) :
    keeps .curated bundled dest true = true := by
  unfold keeps
  split
  · rfl
  · next hp => cases policy?_curated hp
  · rfl
  · simpa using h

theorem keeps_installOne {P : Disk → Prop} {m : Manifest} {r : Report}
    (h : ∀ d, P d → keeps m bundled (Inventory.destination bundled)
        (d.isThere (root / Inventory.destination bundled)) = false →
      P ((copyOne b bundled (Inventory.destination bundled)
        (root / Inventory.destination bundled)).on d).2) :
    Keeps P (installOne b m root r bundled) := by
  intro d hd
  unfold installOne
  rw [on_bind_ask]
  split
  · exact hd
  · next hk =>
    rw [on_bind_attempt]
    have hrun := h d hd (by simpa using hk)
    split <;> exact hrun

/-- The root leads to the project, or nothing that is read from it leads anywhere. -/
def Rooted (d : Disk) (root : Path) : Prop := d.Leads root ∨ ¬ Grounded d root

/-- A file of the user at a destination is not rewritten. -/
theorem keeps_installOne_curated {r : Report} (hp : d₀.top.isPlain = true) (hn : root.Named)
    (hd : ∀ s ∈ splitSlash (Inventory.destination bundled), isName s = true)
    (hm : ∀ p, allow .make p) (ht : ∀ p, allow .touch p) (hc : ∀ p, allow .create p)
    (he : ∀ p, ¬ allow .erase p) (hu : ¬ allow .unlink q)
    (hr : (spot d₀ root (Inventory.destination bundled) = q →
        Inventory.isUserOwned (Inventory.destination bundled) = false) →
      allow .rewrite (spot d₀ root (Inventory.destination bundled))) :
    Keeps (fun d => Steps allow d₀ d ∧ Rooted d root ∧ ∃ c m t, d.top.at? q = some (.file c m t))
      (installOne b .curated root r bundled) := by
  apply keeps_installOne
  rintro d ⟨hs, hroot, hfile⟩ hkeep
  generalize Inventory.destination bundled = dest at hd hr hkeep
  have hpd := hs.isPlain hp
  have hld := Node.linkFree_of_isPlain hpd
  rcases hroot with hlead | hg
  · have hrun : Steps allow d ((copyOne b bundled dest (root / dest)).on d).2 := by
      refine keeps_copyOne hpd hn hd (fun _ _ => hm _) (ht _) (hc _) ?_ d (.refl _)
      intro hadmits
      have hspot : spot d root dest = spot d₀ root dest := by rw [spot, hs.place_eq, spot]
      rw [hspot]
      apply hr
      intro hq
      by_contra hown
      rw [Bool.not_eq_false] at hown
      obtain ⟨c, m, t, hat⟩ := hfile
      rw [← hq, ← hspot] at hat
      have hloc : d.locate true (root / dest) = .ok (.there (spot d root dest) (.file c m t)) :=
        locate_join hld hlead hd (Path.splitSlash_ne_nil _) hadmits hat
      have hthere : d.isThere (root / dest) = true := by
        rw [isThere, find_ok_iff.mpr hloc]
        rfl
      rw [hthere, keeps_curated hown] at hkeep
      cases hkeep
    refine ⟨hs.trans hrun, Or.inl ?_, ?_⟩
    · exact hrun.leads hpd (fun _ _ p hp => absurd hp (he p)) hlead
    · exact hrun.isFile (fun p hp => absurd hp (he p)) hu hfile
  · have hstay : ((copyOne b bundled dest (root / dest)).on d).2 = d :=
      copyOne_of_not_grounded hld hg hd d rfl
    rw [hstay]
    exact ⟨hs, Or.inr hg, hfile⟩

/-! ## The whole bundle -/

theorem isName_destination (h : isClean bundled = true) :
    ∀ s ∈ splitSlash (Inventory.destination bundled), isName s = true := by
  rcases Inventory.destination_cases bundled with ⟨-, hd⟩ | hd
  · rw [hd]
    decide
  · rw [hd]
    exact isName_of_isClean h

/-- The names that a bundle lists. -/
def listed (b : Bundle) (d : Disk) : List String :=
  match (b.files.on d).1 with
  | .ok names => names
  | .error _ => []

theorem files_stays (b : Bundle) (d : Disk) : (b.files.on d).2 = d :=
  Bundle.keeps_files (P := (· = d)) d rfl

/-- What the installation of each listed file keeps, that of the bundle keeps. -/
theorem run_keeps {P : Disk → Prop} {m : Manifest}
    (h : ∀ name ∈ listed b d, ∀ r, Keeps P (installOne b m root r name)) (hd : P d) :
    P ((run b m root).on d).2 := by
  unfold run
  have hstay := files_stays b d
  rcases hfiles : b.files.on d with ⟨r, d₁⟩
  rw [hfiles] at hstay
  change d₁ = d at hstay
  subst hstay
  cases r with
  | error e =>
    rw [on_bind_error hfiles]
    exact hd
  | ok names =>
    have hlisted : listed b d₁ = names := by rw [listed, hfiles]
    rw [hlisted] at h
    rw [on_bind_ok hfiles]
    exact Keeps.foldlM (fun r name hmem => h name hmem r) _ d₁ hd

/-- Where a bundle of clean names rewrites a file, it is no file of the user that was there. -/
theorem steps_run (hp : d.top.isPlain = true) (hn : root.Named) (hroot : Rooted d root)
    (hclean : ∀ name ∈ listed b d, isClean name = true)
    (hm : ∀ p, allow .make p) (ht : ∀ p, allow .touch p) (hc : ∀ p, allow .create p)
    (he : ∀ p, ¬ allow .erase p) (hu : ¬ allow .unlink q)
    (hr : ∀ name ∈ listed b d, (spot d root (Inventory.destination name) = q →
        Inventory.isUserOwned (Inventory.destination name) = false) →
      allow .rewrite (spot d root (Inventory.destination name)))
    (hq : ∃ c m t, d.top.at? q = some (.file c m t)) :
    Steps allow d ((run b .curated root).on d).2 := by
  have hrun := run_keeps (m := .curated) (fun name hmem r => keeps_installOne_curated (r := r) hp hn
    (isName_destination (hclean name hmem)) hm ht hc he hu (hr name hmem)) ⟨.refl _, hroot, hq⟩
  exact hrun.1

/-- Edits of an installation: directories are made, and files put at their destinations. -/
def Lays (d : Disk) (root : Path) (names : List String) (e : Edit) (p : List String) : Prop :=
  (e = .make ∨ e = .touch) ∨
    (e = .create ∨ e = .rewrite) ∧ ∃ name ∈ names, p = spot d root (Inventory.destination name)

theorem steps_lays {m : Manifest} (hp : d.top.isPlain = true) (hn : root.Named)
    (hclean : ∀ name ∈ listed b d, isClean name = true) :
    Steps (Lays d root (listed b d)) d ((run b m root).on d).2 := by
  refine run_keeps (fun name hmem r => keeps_installOne fun a ha _ => ?_) (.refl _)
  have hput : ∀ e, e = .create ∨ e = .rewrite →
      Lays d root (listed b d) e (spot d root (Inventory.destination name)) :=
    fun e he => Or.inr ⟨he, name, hmem, rfl⟩
  exact keeps_copyOne hp hn (isName_destination (hclean name hmem)) (fun _ _ => Or.inl (Or.inl rfl))
    (Or.inl (Or.inr rfl)) (hput _ (Or.inl rfl)) (fun _ => hput _ (Or.inr rfl)) a ha

/-! ## Outcomes -/

/-- A file is kept, copied or fails to be copied, and the report says which. -/
theorem installOne_cases (b : Bundle) (m : Manifest) (root : Path) (r : Report) (bundled : String) (d : Disk) :
    let dest := Inventory.destination bundled
    (keeps m bundled dest (d.isThere (root / dest)) = true ∧
      (installOne b m root r bundled).on d = (.ok { r with kept := r.kept ++ [dest] }, d)) ∨
    (keeps m bundled dest (d.isThere (root / dest)) = false ∧
      ((∃ d', (copyOne b bundled dest (root / dest)).on d = (.ok (), d') ∧
        (installOne b m root r bundled).on d = (.ok { r with copied := r.copied ++ [dest] }, d')) ∨
      ∃ e d', (copyOne b bundled dest (root / dest)).on d = (.error e, d') ∧
        (installOne b m root r bundled).on d = (.ok { r with failed := r.failed ++ [(dest, e)] }, d'))) := by
  intro dest
  unfold installOne
  rw [on_bind_ask]
  cases hkeep : keeps m bundled dest (d.isThere (root / dest)) with
  | true =>
    left
    rw [if_pos rfl]
    exact ⟨rfl, rfl⟩
  | false =>
    right
    rw [if_neg Bool.false_ne_true, on_bind_attempt]
    rcases hcopy : (copyOne b bundled dest (root / dest)).on d with ⟨e | u, d'⟩
    · exact ⟨rfl, Or.inr ⟨e, d', rfl, rfl⟩⟩
    · exact ⟨rfl, Or.inl ⟨d', rfl, rfl⟩⟩

theorem installOne_ok (b : Bundle) (m : Manifest) (root : Path) (r : Report) (bundled : String) (d : Disk) :
    ∃ r' d', (installOne b m root r bundled).on d = (.ok r', d') := by
  rcases installOne_cases b m root r bundled d with ⟨-, h⟩ | ⟨-, ⟨d', -, h⟩ | ⟨e, d', -, h⟩⟩
  · exact ⟨_, _, h⟩
  · exact ⟨_, _, h⟩
  · exact ⟨_, _, h⟩

theorem installAll_ok (b : Bundle) (m : Manifest) (root : Path) (names : List String) (r : Report) (d : Disk) :
    ∃ r' d', (names.foldlM (installOne b m root) r).on d = (.ok r', d') := by
  induction names generalizing r d with
  | nil => exact ⟨r, d, rfl⟩
  | cons name names ih =>
    obtain ⟨r₁, d₁, h₁⟩ := installOne_ok b m root r name d
    rw [List.foldlM_cons, on_bind_ok h₁]
    exact ih r₁ d₁

/-- An installation fails only where the bundle cannot be listed, and then it does nothing. -/
theorem run_cases (b : Bundle) (m : Manifest) (root : Path) (d : Disk) :
    (∃ e, b.files.on d = (.error e, d) ∧ (run b m root).on d = (.error e, d)) ∨
      ∃ r d', b.files.on d = (.ok (listed b d), d) ∧
        ((listed b d).foldlM (installOne b m root) ⟨[], [], []⟩).on d = (.ok r, d') ∧
        (run b m root).on d = (.ok r, d') := by
  have hstay : (b.files.on d).2 = d := files_stays b d
  unfold run listed
  rcases hlist : b.files.on d with ⟨e | names, d₁⟩
  · rw [hlist] at hstay
    obtain rfl : d₁ = d := hstay
    exact Or.inl ⟨e, rfl, on_bind_error hlist⟩
  · rw [hlist] at hstay
    obtain rfl : d₁ = d := hstay
    obtain ⟨r, d', hrun⟩ := installAll_ok b m root names ⟨[], [], []⟩ d₁
    exact Or.inr ⟨r, d', rfl, hrun, (on_bind_ok hlist).trans hrun⟩

/-! ## Retired files -/

theorem removeFiles_idle {ps : List (String × Path)} (h : ∀ p ∈ ps, d.isFile p.2 = false) :
    (removeFiles ps).on d = (.ok [], d) := by
  induction ps with
  | nil => rfl
  | cons p ps ih =>
    obtain ⟨hp, hps⟩ := List.forall_mem_cons.mp h
    rw [removeFiles, on_bind_ask, hp, if_neg Bool.false_ne_true]
    exact ih hps

/-- Where no retired file is, none is removed. -/
theorem removeRetired_idle (h : ∀ text ∈ Inventory.retired, d.isFile (root / text) = false) :
    (removeRetired root).on d = (.ok [], d) := by
  refine removeFiles_idle fun p hp => ?_
  obtain ⟨text, htext, rfl⟩ := List.mem_map.mp hp
  exact h text htext

theorem keeps_removeFiles {ps : List (String × Path)} (hp : d₀.top.isPlain = true)
    (hu : ∀ p ∈ ps, d₀.Admits p.2 → allow .unlink (d₀.place p.2)) : Keeps (Steps allow d₀) (removeFiles ps) := by
  induction ps with
  | nil => exact Keeps.pure _
  | cons p ps ih =>
    obtain ⟨hu, hus⟩ := List.forall_mem_cons.mp hu
    exact (Keeps.ask _).bind fun _ => Keeps.ite
      ((keeps_removeFile hp hu).bind fun _ => (ih hus).bind fun _ => Keeps.pure _) (ih hus)

theorem keeps_removeRetired (hp : d₀.top.isPlain = true)
    (hu : ∀ text ∈ Inventory.retired, d₀.Admits (root / text) → allow .unlink (spot d₀ root text)) :
    Keeps (Steps allow d₀) (removeRetired root) := by
  refine keeps_removeFiles hp fun p hmem => ?_
  obtain ⟨text, htext, rfl⟩ := List.mem_map.mp hmem
  have hname : ∀ text ∈ Inventory.retired, ∀ s ∈ splitSlash text, isName s = true := by decide
  rw [place_div (hname text htext)]
  exact hu text htext

end Install

end Outfitter
