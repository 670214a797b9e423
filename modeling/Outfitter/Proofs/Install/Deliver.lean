import Outfitter.Proofs.Disk.Below
import Outfitter.Proofs.Install.Account

/-! # Installation at free places

Where nothing is at the destinations of some files, nothing but directories on the way to them, and
no destination lies below another, each file is copied, none is kept and none fails. Links may lie
elsewhere in the tree. What was there before stays as it was.
-/

namespace Outfitter.Install

open Disk Action Files

variable {b : Bundle} {root target : Path} {d a : Disk} {bundled dest name last : String} {names done rest : List String}
  {place dst dirs rel : List String} {c : ByteArray}

/-- The names that lead from a project to where a bundled file goes. -/
def landing (bundled : String) : List String := splitSlash (Inventory.destination bundled)

/-! ## One file -/

/-- One file is new at a place, with directories on the way to it. -/
structure Places (place : List String) (c : ByteArray) (mode : Nat) (a a' : Disk) : Prop where
  develops : Develops a a'
  there : ∃ t, a'.top.at? place = some (.file c mode t)
  elsewhere : ∀ q, q ≠ place →
    a'.top.shape? q = a.top.shape? q ∨ q <+: place ∧ a.top.shape? q = none ∧ a'.top.shape? q = some .dir

theorem replace_free (hr : Reaches a root place) (hf : Fits (dirs ++ [last]))
    (ht : takes (root.join ⟨dirs ++ [last]⟩) = true) (hfree : Free a place dirs)
    (hnone : a.top.at? (place ++ (dirs ++ [last])) = none) (c : ByteArray) :
    ∃ a', (Files.replace (root.join ⟨dirs ++ [last]⟩) c).on a = (.ok (), a') ∧
      Entry a' (root.join ⟨dirs ++ [last]⟩) (place ++ dirs) last ∧
      Places (place ++ (dirs ++ [last])) c defaultMode a a' := by
  obtain ⟨a₁, hmake, hpaves, entry⟩ := makeParents_below hr hf ht hfree
  rw [← List.append_assoc] at hnone ⊢
  have hnone₁ : a₁.top.at? (place ++ dirs ++ [last]) = none := by
    rw [hpaves.aside _ fun hpre => absurd hpre.length_le (by simp), hnone]
  have hloose := Node.loose_of_none hnone₁
  obtain ⟨a₂, -, ⟨hdir, -⟩ | ⟨-, hreplace⟩⟩ := entry.replace c
  · exact absurd hdir hloose.1
  obtain ⟨-, hdiffers, hfile⟩ := entry.replaced hreplace
  refine ⟨_, ?_, entry.agrees (hdiffers.agrees hloose (Node.loose_of_file hfile)), ?_⟩
  · rw [on_replace_ok hmake, hreplace]
    rfl
  · refine ⟨hpaves.widens.develops.trans (.of_differs hdiffers hloose hfile), ⟨_, hfile⟩, fun q hq => ?_⟩
    rw [hdiffers.elsewhere q hq]
    by_cases hpre : q <+: place ++ dirs
    · exact (hpaves.onWay q hpre).imp_right fun hnew => ⟨hpre.trans (List.prefix_append _ _), hnew⟩
    · rw [Node.shape?, Node.shape?, hpaves.aside q hpre]
      exact Or.inl rfl

theorem Places.changeMode {p : Path} {above : List String} {a₁ : Disk} {mode : Nat} (h : Places (above ++ [name]) c mode a a₁)
    (e : Entry a₁ p above name) (f : Nat → Nat) :
    ∃ a', a₁.changeMode p f = .ok a' ∧ Places (above ++ [name]) c (f mode) a a' := by
  obtain ⟨t, hfile⟩ := h.there
  have hfind : a₁.find p = .ok (above ++ [name], .file c mode t) := find_ok_iff.mpr (e.locate_there hfile (by simp))
  obtain ⟨hdiffers, hnew⟩ : Differs (above ++ [name]) a₁ (a₁.update (above ++ [name]) fun _ => .file c (f mode) t) ∧ _ :=
    differs_update hfile
  refine ⟨_, changeMode_of_find hfind f, h.develops.trans (.of_differs hdiffers (Node.loose_of_file hfile) hnew),
    ⟨t, hnew⟩, fun q hq => ?_⟩
  rw [hdiffers.elsewhere q hq]
  exact h.elsewhere q hq

/-- A file is copied to a place that is free, with the mode of its kind. -/
theorem copyOne_free (hread : (b.read bundled).on a = (.ok c, a)) (hr : Reaches a root place)
    (hdest : splitSlash dest = dirs ++ [last]) (hf : Fits (dirs ++ [last])) (ht : takes (root / dest) = true)
    (hfree : Free a place dirs) (hnone : a.top.at? (place ++ (dirs ++ [last])) = none) :
    ∃ a', (copyOne b bundled dest (root / dest)).on a = (.ok (), a') ∧
      Places (place ++ (dirs ++ [last])) c (modeOf dest) a a' := by
  have hpath : root / dest = root.join ⟨dirs ++ [last]⟩ := congrArg (fun segs => root.join ⟨segs⟩) hdest
  rw [hpath] at ht ⊢
  obtain ⟨a₁, hreplace, entry, hplaces⟩ := replace_free hr hf ht hfree hnone c
  rw [copyOne, on_bind_ok hread, on_bind_ok hreplace, modeOf]
  split
  · rw [← List.append_assoc] at hplaces ⊢
    obtain ⟨a₂, hchange, hplaces⟩ := hplaces.changeMode entry (· ||| 0o111)
    exact ⟨a₂, on_change_ok hchange, hplaces⟩
  · exact ⟨a₁, rfl, hplaces⟩

/-! ## The whole bundle -/

/-- A directory holds files that may be read and whose destinations are free. -/
structure Stock (d : Disk) (target root : Path) (dst place : List String) (names : List String) : Prop where
  bundle : Reaches d target dst
  project : Reaches d root place
  file : ∀ name ∈ names, Fits (splitSlash name) ∧ takes (target / name) = true ∧
    ∃ c mode t, isReadable mode = true ∧ d.top.at? (dst ++ splitSlash name) = some (.file c mode t)
  limits : ∀ name ∈ names, Fits (landing name) ∧ takes (root / Inventory.destination name) = true
  vacant : ∀ name ∈ names, d.top.at? (place ++ landing name) = none
  free : ∀ name ∈ names, Free d place (landing name)
  separate : ∀ name ∈ names, ∀ other ∈ names, landing name <+: landing other → name = other

/-- Some of the files are at their destinations, and nothing else is new but directories around them. -/
structure Supplied (d : Disk) (dst place : List String) (done : List String) (a : Disk) : Prop where
  develops : Develops d a
  there : ∀ name ∈ done, ∀ c mode t, d.top.at? (dst ++ splitSlash name) = some (.file c mode t) →
    ∃ t', a.top.at? (place ++ landing name) = some (.file c (modeOf (Inventory.destination name)) t')
  elsewhere : ∀ q, (∀ name ∈ done, q ≠ place ++ landing name) → a.top.shape? q = d.top.shape? q ∨
    (∃ name ∈ done, q <+: place ++ landing name) ∧ d.top.shape? q = none ∧ a.top.shape? q = some .dir

theorem supplied_nil (d : Disk) (dst place : List String) : Supplied d dst place [] d :=
  ⟨.refl d, by simp, fun _ _ => Or.inl rfl⟩

namespace Supplied

/-- A file is where one was put, or was there. -/
theorem file_cases {mode : Nat} {t : Stamp} {q : List String} (h : Supplied d dst place done a)
    (hat : a.top.at? q = some (.file c mode t)) :
    (∃ name ∈ done, q = place ++ landing name) ∨ d.top.at? q = some (.file c mode t) := by
  by_cases hq : ∃ name ∈ done, q = place ++ landing name
  · exact Or.inl hq
  · rw [← Node.shape?_eq_file] at hat ⊢
    rcases h.elsewhere q fun name hname heq => hq ⟨name, hname, heq⟩ with hsame | ⟨-, -, hdir⟩
    · exact Or.inr (hsame ▸ hat)
    · rw [hdir] at hat
      cases hat

variable (s : Stock d target root dst place names) (h : Supplied d dst place done a) (hdone : ∀ name ∈ done, name ∈ names)
include s h hdone

/-- The files of the bundle stay as they are. -/
theorem file_stays {mode : Nat} {t : Stamp} {q : List String} (hat : d.top.at? q = some (.file c mode t)) :
    a.top.at? q = some (.file c mode t) := by
  have hne : ∀ name ∈ done, q ≠ place ++ landing name := by
    rintro name hname rfl
    rw [s.vacant name (hdone name hname)] at hat
    cases hat
  rw [← Node.shape?_eq_file] at hat ⊢
  rcases h.elsewhere q hne with hsame | ⟨-, hnone, -⟩
  · rw [hsame, hat]
  · rw [hnone] at hat
    cases hat

/-- A destination is as free as it was until its file comes. -/
theorem still_free (hname : name ∈ names) (hnew : name ∉ done) :
    a.top.at? (place ++ landing name) = none ∧ Free a place (landing name) := by
  have hnot (other : String) (hother : other ∈ done) (hcmp : landing name <+: landing other ∨ landing other <+: landing name) :
      False := by
    apply hnew
    rcases hcmp with hpre | hpre
    · rwa [s.separate name hname other (hdone other hother) hpre]
    · rwa [← s.separate other (hdone other hother) name hname hpre]
  have hshape (pre : List String) (hpre : pre <+: landing name) : a.top.shape? (place ++ pre) = d.top.shape? (place ++ pre) ∨
      (∃ other ∈ done, place ++ pre <+: place ++ landing other) ∧ d.top.shape? (place ++ pre) = none ∧
        a.top.shape? (place ++ pre) = some .dir := by
    refine h.elsewhere _ fun other hother heq => hnot other hother (Or.inr ?_)
    exact (List.append_cancel_left heq) ▸ hpre
  constructor
  · rcases hshape _ (List.prefix_refl _) with hsame | ⟨⟨other, hother, hpre⟩, -⟩
    · rw [Node.shape?, Node.shape?, s.vacant name hname] at hsame
      exact Option.map_eq_none_iff.mp hsame
    · exact (hnot other hother (Or.inl ((List.prefix_append_right_inj place).mp hpre))).elim
  · intro pre hpre
    rcases hshape pre hpre with hsame | ⟨-, -, hdir⟩
    · rw [hsame]
      exact s.free name hname pre hpre
    · exact Or.inr hdir

theorem isThere_false (hname : name ∈ names) (hnew : name ∉ done) :
    a.isThere (root / Inventory.destination name) = false := by
  obtain ⟨hnone, hfree⟩ := h.still_free s hdone hname hnew
  have hlinks (pre : List String) (link : Path) (hpre : pre <+: landing name) :
      a.top.at? (place ++ pre) ≠ some (.link link) := by
    intro hat
    have hshape := Node.shape?_eq_link.mpr hat
    rcases hfree pre hpre with heq | heq <;> cases hshape.symm.trans heq
  obtain ⟨fault, hfind⟩ := (h.develops.reaches s.project).find_missing (s.limits name hname).1 (Path.splitSlash_ne_nil _)
    hlinks hnone
  rw [Disk.isThere, show root / Inventory.destination name = root.join ⟨landing name⟩ from rfl, hfind]
  rfl

theorem read_file {mode : Nat} {t : Stamp} (hname : name ∈ names) (hr : isReadable mode = true)
    (hat : d.top.at? (dst ++ splitSlash name) = some (.file c mode t)) :
    ((Bundle.dir target).read name).on a = (.ok c, a) := by
  obtain ⟨hfits, htakes, -⟩ := s.file name hname
  have hfind : a.find (target / name) = .ok (dst ++ splitSlash name, .file c mode t) :=
    (h.develops.reaches s.bundle).find_below hfits.names (Path.splitSlash_ne_nil _) hfits.sizes
      (h.file_stays s hdone hat) (by simp) htakes
  have hfile : a.isFile (target / name) = true := by rw [Disk.isFile, hfind]; rfl
  have hread : a.readBytes (target / name) = .ok c := by rw [Disk.readBytes, hfind]; exact if_pos hr
  rw [Bundle.read, on_bind_ask, if_pos hfile, on_fetch_ok hread]

/-- One file more. -/
theorem step (hname : name ∈ names) (hnew : name ∉ done) (r : Report) :
    ∃ a', (installOne (.dir target) .curated root r name).on a =
        (.ok { r with copied := r.copied ++ [Inventory.destination name] }, a') ∧
      Supplied d dst place (done ++ [name]) a' := by
  obtain ⟨-, -, c, mode, t, hreadable, hat⟩ := s.file name hname
  obtain ⟨hfits, htakes⟩ := s.limits name hname
  obtain ⟨hnone, hfree⟩ := h.still_free s hdone hname hnew
  obtain ⟨dirs, last, hsplit⟩ : ∃ dirs last, landing name = dirs ++ [last] :=
    ⟨_, _, (List.dropLast_append_getLast (Path.splitSlash_ne_nil _)).symm⟩
  have hread := h.read_file s hdone hname hreadable hat
  rw [hsplit] at hfits hnone hfree
  obtain ⟨a', hcopy, hplaces⟩ := copyOne_free hread (h.develops.reaches s.project) hsplit hfits htakes
    (fun pre hpre => hfree pre (hpre.trans (List.prefix_append _ _))) hnone
  rw [← hsplit] at hplaces
  have hkeeps : keeps .curated name (Inventory.destination name) false = false := by
    unfold keeps
    cases hpolicy : Manifest.curated.policy? name with
    | none => rfl
    | some policy =>
      rw [policy?_curated hpolicy]
  refine ⟨a', ?_, h.develops.trans hplaces.develops, ?_, ?_⟩
  · rw [installOne, on_bind_ask, h.isThere_false s hdone hname hnew, hkeeps, if_neg Bool.false_ne_true, on_bind_attempt,
      hcopy]
    rfl
  · intro other hother c' mode' t' hat'
    rcases List.mem_append.mp hother with hmem | hmem
    · obtain ⟨t'', hthere⟩ := h.there other hmem c' mode' t' hat'
      have hne : place ++ landing other ≠ place ++ landing name := by
        intro heq
        have heq := s.separate other (hdone other hmem) name hname (List.append_cancel_left heq ▸ List.prefix_refl _)
        exact hnew (heq ▸ hmem)
      refine ⟨t'', ?_⟩
      rw [← Node.shape?_eq_file] at hthere ⊢
      rcases hplaces.elsewhere _ hne with hsame | ⟨-, habsent, -⟩
      · rw [hsame, hthere]
      · rw [habsent] at hthere
        cases hthere
    · cases List.mem_singleton.mp hmem
      cases hat.symm.trans hat'
      exact hplaces.there
  · intro q hq
    have hold := h.elsewhere q fun other hother => hq other (List.mem_append_left _ hother)
    have hlast : name ∈ done ++ [name] := List.mem_append_right _ (List.mem_singleton_self _)
    rcases hplaces.elsewhere q (hq name hlast) with hsame | ⟨hpre, habsent, hdir⟩
    · rw [hsame]
      exact hold.imp_right fun ⟨⟨other, hother, hpre⟩, hnew⟩ => ⟨⟨other, List.mem_append_left _ hother, hpre⟩, hnew⟩
    · rcases hold with hsame | ⟨-, -, hmade⟩
      · exact Or.inr ⟨⟨name, hlast, hpre⟩, hsame ▸ habsent, hdir⟩
      · rw [hmade] at habsent
        cases habsent

end Supplied

/-- All files are copied, in their order. -/
theorem Supplied.all (s : Stock d target root dst place (done ++ rest)) (h : Supplied d dst place done a)
    (hnodup : (done ++ rest).Nodup) :
    ∃ a', (rest.foldlM (installOne (.dir target) .curated root) ⟨done.map Inventory.destination, [], []⟩).on a =
        (.ok ⟨(done ++ rest).map Inventory.destination, [], []⟩, a') ∧
      Supplied d dst place (done ++ rest) a' := by
  induction rest generalizing done a with
  | nil =>
    rw [List.append_nil]
    exact ⟨a, rfl, h⟩
  | cons name rest ih =>
    have hnew : name ∉ done := fun hmem => (List.nodup_append.mp hnodup).2.2 name hmem name List.mem_cons_self rfl
    obtain ⟨a₁, hone, h₁⟩ := h.step s (fun other hother => List.mem_append_left _ hother)
      (List.mem_append_right _ List.mem_cons_self) hnew ⟨done.map Inventory.destination, [], []⟩
    rw [List.append_cons] at s hnodup ⊢
    obtain ⟨a₂, hrest, h₂⟩ := ih s h₁ hnodup
    refine ⟨a₂, ?_, h₂⟩
    rw [List.foldlM_cons, on_bind_ok hone, ← hrest, List.map_append]
    rfl

/-- A bundle is installed as a whole where its destinations are free. -/
theorem run_supplies (s : Stock d target root dst place names) (hfiles : (Bundle.dir target).files.on d = (.ok names, d))
    (hnodup : names.Nodup) :
    ∃ a, (run (.dir target) .curated root).on d = (.ok ⟨names.map Inventory.destination, [], []⟩, a) ∧
      Supplied d dst place names a := by
  obtain ⟨a, hrun, h⟩ := (supplied_nil d dst place).all s hnodup
  exact ⟨a, by rw [run, on_bind_ok hfiles]; exact hrun, h⟩

end Outfitter.Install
