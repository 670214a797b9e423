import Outfitter.Proofs.Directories
import Outfitter.Proofs.Disk.Links

/-! # Files that are replaced

A file can be replaced exactly if the system takes its path, each directory on the way is there
or can be made, and no directory stands in its place. A replacement that fails makes directories
and touches them, no more.
-/

namespace Outfitter

namespace Disk

open Files

variable {d d' : Disk} {p : Path} {bytes : ByteArray} {ys : List String}

/-- All directories on the way to a path are there. -/
def Ways (d : Disk) (p : Path) : Prop :=
  ∀ ys, ys <+: (d.trail p).dropLast → d.top.shape? (climb [] ys).reverse = some .dir

theorem trail_ne_nil (hne : p.steps ≠ []) : d.trail p ≠ [] :=
  List.append_ne_nil_of_right_ne_nil _ hne

theorem trail_eq_concat (hne : p.steps ≠ []) :
    d.trail p = (d.trail p).dropLast ++ [(d.trail p).getLast (trail_ne_nil hne)] :=
  (List.dropLast_append_getLast _).symm

/-- A part of the way is all of it, or ends before the last name. -/
theorem prefix_trail (hne : p.steps ≠ []) (h : ys <+: d.trail p) :
    ys = d.trail p ∨ ys <+: (d.trail p).dropLast := by
  rw [trail_eq_concat hne, List.prefix_concat_iff] at h
  rwa [← trail_eq_concat hne] at h

theorem ways_of_locate {follow : Bool} {spot : Spot} (hl : d.top.LinkFree) (hne : p.steps ≠ [])
    (h : d.locate follow p = .ok spot) : d.Ways p := by
  intro ys hys
  refine dirs_of_locate hl h ys (hys.trans (List.dropLast_prefix _)) ?_
  rintro rfl
  have hlen := hys.length_le
  have hpos := List.length_pos_iff.mpr (trail_ne_nil (d := d) hne)
  rw [List.length_dropLast] at hlen
  omega

theorem admits_beside {dir : Path} (hne : p.steps ≠ []) (ha : d.Admits p)
    (hdir : dir = p.parent?.getD (Path.ofText ".")) :
    d.Admits (if dir.isEmpty then Path.ofText "." else dir) := by
  refine ⟨?_, fun s hs => ha.2 s ?_⟩
  · obtain ⟨q, hq⟩ := Path.exists_parent? (Path.names_ne_nil_of_steps hne)
    rw [hq, Option.getD_some] at hdir
    subst hdir
    split
    · decide
    · next he => exact takes_parent ha.1 hq (Bool.eq_false_iff.mpr he)
  · rw [trail_beside hne hdir] at hs
    exact (List.dropLast_prefix _).subset hs

/-- The directory beside which the file is replaced is there. -/
theorem Ways.find_beside {dir : Path} (hl : d.top.LinkFree) (hne : p.steps ≠ []) (ha : d.Admits p)
    (hw : d.Ways p) (hdir : dir = p.parent?.getD (Path.ofText ".")) :
    ∃ t es, d.find (if dir.isEmpty then Path.ofText "." else dir) =
      .ok ((climb [] (d.trail p).dropLast).reverse, .dir t es) := by
  have hadm := admits_beside hne ha hdir
  have ht := trail_beside (d := d) hne hdir
  have hlead : d.Leads (if dir.isEmpty then Path.ofText "." else dir) :=
    (leads_iff hl).mpr ⟨hadm.2, by rw [ht]; exact hw⟩
  obtain ⟨t, es, hloc⟩ := locate_of_leads hl hadm hlead
  rw [place, ht] at hloc
  exact ⟨t, es, find_ok_iff.mpr hloc⟩

/-- Past directories that are there, a path leads to a file or to a vacant name. -/
theorem Ways.find {c : ByteArray} {mode : Nat} {t : Stamp} (hl : d.top.LinkFree) (hne : p.steps ≠ [])
    (hi : p.endsIdle = false) (ha : d.Admits p) (hw : d.Ways p)
    (hat : d.top.at? (d.place p) = some (.file c mode t)) : d.find p = .ok (d.place p, .file c mode t) := by
  refine find_ok_iff.mpr (locate_of_dirs hl ha ?_ hat ?_)
  · exact fun ys hys hlast => hw ys ((prefix_trail hne hys).resolve_left hlast)
  · simp [hi, hne]

theorem Ways.locate (hl : d.top.LinkFree) (hne : p.steps ≠ []) (hi : p.endsIdle = false)
    (ha : d.Admits p) (hw : d.Ways p) (hd : d.top.shape? (d.place p) ≠ some .dir) :
    (∃ c mode t, d.locate false p = .ok (.there (d.place p) (.file c mode t))) ∨
      ∃ above name, d.locate false p = .ok (.vacant above name) := by
  cases hat : d.top.at? (d.place p) with
  | some n =>
    have hloc : d.locate false p = .ok (.there (d.place p) n) := by
      refine locate_of_dirs hl ha (fun ys hys hne' => ?_) hat (by simp [hi, hne])
      exact hw ys ((prefix_trail hne hys).resolve_left hne')
    cases n with
    | file c mode t => exact Or.inl ⟨c, mode, t, hloc⟩
    | link target => exact absurd hat (hl _ _)
    | dir t es => exact absurd (Node.shape?_eq_dir.mpr ⟨t, es, hat⟩) hd
  | none =>
    have ht := trail_beside (d := d) hne rfl
    have hlead : d.Leads (if (p.parent?.getD (Path.ofText ".")).isEmpty then Path.ofText "."
        else p.parent?.getD (Path.ofText ".")) :=
      (leads_iff hl).mpr ⟨(admits_beside hne ha rfl).2, by rw [ht]; exact hw⟩
    have hclear : d.Clear (d.trail p) := by
      intro ys hys
      rcases prefix_trail hne hys with rfl | hys
      · right
        rw [Node.shape?, ← place, hat]
        rfl
      · exact Or.inl (hw ys hys)
    have hnext := locate_next hl hne (Path.endsDotted_of_endsIdle hi) hlead (by rw [ht]; exact trail_eq_concat hne) ha hclear
    rcases hnext with ⟨place, t, es, hloc⟩ | hvacant
    · obtain ⟨rfl, hat'⟩ := locate_there hl hloc
      rw [hat] at hat'
      cases hat'
    · exact Or.inr hvacant

theorem replace_of_ways (hp : d.top.isPlain = true) (hne : p.steps ≠ []) (hi : p.endsIdle = false)
    (ha : d.Admits p) (hw : d.Ways p) (hd : d.top.shape? (d.place p) ≠ some .dir) :
    ∃ d', d.replace p bytes = (.ok (), d') := by
  have hl := Node.linkFree_of_isPlain hp
  obtain ⟨t, es, hfind⟩ := hw.find_beside hl hne ha rfl
  obtain ⟨-, hat⟩ := find_ok hl hfind
  simp only [replace, hfind]
  generalize htouch : d.update _ _ = a
  have hs : Steps (fun e _ => e = .touch) d a := by
    rw [← htouch]
    exact steps_update hp hat rfl ⟨_, _, _, rfl, rfl⟩
  have hshape : ∀ q, a.top.shape? q = d.top.shape? q := by
    rw [← htouch]
    exact shape?_touch hat ⟨_, rfl⟩
  have hwa : a.Ways p := by
    intro ys hys
    rw [hs.trail_eq] at hys
    rw [hshape]
    exact hw ys hys
  have hda : a.top.shape? (a.place p) ≠ some .dir := by
    rw [hs.place_eq, hshape]
    exact hd
  have hla := Node.linkFree_of_isPlain (hs.isPlain hp)
  rcases hwa.locate hla hne hi (hs.admits_iff.mpr ha) hda with ⟨c, mode, s, hloc⟩ | ⟨above, name, hloc⟩
  · simp only [hloc]
    exact ⟨_, rfl⟩
  · simp only [hloc, hi]
    exact ⟨_, rfl⟩

/-- What a replacement found and what it left, whatever its outcome. -/
theorem replace_cases (hp : d.top.isPlain = true) (hne : p.steps ≠ []) (bytes : ByteArray) :
    ((d.replace p bytes).1 = .ok () ∧ d.Admits p ∧ d.Ways p ∧ p.endsIdle = false ∧
        d.top.shape? (d.place p) ≠ some .dir ∧
        (d.replace p bytes).2.top.at? (d.place p) = some (.file bytes defaultMode d.now)) ∨
      ∃ e, (d.replace p bytes).1 = .error e ∧
        ∀ q, (d.replace p bytes).2.top.shape? q = d.top.shape? q := by
  have hl := Node.linkFree_of_isPlain hp
  simp only [replace]
  split
  · next above t es hfind =>
    obtain ⟨rfl, hat⟩ := find_ok hl hfind
    generalize htouch : d.update _ _ = a
    have hs : Steps (fun e _ => e = .touch) d a := by
      rw [← htouch]
      exact steps_update hp hat rfl ⟨_, _, _, rfl, rfl⟩
    have hshape : ∀ q, a.top.shape? q = d.top.shape? q := by
      rw [← htouch]
      exact shape?_touch hat ⟨_, rfl⟩
    have hpa := hs.isPlain hp
    have hla := Node.linkFree_of_isPlain hpa
    have hways : ∀ {spot}, a.locate false p = .ok spot → d.Ways p := by
      intro spot hloc ys hys
      rw [← hshape]
      exact ways_of_locate hla hne hloc ys (by rw [hs.trail_eq]; exact hys)
    have hadmits : ∀ {spot}, a.locate false p = .ok spot → d.Admits p := fun hloc =>
      hs.admits_iff.mp (locate_admits hla hloc)
    split
    · exact Or.inr ⟨_, rfl, hshape⟩
    · next spot n hnd hloc =>
      obtain ⟨rfl, hat'⟩ := locate_there hla hloc
      cases n with
      | link target => exact absurd hat' (hla _ _)
      | dir t es => exact absurd rfl (hnd _ _)
      | file c mode s =>
        have hnil := locate_file_ne_nil hla hloc
        refine Or.inl ⟨rfl, hadmits hloc, hways hloc, endsIdle_of_file hloc, ?_, ?_⟩
        · rw [← hshape, ← hs.place_eq, Node.shape?_eq_file.mpr hat']
          simp
        · rw [← hs.place_eq]
          rcases exists_entry hpa hat' with he | ⟨above, name, t', es', he, -, hd, -⟩
          · exact absurd he hnil
          · rw [he]
            exact at?_put ⟨_, _, hd⟩ _
    · next dir name hloc =>
      obtain ⟨hpl, hv, -, -⟩ := locate_vacant hla hloc
      split
      · exact Or.inr ⟨_, rfl, hshape⟩
      · next hi =>
        refine Or.inl ⟨rfl, hadmits hloc, hways hloc, Bool.eq_false_iff.mpr hi, ?_, ?_⟩
        · rw [← hshape, ← hs.place_eq, ← hpl, (vacant_iff.mp hv).2]
          simp
        · rw [← hs.place_eq, ← hpl]
          obtain ⟨t', es', hdir, -⟩ := hv
          exact at?_put ⟨_, _, hdir⟩ _
    · exact Or.inr ⟨_, rfl, hshape⟩
  · exact Or.inr ⟨_, rfl, fun _ => rfl⟩
  · exact Or.inr ⟨_, rfl, fun _ => rfl⟩

end Disk

namespace Files

open Disk Action

variable {d d' : Disk} {p : Path} {bytes : ByteArray}

/-- Directories on the way to a path. -/
def OnWay (d : Disk) (p : Path) (q : List String) : Prop :=
  ∃ ys, ys <+: (d.trail p).dropLast ∧ (climb [] ys).reverse = q

/-- A file can be put at a path. -/
structure Open (d : Disk) (p : Path) : Prop where
  admits : d.Admits p
  grounded : Grounded d p
  clear : d.Clear (d.trail p).dropLast
  free : d.top.shape? (d.place p) ≠ some .dir
  apart : ¬ OnWay d p (d.place p)

theorem makeParents_of_clear (hp : d.top.isPlain = true) (hn : p.Named) (hne : p.steps ≠ [])
    (ha : d.Admits p) (hg : Grounded d p) (hc : d.Clear (d.trail p).dropLast) :
    ∃ d', (makeParents p).on d = (.ok (), d') ∧ d'.Ways p := by
  obtain ⟨q, hq⟩ := Path.exists_parent? (Path.names_ne_nil_of_steps hne)
  have ht : ∀ a : Disk, a.trail q = (a.trail p).dropLast := fun a => trail_parent hne hq
  simp only [makeParents, hq]
  cases he : q.isEmpty with
  | true =>
    obtain ⟨around, hanc⟩ := ancestorsUpTo_cons q.segments.length q
    refine ⟨d, ?_, fun ys hys => hg ys ?_⟩
    · obtain ⟨hbare, hsize⟩ := Path.isBare_of_isEmpty he
      rw [makeDirs, Path.ancestors, hanc, makeDirsFrom, hbare, hsize, if_pos (by decide)]
      rfl
    · rwa [← ht, trail, (Path.steps_of_isEmpty he).2, List.append_nil, base_parent hne hq] at hys
  | false =>
    have haq : d.Admits q :=
      ⟨takes_parent ha.1 hq he, fun s hs => ha.2 s ((List.dropLast_prefix _).subset (ht d ▸ hs))⟩
    have hgq : Grounded d q := by
      rw [Grounded, base_parent hne hq]
      exact hg
    obtain ⟨d', hrun, hlead⟩ := makeDirs_of_clear hp haq (hn.parent hq)
      (fun hs => Path.endsDotted_of_endsIdle (Path.endsIdle_parent? hq hs)) hgq (by rw [ht]; exact hc)
    have hs : Steps (fun e _ => e = .make) d d' := by
      have hk : Keeps (Steps (fun e _ => e = .make) d) (makeDirs q) :=
        keeps_makeDirs hp (hn.parent hq) fun _ _ => rfl
      have hd := hk d (.refl _)
      rwa [hrun] at hd
    refine ⟨d', hrun, fun ys hys => ?_⟩
    rw [← ht] at hys
    exact ((leads_iff (Node.linkFree_of_isPlain (hs.isPlain hp))).mp hlead).2 ys hys

theorem steps_makeParents (hp : d.top.isPlain = true) (hn : p.Named) (hne : p.steps ≠ []) :
    Steps (fun e q => e = .make ∧ OnWay d p q) d ((makeParents p).on d).2 := by
  obtain ⟨q, hq⟩ := Path.exists_parent? (Path.names_ne_nil_of_steps hne)
  simp only [makeParents, hq]
  refine keeps_makeDirs hp (hn.parent hq) (fun ys hys => ⟨rfl, ys, ?_, rfl⟩) d (.refl _)
  rwa [trail_parent hne hq] at hys

/-- Making the directories around a path leaves all else in its shape. -/
theorem shape?_makeParents (hp : d.top.isPlain = true) (hn : p.Named) (hne : p.steps ≠ []) (q : List String) :
    ((makeParents p).on d).2.top.shape? q = d.top.shape? q ∨
      OnWay d p q ∧ d.top.shape? q = none ∧ ((makeParents p).on d).2.top.shape? q = some .dir := by
  have hs := steps_makeParents hp hn hne
  refine (hs.made (fun e he => Or.inl he.1) ?_).imp_right fun ⟨he, hrest⟩ => ⟨he.2, hrest⟩
  rintro q ⟨he, -⟩
  cases he

theorem on_replace_ok {d₁ : Disk} (h : (makeParents p).on d = (.ok (), d₁)) :
    (replace p bytes).on d =
      ((d₁.replace p bytes).1.mapError Error.io, (d₁.replace p bytes).2) := by
  rw [replace, on_bind_ok h]
  rcases hd : d₁.replace p bytes with ⟨r, d₂⟩
  simp only [on, hd]
  cases r <;> rfl

/-- A file that was replaced took its place on the disk that its directories were made on. -/
theorem of_replace_ok (h : (replace p bytes).on d = (.ok (), d')) :
    ∃ d₁, (makeParents p).on d = (.ok (), d₁) ∧ d₁.replace p bytes = (.ok (), d') := by
  obtain ⟨u, d₁, hparents, -⟩ := of_on_bind_ok h
  refine ⟨d₁, hparents, ?_⟩
  rw [on_replace_ok hparents] at h
  rcases hd₁ : d₁.replace p bytes with ⟨e | u, d₂⟩
  · rw [hd₁] at h
    cases h
  · rw [hd₁] at h
    exact congrArg (Prod.mk _) (Prod.mk.inj h).2

theorem replace_of_open (hp : d.top.isPlain = true) (hn : p.Named) (hne : p.steps ≠ [])
    (hi : p.endsIdle = false) (ho : Open d p) : ∃ d', (replace p bytes).on d = (.ok (), d') := by
  obtain ⟨d₁, hrun, hw⟩ := makeParents_of_clear hp hn hne ho.admits ho.grounded ho.clear
  have hs := steps_makeParents hp hn hne
  have hshape := shape?_makeParents hp hn hne (d.place p)
  rw [hrun] at hs hshape
  have hfree : d₁.top.shape? (d₁.place p) ≠ some .dir := by
    rw [hs.place_eq]
    rcases hshape with hsame | ⟨hon, -⟩
    · rw [hsame]
      exact ho.free
    · exact absurd hon ho.apart
  obtain ⟨d', hd'⟩ : ∃ d', d₁.replace p bytes = (.ok (), d') :=
    replace_of_ways (hs.isPlain hp) hne hi (hs.admits_iff.mpr ho.admits) hw hfree
  refine ⟨d', ?_⟩
  rw [on_replace_ok hrun, hd']
  rfl

theorem ways_grounded (hne : p.steps ≠ []) (h : d.Ways p) : Grounded d p := by
  intro ys hys
  refine h ys (hys.trans ?_)
  rw [trail, List.dropLast_append_of_ne_nil hne]
  exact List.prefix_append _ _

/-- What can be said once a file was replaced. -/
theorem replace_ok (hp : d.top.isPlain = true) (hn : p.Named) (hne : p.steps ≠ [])
    (h : (replace p bytes).on d = (.ok (), d')) :
    Open d p ∧ p.endsIdle = false ∧ d'.top.at? (d.place p) = some (.file bytes defaultMode d.now) ∧
      ∀ q, OnWay d p q → d'.top.shape? q = some .dir := by
  rcases hrun : (makeParents p).on d with ⟨r, d₁⟩
  cases r with
  | error e =>
    rw [replace, on_bind_error hrun] at h
    cases h
  | ok u =>
    have hs := steps_makeParents hp hn hne
    have hshape := shape?_makeParents hp hn hne
    rw [hrun] at hs hshape
    rw [on_replace_ok hrun] at h
    rcases replace_cases (hs.isPlain hp) hne bytes with ⟨-, ha, hw, hi, hd, hat⟩ | ⟨e, he, -⟩
    · have hdirs : ∀ ys, ys <+: (d.trail p).dropLast → d₁.top.shape? (climb [] ys).reverse = some .dir := by
        intro ys hys
        rw [← hs.trail_eq] at hys
        exact hw ys hys
      rw [hs.place_eq] at hd hat
      have hs' : Steps (fun e _ => e ≠ .erase) d₁ (d₁.replace p bytes).2 :=
        replace_steps (hs.isPlain hp) hn hne (by simp) (by simp) (by simp)
      rw [← (Prod.mk.inj h).2]
      refine ⟨⟨hs.admits_iff.mp ha, ?_, fun ys hys => ?_, fun hdir => ?_, ?_⟩, hi, ?_, ?_⟩
      · by_contra hg
        have hstay := makeParents_of_not_grounded (Node.linkFree_of_isPlain hp) hne hg d rfl
        rw [hrun] at hstay
        exact hg (ways_grounded hne (hstay ▸ hw))
      · rcases hshape (climb [] ys).reverse with hsame | ⟨-, hnone, -⟩
        · exact Or.inl (hsame ▸ hdirs ys hys)
        · exact Or.inr hnone
      · rcases hshape (d.place p) with hsame | ⟨-, hnone, -⟩
        · exact hd (hsame.trans hdir)
        · rw [hnone] at hdir
          cases hdir
      · rintro ⟨ys, hys, he⟩
        exact hd (he ▸ hdirs ys hys)
      · rw [now, hs.clock_eq] at hat
        exact hat
      · rintro q ⟨ys, hys, rfl⟩
        exact hs'.dir (fun q hq => absurd rfl hq) (hdirs ys hys)
    · rw [he] at h
      cases h

theorem steps_replace (hp : d.top.isPlain = true) (hn : p.Named) (hne : p.steps ≠ []) (bytes : ByteArray) :
    Steps (fun e _ => e ≠ .erase) d ((replace p bytes).on d).2 :=
  keeps_replace hp hn hne (fun _ _ => by simp) (by simp) (by simp) (by simp) d (.refl _)

/-- A file that was replaced is found at its path. -/
theorem find_of_replace (hp : d.top.isPlain = true) (hn : p.Named) (hne : p.steps ≠ [])
    (h : (replace p bytes).on d = (.ok (), d')) :
    d'.find p = .ok (d.place p, .file bytes defaultMode d.now) := by
  obtain ⟨ho, hi, hat, hway⟩ := replace_ok hp hn hne h
  have hs : Steps (fun e _ => e ≠ .erase) d d' := by
    have hs := steps_replace hp hn hne bytes
    rwa [h] at hs
  rw [← hs.place_eq] at hat ⊢
  refine Ways.find (Node.linkFree_of_isPlain (hs.isPlain hp)) hne hi (hs.admits_iff.mpr ho.admits) ?_ hat
  intro ys hys
  rw [hs.trail_eq] at hys
  exact hway _ ⟨ys, hys, rfl⟩

/-- A replacement leaves other places in their shapes, and its own if it fails, but for
directories that are made. -/
theorem shape?_replace {q : List String} {r : Except Error Unit} (hp : d.top.isPlain = true) (hn : p.Named)
    (hne : p.steps ≠ []) (h : (replace p bytes).on d = (r, d')) (hq : q = d.place p → r.isOk = false) :
    d'.top.shape? q = d.top.shape? q ∨
      OnWay d p q ∧ d.top.shape? q = none ∧ d'.top.shape? q = some .dir := by
  have hshape := shape?_makeParents hp hn hne q
  have hs := steps_makeParents hp hn hne
  rcases hrun : (makeParents p).on d with ⟨r', d₁⟩
  rw [hrun] at hshape hs
  cases r' with
  | error e =>
    rw [replace, on_bind_error hrun] at h
    cases h
    exact hshape
  | ok u =>
    rw [on_replace_ok hrun] at h
    obtain ⟨hr, rfl⟩ := Prod.mk.inj h
    suffices hsame : (d₁.replace p bytes).2.top.shape? q = d₁.top.shape? q by
      rw [hsame]
      exact hshape
    rcases replace_cases (hs.isPlain hp) hne bytes with ⟨hok, -⟩ | ⟨e, -, hsame⟩
    · have hne' : q ≠ d₁.place p := by
        rintro rfl
        have hfail := hq (hs.place_eq p)
        rw [← hr, hok] at hfail
        cases hfail
      have hs' : Steps (fun e a => e = .touch ∨ (e = .create ∨ e = .rewrite) ∧ a = d₁.place p) d₁
          (d₁.replace p bytes).2 :=
        replace_steps (hs.isPlain hp) hn hne (Or.inl rfl) (Or.inr ⟨Or.inl rfl, rfl⟩)
          fun _ => Or.inr ⟨Or.inr rfl, rfl⟩
      refine (hs'.made (fun e he => ?_) ?_).resolve_right ?_
      · exact Or.inr (he.resolve_right fun h => hne' h.2)
      · rintro a (he | ⟨he | he, -⟩) <;> cases he
      · rintro ⟨he | ⟨he | he, -⟩, -⟩ <;> cases he
    · exact hsame q

/-- A path that leads to a file can be replaced. -/
theorem open_of_file (hp : d.top.isPlain = true) (hne : p.steps ≠ []) (hf : d.isFile p = true) :
    Open d p ∧ p.endsIdle = false ∧ d.Ways p ∧ ∃ c m t, d.top.at? (d.place p) = some (.file c m t) := by
  have hl := Node.linkFree_of_isPlain hp
  obtain ⟨place, c, mode, t, hloc⟩ : ∃ place c mode t, d.locate true p = .ok (.there place (.file c mode t)) := by
    rw [isFile] at hf
    split at hf
    · next place n hfind =>
      cases n with
      | file c mode t => exact ⟨place, c, mode, t, find_ok_iff.mp hfind⟩
      | link target => cases hf
      | dir t es => cases hf
    · cases hf
  obtain ⟨rfl, hat⟩ := locate_there hl hloc
  have hw := ways_of_locate hl hne hloc
  have hfree : d.top.shape? (d.place p) ≠ some .dir := by
    rw [Node.shape?_eq_file.mpr hat]
    simp
  refine ⟨⟨locate_admits hl hloc, ways_grounded hne hw, fun ys hys => Or.inl (hw ys hys), hfree, ?_⟩,
    endsIdle_of_file hloc, hw, c, mode, t, hat⟩
  rintro ⟨ys, hys, he⟩
  exact hfree (he ▸ hw ys hys)

/-- Edits that take away neither a file nor what leads to it leave it to be found. -/
theorem isFile_of_steps {allow : Edit → List String → Prop} (hp : d.top.isPlain = true) (hne : p.steps ≠ [])
    (hs : Steps allow d d') (he : ∀ q, ¬ allow .erase q) (hu : ¬ allow .unlink (d.place p))
    (hf : d.isFile p = true) : d'.isFile p = true := by
  obtain ⟨ho, hi, hw, hat⟩ := open_of_file hp hne hf
  obtain ⟨c, m, t, hat'⟩ := hs.isFile (fun q hq => absurd hq (he q)) hu hat
  rw [← hs.place_eq] at hat'
  have hways : d'.Ways p := by
    intro ys hys
    rw [hs.trail_eq] at hys
    exact hs.dir (fun q hq => absurd hq (he q)) (hw ys hys)
  rw [isFile, hways.find (Node.linkFree_of_isPlain (hs.isPlain hp)) hne hi (hs.admits_iff.mpr ho.admits) hat']
  rfl

/-- A file that is found after removals was found before them. -/
theorem isFile_of_erased {allow : Edit → List String → Prop} (hp : d.top.isPlain = true) (hne : p.steps ≠ [])
    (ha : ∀ e q, allow e q → e = .erase ∨ e = .unlink) (hs : Steps allow d d') (hf : d'.isFile p = true) :
    d.isFile p = true := by
  obtain ⟨ho, hi, hw, c, m, t, hat⟩ := open_of_file (hs.isPlain hp) hne hf
  have hsame : ∀ q s, d'.top.shape? q = some s → d.top.shape? q = some s := by
    intro q s hq
    rcases hs.erased ha q with h | h
    · rw [← h, hq]
    · rw [h] at hq
      cases hq
  have hways : d.Ways p := fun ys hys => hsame _ _ (hw ys (by rw [hs.trail_eq]; exact hys))
  rw [hs.place_eq] at hat
  rw [isFile, hways.find (Node.linkFree_of_isPlain hp) hne hi (hs.admits_iff.mp ho.admits)
    (Node.shape?_eq_file.mp (hsame _ _ (Node.shape?_eq_file.mpr hat)))]
  rfl

/-- Where a file could not be replaced, none is found. -/
theorem isFile_of_replace_error {e : Error} (hp : d.top.isPlain = true) (hn : p.Named) (hne : p.steps ≠ [])
    (h : (replace p bytes).on d = (.error e, d')) : d'.isFile p = false := by
  have hs : Steps (fun e _ => e ≠ .erase) d d' := by
    have hs := steps_replace hp hn hne bytes
    rwa [h] at hs
  have hshape : ∀ q, d'.top.shape? q = d.top.shape? q ∨
      OnWay d p q ∧ d.top.shape? q = none ∧ d'.top.shape? q = some .dir := fun q =>
    shape?_replace hp hn hne h fun _ => rfl
  rw [Bool.eq_false_iff]
  intro hf
  obtain ⟨ho, hi, hw, -⟩ := open_of_file (hs.isPlain hp) hne hf
  -- then it could have been replaced
  suffices hopen : Open d p by
    obtain ⟨d'', hd''⟩ : ∃ d'', (replace p bytes).on d = (.ok (), d'') :=
      replace_of_open hp hn hne hi hopen
    rw [hd''] at h
    cases h
  refine ⟨hs.admits_iff.mp ho.admits, ?_, ?_, ?_, ?_⟩
  · by_contra hg
    have hstay := replace_of_not_grounded (Node.linkFree_of_isPlain hp) hg hne bytes d rfl
    rw [h] at hstay
    exact hg (hstay ▸ ho.grounded)
  · intro ys hys
    rcases hshape (climb [] ys).reverse with hsame | ⟨-, hnone, -⟩
    · left
      rw [← hsame]
      exact hw ys (by rw [hs.trail_eq]; exact hys)
    · exact Or.inr hnone
  · rcases hshape (d.place p) with hsame | ⟨-, hnone, -⟩
    · rw [← hsame, ← hs.place_eq]
      exact ho.free
    · rw [hnone]
      simp
  · rintro ⟨ys, hys, he⟩
    refine ho.free ?_
    rw [hs.place_eq, ← he]
    exact hw ys (by rw [hs.trail_eq]; exact hys)

end Files

end Outfitter
