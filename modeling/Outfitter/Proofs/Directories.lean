import Outfitter.Proofs.Files

/-! # Directories that can be made

A directory that is there is left alone, one whose place is vacant is made, and a whole row
of directories can be made where nothing but directories stands on the way.
-/

namespace Outfitter

open Disk Action

namespace Disk

/-- On the way through names there are directories, or nothing. -/
def Clear (d : Disk) (names : List String) : Prop :=
  ∀ ys, ys <+: names →
    d.top.shape? (climb [] ys).reverse = some .dir ∨ d.top.shape? (climb [] ys).reverse = none

variable {top n : Node} {here names above : List String} {name : String} {d d' : Disk} {p q : Path}

theorem Clear.steps (hc : d.Clear names) (h : Steps (fun e _ => e = .make) d d') :
    d'.Clear names := by
  intro ys hys
  refine h.keeps (P := fun a => a.top.shape? (climb [] ys).reverse = some .dir ∨
    a.top.shape? (climb [] ys).reverse = none) ?_ (hc ys hys)
  intro a b hs ha
  obtain ⟨e, p, -, rfl, hf, hsh, -⟩ := hs.effect
  by_cases hp : (climb [] ys).reverse = p
  · obtain ⟨-, t, hn⟩ := hf
    rw [hp]
    exact Or.inl (Node.shape?_eq_dir.mpr ⟨t, [], hn⟩)
  · rw [hsh _ hp (by simp)]
    exact ha

/-- A walk on a clear way fails only where something is missing. -/
theorem walk_clear (hl : top.LinkFree) (ht : ∀ s ∈ names, takesName s = true)
    (hc : ∀ ys, ys <+: names → top.shape? (climb here ys).reverse = some .dir ∨
      top.shape? (climb here ys).reverse = none)
    (hn : top.at? here.reverse = some n) :
    (∃ spot, walk top here n names = .ok spot) ∨ walk top here n names = .error .notFound := by
  induction names generalizing here n with
  | nil => exact Or.inl ⟨_, walk_nil ..⟩
  | cons a rest ih =>
    obtain ⟨ha, hrest⟩ := List.forall_mem_cons.mp ht
    have hdir : ∃ t es, n = .dir t es := by
      rcases hc [] List.nil_prefix with h | h
      · obtain ⟨t, es, hat⟩ := Node.shape?_eq_dir.mp h
        rw [climb_nil, hn, Option.some.injEq] at hat
        exact ⟨t, es, hat⟩
      · rw [climb_nil, Node.shape?, hn] at h
        cases h
    obtain ⟨t, es, rfl⟩ := hdir
    have hnext : ∀ m, top.at? (climb here [a]).reverse = some m →
        (∃ spot, walk top here (.dir t es) (a :: rest) = .ok spot) ∨
          walk top here (.dir t es) (a :: rest) = .error .notFound := by
      intro m hm
      rw [walk_step hl hn ha hm]
      refine ih hrest (fun ys hys => ?_) hm
      exact hc (a :: ys) (List.cons_prefix_cons.mpr ⟨rfl, hys⟩)
    cases hm : top.at? (climb here [a]).reverse with
    | some m => exact hnext m hm
    | none =>
      by_cases hu : a = ".."
      · subst hu
        have hm' : top.at? here.tail.reverse = none := hm
        rw [walk_up, hm']
        exact Or.inr rfl
      · have hlook : es.lookup a = none := by
          rw [climb, if_neg hu, climb_nil, List.reverse_cons, Node.at?_append, hn, Option.bind_some,
            Node.at?_dir_cons] at hm
          cases he : es.lookup a with
          | none => rfl
          | some k => rw [he, Option.bind_some, Node.at?_nil] at hm; cases hm
        rw [walk_cons hl hn hu, if_neg (by simpa [takesName, hu] using ha), hlook]
        cases rest with
        | nil => exact Or.inl ⟨_, rfl⟩
        | cons => exact Or.inr rfl

theorem locate_clear (hl : d.top.LinkFree) (ha : d.Admits p) (hc : d.Clear (d.trail p)) :
    (∃ place t es, d.locate false p = .ok (.there place (.dir t es))) ∨
    (∃ above name, d.locate false p = .ok (.vacant above name)) ∨
    d.locate false p = .error .notFound := by
  rw [locate_of_takes hl ha.1]
  rcases walk_clear hl ha.2 hc (Node.at?_nil _) with ⟨spot, hs⟩ | hs
  · cases spot with
    | vacant above name =>
      rw [hs, settle]
      split
      · exact Or.inr (Or.inr rfl)
      · exact Or.inr (Or.inl ⟨above, name, rfl⟩)
    | there place n =>
      obtain ⟨hpl, hat⟩ := walk_there hl (Node.at?_nil _) hs
      have hdir : d.top.shape? place = some .dir := by
        rcases hc _ (List.prefix_refl _) with h | h
        · rw [hpl]; exact h
        · rw [← hpl, Node.shape?, hat] at h
          cases h
      obtain ⟨t, es, hat'⟩ := Node.shape?_eq_dir.mp hdir
      rw [hat, Option.some.injEq] at hat'
      subst hat'
      refine Or.inl ⟨place, t, es, ?_⟩
      rw [hs, settle]
      simp [Node.isDir]
  · exact Or.inr (Or.inr (by rw [hs]; rfl))

theorem leads_of_locate (hl : d.top.LinkFree) {follow : Bool} {t : Stamp} {es : Entries}
    {place : List String} (h : d.locate follow p = .ok (.there place (.dir t es))) : d.Leads p := by
  rw [locate_follow hl] at h
  exact leads_of_find hl (find_ok_iff.mpr h)

/-- Only what is led to can be removed. -/
theorem leads_of_removeTree (hl : d.top.LinkFree) (h : d.removeTree p = .ok d') :
    d.Leads p ∧ d.Admits p := by
  unfold removeTree at h
  split at h
  · cases h
  · next place n hnf hloc =>
    refine ⟨?_, locate_admits hl hloc⟩
    cases n with
    | file => exact absurd rfl (hnf _ _ _)
    | link => exact absurd (locate_there hl hloc).2 (hl _ _)
    | dir => exact leads_of_locate hl hloc
  · cases h
  · cases h

/-- One more name on a clear way leads to a directory or to a vacant place. -/
theorem locate_next {a : String} (hl : d.top.LinkFree) (hne : p.steps ≠ []) (hi : p.endsDotted = false) (hq : d.Leads q)
    (ht : d.trail p = d.trail q ++ [a]) (ha : d.Admits p) (hc : d.Clear (d.trail p)) :
    (∃ place t es, d.locate false p = .ok (.there place (.dir t es))) ∨
    (∃ above name, d.locate false p = .ok (.vacant above name)) := by
  rcases locate_clear hl ha hc with h | h | h
  · exact Or.inl h
  · exact Or.inr h
  · exfalso
    obtain ⟨t, es, hw⟩ := hq
    have hat := (walk_there hl (Node.at?_nil _) hw).2
    rw [locate_of_takes hl ha.1, ht, walk_append hl (Node.at?_nil _) hw] at h
    have hrev : d.top.at? (d.place q).reverse.reverse = some (.dir t es) := by
      rw [List.reverse_reverse]
      exact hat
    have hname : takesName a = true := ha.2 a (by rw [ht]; simp)
    by_cases hu : a = ".."
    · subst hu
      -- the directory around one that is there
      obtain ⟨t', es', hup⟩ : ∃ t es, d.top.at? (d.place q).reverse.tail.reverse = some (.dir t es) := by
        rcases List.eq_nil_or_concat' (d.place q) with he | ⟨init, s, he⟩ <;> rw [he] at hat ⊢
        · exact ⟨t, es, hat⟩
        · rw [List.reverse_concat', List.tail_cons, List.reverse_reverse]
          exact Node.isDir_of_at?_append (by simp) hat
      rw [walk_up, hup] at h
      change settle p (walk d.top (d.place q).reverse.tail (.dir t' es') []) = _ at h
      rw [walk_nil, settle] at h
      split at h <;> simp_all [Node.isDir]
    · rw [walk_cons hl hrev hu, if_neg (by simpa [takesName, hu] using hname)] at h
      cases he : es.lookup a with
      | none =>
        rw [he] at h
        change settle p (.ok (.vacant _ a)) = _ at h
        rw [settle, if_neg (by simp [hne, hi])] at h
        cases h
      | some m =>
        rw [he] at h
        change settle p (walk d.top (a :: (d.place q).reverse) m []) = _ at h
        rw [walk_nil, settle] at h
        split at h <;> cases h

theorem leads_of_put (hp : d.top.isPlain = true) (hn : p.Named)
    (h : d.locate false p = .ok (.vacant above name)) :
    (d.put (above ++ [name]) (.dir d.now [])).Leads p := by
  have hl := Node.linkFree_of_isPlain hp
  obtain ⟨hpl, hv, -, -⟩ := locate_vacant hl h
  have hs : Steps (fun e _ => e = .make) d (d.put (above ++ [name]) (.dir d.now [])) :=
    .of_step (step_put_dir hv (isName_of_vacant hl hn h) rfl)
  rw [leads_iff (Node.linkFree_of_isPlain (hs.isPlain hp)), hs.trail_eq]
  refine ⟨(locate_admits hl h).2, ?_⟩
  rintro ys ⟨zs, hz⟩
  by_cases he : zs = []
  · obtain ⟨t, es, hd, -⟩ := hv
    rw [he, List.append_nil] at hz
    have hpl' : (climb [] ys).reverse = above ++ [name] := by rw [hz]; exact hpl.symm
    rw [hpl', Node.shape?_eq_dir]
    refine ⟨d.now, [], ?_⟩
    exact (Node.at?_alter_self hd).trans (Node.at?_nil _)
  · have hw := (locate_ok hl h).2
    rw [← hz] at hw
    obtain ⟨place, t, es, hw⟩ := walk_of_append hl (Node.at?_nil _) he hw
    obtain ⟨rfl, hat⟩ := walk_there hl (Node.at?_nil _) hw
    exact hs.dir (by rintro p ⟨⟩) (Node.shape?_eq_dir.mpr ⟨t, es, hat⟩)

end Disk

namespace Files

variable {d d' : Disk} {p q : Path} {above place : List String} {name : String} {t : Stamp}
  {es : Entries} {around : List Path}

theorem makeDir_of_there {n : Node} (h : d.locate false p = .ok (.there place n)) :
    d.makeDir p = .error .alreadyExists := by
  rw [makeDir, h]

theorem makeDir_of_vacant (h : d.locate false p = .ok (.vacant above name)) :
    d.makeDir p = .ok (d.put (above ++ [name]) (.dir d.now [])) := by
  rw [makeDir, h]

theorem isDir_of_locate (hl : d.top.LinkFree)
    (h : d.locate false p = .ok (.there place (.dir t es))) : d.isDir p = true := by
  rw [locate_follow hl] at h
  rw [isDir, find_ok_iff.mpr h]
  rfl

theorem makeDirsFrom_of_there (hl : d.top.LinkFree)
    (h : d.locate false p = .ok (.there place (.dir t es))) :
    (makeDirsFrom (p :: around)).on d = (.ok (), d) := by
  rw [makeDirsFrom]
  split
  · rfl
  · rw [on_bind_attempt, on_change_error (makeDir_of_there h)]
    show ((ask _ >>= _ : Action Unit)).on d = _
    rw [on_bind_ask, isDir_of_locate hl h]
    rfl

theorem makeDirsFrom_of_vacant (h : d.locate false p = .ok (.vacant above name)) :
    (makeDirsFrom (p :: around)).on d = (.ok (), d.put (above ++ [name]) (.dir d.now [])) := by
  rw [makeDirsFrom]
  split
  · next he => exact absurd (Path.steps_of_isBare (Bool.and_eq_true_iff.mp he).1) (steps_of_vacant h)
  · rw [on_bind_attempt, on_change_ok (makeDir_of_vacant h)]
    rfl

theorem ancestorsUpTo_cons (fuel : Nat) (p : Path) :
    ∃ around, p.ancestorsUpTo fuel = p :: around := by
  cases fuel with
  | zero => exact ⟨[], rfl⟩
  | succ fuel =>
    rw [Path.ancestorsUpTo]
    split
    · exact ⟨_, rfl⟩
    · exact ⟨[], rfl⟩

theorem mem_ancestors_self (p : Path) : p ∈ p.ancestors := by
  obtain ⟨around, ha⟩ := ancestorsUpTo_cons p.segments.length p
  rw [Path.ancestors, ha]
  exact List.mem_cons_self

/-- A directory that is there is left alone. -/
theorem makeDirs_of_there (hl : d.top.LinkFree)
    (h : d.locate false p = .ok (.there place (.dir t es))) : (makeDirs p).on d = (.ok (), d) := by
  obtain ⟨around, ha⟩ := ancestorsUpTo_cons p.segments.length p
  rw [makeDirs, Path.ancestors, ha, makeDirsFrom_of_there hl h]

/-- A directory whose place is vacant is made. -/
theorem makeDirs_of_vacant (h : d.locate false p = .ok (.vacant above name)) :
    (makeDirs p).on d = (.ok (), d.put (above ++ [name]) (.dir d.now [])) := by
  obtain ⟨around, ha⟩ := ancestorsUpTo_cons p.segments.length p
  rw [makeDirs, Path.ancestors, ha, makeDirsFrom_of_vacant h]

/-- What was made, or was there, leads to a directory. -/
theorem leads_of_makeDirs (hp : d.top.isPlain = true) (hn : p.Named) (hne : p.steps ≠ [])
    (h : (makeDirs p).on d = (.ok (), d')) : d'.Leads p := by
  have hmake : ∀ a b, Steps (fun e _ => e = .make) d a → a.makeDir p = .ok b → b.Leads p := by
    intro a b hs hb
    have hpa := hs.isPlain hp
    unfold makeDir at hb
    split at hb
    · cases hb
    · next hloc => cases hb; exact leads_of_put hpa hn hloc
    · cases hb
  have hcheck : ∀ a e, Steps (fun e _ => e = .make) d a →
      (do if ← ask (·.isDir p) then pure () else fail e : Action Unit).on a = (.ok (), d') →
      d'.Leads p := by
    intro a e hs ha
    rw [on_bind_ask] at ha
    split at ha
    · next hd =>
      cases ha
      exact leads_of_isDir (Node.linkFree_of_isPlain (hs.isPlain hp)) hd
    · cases ha
  obtain ⟨around, ha⟩ := ancestorsUpTo_cons p.segments.length p
  have haround : ∀ q ∈ around, q.Named := fun q hq =>
    hn.ancestors (ha ▸ List.mem_cons_of_mem _ hq)
  have hbare : ¬ (p.isBare && p.byteSize ≤ pathLimit) = true := fun hb =>
    hne (Path.steps_of_isBare (Bool.and_eq_true_iff.mp hb).1)
  rw [makeDirs, Path.ancestors, ha, makeDirsFrom, if_neg hbare, on_bind_attempt] at h
  cases hd : d.makeDir p with
  | ok d₁ =>
    rw [on_change_ok hd] at h
    cases h
    exact hmake d d₁ (.refl _) hd
  | error e =>
    rw [on_change_error hd] at h
    by_cases hnf : e = .notFound
    · subst hnf
      obtain ⟨⟨⟩, d₁, hrun, h⟩ := of_on_bind_ok h
      have hk : Keeps (Steps (fun e _ => e = .make) d) (makeDirsFrom around) :=
        keeps_makeDirsFrom fun q hq =>
          keeps_makeDir hp (haround q hq) rfl
      have hs := hk d (.refl _)
      rw [hrun] at hs
      rw [makeLast, on_bind_attempt] at h
      cases hd₁ : d₁.makeDir p with
      | ok d₂ =>
        rw [on_change_ok hd₁] at h
        cases h
        exact hmake d₁ d₂ hs hd₁
      | error e =>
        rw [on_change_error hd₁] at h
        exact hcheck d₁ _ hs h
    · refine hcheck d (.io e) (.refl _) ?_
      rw [← h]
      split <;> simp_all

theorem takes_parent (h : takes p = true) (hq : p.parent? = some q) (he : q.isEmpty = false) :
    takes q = true := by
  simp only [takes, Bool.and_eq_true, Bool.not_eq_true', decide_eq_true_eq, List.any_eq_false] at h ⊢
  obtain ⟨⟨-, hz⟩, hs⟩ := h
  refine ⟨⟨he, fun s hs' => ?_⟩, Nat.le_trans (Path.byteSize_parent?_le hq) hs⟩
  rcases Path.mem_segments_parent? hq hs' with h | rfl
  · exact hz s h
  · simp

/-- The directory that the steps of a path are taken from is there. -/
def Grounded (d : Disk) (p : Path) : Prop :=
  ∀ ys, ys <+: d.base p → d.top.shape? (climb [] ys).reverse = some .dir

theorem Grounded.of_leads (hl : d.top.LinkFree) (h : d.Leads p) : Grounded d p := by
  intro ys hys
  exact ((leads_iff hl).mp h).2 ys (hys.trans (List.prefix_append _ _))

theorem leads_of_grounded (hl : d.top.LinkFree) (hg : Grounded d p) (he : p.steps = [])
    (ht : ∀ s ∈ d.trail p, takesName s = true) : d.Leads p := by
  rw [leads_iff hl]
  refine ⟨ht, fun ys hys => hg ys ?_⟩
  rw [trail, he, List.append_nil] at hys
  exact hys

theorem locate_of_grounded (hl : d.top.LinkFree) (hg : Grounded d p) (he : p.steps = []) (ha : d.Admits p) :
    ∃ place t es, d.locate false p = .ok (.there place (.dir t es)) := by
  obtain ⟨t, es, hw⟩ := leads_of_grounded hl hg he ha.2
  refine ⟨d.place p, t, es, ?_⟩
  rw [locate_of_takes hl ha.1, hw, settle_dir]

/-- A directory is made in one that is there, or is there already. -/
theorem makeLast_of_leads {name : String} (hp : d.top.isPlain = true) (hne : p.steps ≠ []) (hn : p.Named)
    (hi : p.endsDotted = false) (hlead : d.Leads q) (ht : d.trail p = d.trail q ++ [name]) (ha : d.Admits p)
    (hc : d.Clear (d.trail p)) : ∃ d', (makeLast p).on d = (.ok (), d') ∧ d'.Leads p := by
  have hl := Node.linkFree_of_isPlain hp
  rw [makeLast, on_bind_attempt]
  rcases locate_next hl hne hi hlead ht ha hc with ⟨place, t, es, hloc⟩ | ⟨above, name, hloc⟩
  · refine ⟨d, ?_, leads_of_locate hl hloc⟩
    rw [on_change_error (makeDir_of_there hloc)]
    show ((ask _ >>= _ : Action Unit)).on d = _
    rw [on_bind_ask, isDir_of_locate hl hloc]
    rfl
  · refine ⟨_, ?_, leads_of_put hp hn hloc⟩
    rw [on_change_ok (makeDir_of_vacant hloc)]
    rfl

/-- Where something on the way is missing, the directories around are made first. -/
theorem makeDirsFrom_of_missing {fuel : Nat} (hne : p.steps ≠ []) (hq : p.parent? = some q)
    (hloc : d.locate false p = .error .notFound)
    (hrun : (makeDirsFrom (q.ancestorsUpTo fuel)).on d = (.ok (), d')) :
    (makeDirsFrom (p.ancestorsUpTo (fuel + 1))).on d = (makeLast p).on d' := by
  rw [Path.ancestorsUpTo, hq]
  show (makeDirsFrom (p :: q.ancestorsUpTo fuel)).on d = _
  rw [makeDirsFrom]
  split
  · next he => exact absurd (Path.steps_of_isBare (Bool.and_eq_true_iff.mp he).1) hne
  · have hmake : d.makeDir p = .error .notFound := by rw [makeDir, hloc]
    rw [on_bind_attempt, on_change_error hmake]
    exact on_bind_ok hrun

/-- A row of directories is made where the way is clear. -/
theorem makeDirsFrom_of_clear {fuel : Nat} (hp : d.top.isPlain = true)
    (hf : p.steps.length ≤ fuel) (ha : d.Admits p) (hn : p.Named) (hi : p.steps ≠ [] → p.endsDotted = false)
    (hg : Grounded d p) (hc : d.Clear (d.trail p)) :
    ∃ d', (makeDirsFrom (p.ancestorsUpTo fuel)).on d = (.ok (), d') ∧ d'.Leads p := by
  have hl := Node.linkFree_of_isPlain hp
  induction fuel generalizing p with
  | zero =>
    obtain ⟨place, t, es, hloc⟩ :=
      locate_of_grounded hl hg (List.length_eq_zero_iff.mp (Nat.le_zero.mp hf)) ha
    exact ⟨d, makeDirsFrom_of_there hl hloc, leads_of_locate hl hloc⟩
  | succ fuel ih =>
    obtain ⟨around, he⟩ := ancestorsUpTo_cons (fuel + 1) p
    by_cases hne : p.steps = []
    · obtain ⟨place, t, es, hloc⟩ := locate_of_grounded hl hg hne ha
      exact ⟨d, he ▸ makeDirsFrom_of_there hl hloc, leads_of_locate hl hloc⟩
    rcases locate_clear hl ha hc with ⟨place, t, es, hloc⟩ | ⟨above, name, hloc⟩ | hloc
    · exact ⟨d, he ▸ makeDirsFrom_of_there hl hloc, leads_of_locate hl hloc⟩
    · exact ⟨_, he ▸ makeDirsFrom_of_vacant hloc, leads_of_put hp hn hloc⟩
    -- something on the way is missing, so the directories around are made first
    have hmissing : ∀ r, d.Leads r → ∀ a, d.trail p ≠ d.trail r ++ [a] := by
      intro r hr a ht
      rcases locate_next hl hne (hi hne) hr ht ha hc with ⟨_, _, _, h⟩ | ⟨_, _, h⟩ <;> rw [hloc] at h <;> cases h
    obtain ⟨q, hq⟩ := Path.exists_parent? (Path.names_ne_nil_of_steps hne)
    have htrail : d.trail p = d.trail q ++ [p.steps.getLast hne] := by
      rw [trail, trail, base_parent hne hq, (Path.steps_parent? hne hq).2, List.append_assoc,
        List.dropLast_append_getLast]
    have hsub : d.trail q <+: d.trail p := by
      rw [htrail]
      exact List.prefix_append _ _
    have hgq : Grounded d q := by
      rw [Grounded, base_parent hne hq]
      exact hg
    have htq : ∀ s ∈ d.trail q, takesName s = true := fun s hs => ha.2 s (hsub.subset hs)
    have hqe : q.isEmpty = false := by
      cases he : q.isEmpty with
      | false => rfl
      | true =>
        exact absurd htrail (hmissing q (leads_of_grounded hl hgq (Path.steps_of_isEmpty he).2 htq) _)
    obtain ⟨d₁, hrun, hlead⟩ := ih
      (by rw [(Path.steps_parent? hne hq).2, List.length_dropLast]; omega)
      ⟨takes_parent ha.1 hq hqe, htq⟩ (hn.parent hq)
      (fun hs => Path.endsDotted_of_endsIdle (Path.endsIdle_parent? hq hs)) hgq
      (fun ys hys => hc ys (hys.trans hsub))
    have hsteps : Steps (fun e _ => e = .make) d d₁ := by
      have hk : Keeps (Steps (fun e _ => e = .make) d) (makeDirsFrom (q.ancestorsUpTo fuel)) :=
        keeps_makeDirsFrom fun r hr => keeps_makeDir hp ((hn.parent hq).ancestors hr) rfl
      have hd := hk d (.refl _)
      rw [hrun] at hd
      exact hd
    have hc₁ : d₁.Clear (d₁.trail p) := by
      rw [hsteps.trail_eq]
      exact hc.steps hsteps
    have ht₁ : d₁.trail p = d₁.trail q ++ [p.steps.getLast hne] := by
      rw [hsteps.trail_eq, hsteps.trail_eq, htrail]
    rw [makeDirsFrom_of_missing hne hq hloc hrun]
    exact makeLast_of_leads (hsteps.isPlain hp) hne hn (hi hne) hlead ht₁ (hsteps.admits_iff.mpr ha) hc₁

theorem makeDirs_of_clear (hp : d.top.isPlain = true) (ha : d.Admits p) (hn : p.Named)
    (hi : p.steps ≠ [] → p.endsDotted = false) (hg : Grounded d p) (hc : d.Clear (d.trail p)) :
    ∃ d', (makeDirs p).on d = (.ok (), d') ∧ d'.Leads p :=
  makeDirsFrom_of_clear hp (Path.length_steps_le p) ha hn hi hg hc

/-! ## Paths from a directory that is gone -/

theorem locate_of_not_grounded (hl : d.top.LinkFree) (hg : ¬ Grounded d p)
    (hne : p.steps ≠ []) (follow : Bool) : ∃ e, d.locate follow p = .error e := by
  cases hloc : d.locate follow p with
  | error e => exact ⟨e, rfl⟩
  | ok spot =>
    refine absurd (fun ys hys => ?_) hg
    have hw := (locate_ok hl hloc).2
    obtain ⟨zs, hz⟩ := hys
    have htrail : d.trail p = ys ++ (zs ++ p.steps) := by
      rw [trail, ← hz, List.append_assoc]
    rw [htrail] at hw
    obtain ⟨place, t, es, hr⟩ := walk_of_append hl (Node.at?_nil _) (by simp [hne]) hw
    obtain ⟨rfl, hat⟩ := walk_there hl (Node.at?_nil _) hr
    exact Node.shape?_eq_dir.mpr ⟨t, es, hat⟩

theorem makeDir_of_not_grounded (hl : d.top.LinkFree) (hg : ¬ Grounded d p) :
    ∃ e, d.makeDir p = .error e := by
  by_cases hne : p.steps = []
  · exact makeDir_of_no_steps hne d
  · obtain ⟨e, he⟩ := locate_of_not_grounded hl hg hne false
    exact ⟨e, by rw [makeDir, he]⟩

/-- No directory is made by a path that starts from one that is gone. -/
theorem makeDirs_of_not_grounded (hl : d.top.LinkFree) (hg : ¬ Grounded d p) :
    Keeps (· = d) (makeDirs p) := by
  refine keeps_makeDirsFrom fun q hq => ?_
  rcases ancestors_cases (d := d) hq with hb | ⟨hbase, -⟩
  · exact keeps_makeDir_of_no_steps (Path.steps_of_isBare hb)
  · refine Keeps.change fun a b ha hb => ?_
    obtain ⟨e, he⟩ := makeDir_of_not_grounded (p := q) hl (by rw [Grounded, hbase]; exact hg)
    rw [ha, he] at hb
    cases hb

theorem makeParents_of_not_grounded (hl : d.top.LinkFree) (hne : p.steps ≠ []) (hg : ¬ Grounded d p) :
    Keeps (· = d) (makeParents p) := by
  rw [makeParents]
  split
  · next q hq =>
    refine makeDirs_of_not_grounded hl ?_
    rw [Grounded, base_parent hne hq]
    exact hg
  · exact Keeps.pure _

theorem replace_of_not_grounded (hl : d.top.LinkFree) (hg : ¬ Grounded d p) (hne : p.steps ≠ [])
    (bytes : ByteArray) : Keeps (· = d) (replace p bytes) := by
  have hstay : (d.replace p bytes).2 = d := by
    simp only [Disk.replace]
    split
    · next place t es hfind =>
      have hdirs := ((leads_iff hl).mp (leads_of_find hl hfind)).2
      rw [trail_beside hne rfl, trail, List.dropLast_append_of_ne_nil hne] at hdirs
      exact absurd (fun ys hys => hdirs ys (hys.trans (List.prefix_append _ _))) hg
    · rfl
    · rfl
  refine (makeParents_of_not_grounded hl hne hg).bind fun _ a ha => ?_
  subst ha
  rcases hrun : a.replace p bytes with ⟨r, a'⟩
  rw [hrun] at hstay
  cases r <;> simpa only [Action.on, hrun] using hstay

end Files

end Outfitter
