import Mathlib.Logic.Relation
import Outfitter.Disk.Change
import Outfitter.Proofs.Disk.Lookup

/-! # Edits

All that a run does to a disk is a sequence of edits, each at one place: directories are
made and touched, files are created, rewritten, appended to and unlinked, and whole trees
are erased. What a run keeps follows from the edits that it is allowed.
-/

namespace Outfitter

/-- The ways in which what stands at a place can change. -/
inductive Edit where
  | make
  | touch
  | create
  | rewrite
  | append
  | unlink
  | erase
  deriving DecidableEq

/-- What stands at a place before an edit of a kind, and after it. -/
def Edit.Fits : Edit → Option Node → Option Node → Prop
  | make, old, new => old = none ∧ ∃ t, new = some (.dir t [])
  | touch, old, new => ∃ t t' es, old = some (.dir t es) ∧ new = some (.dir t' es)
  | create, old, new => old = none ∧ ∃ c m t, new = some (.file c m t)
  | rewrite, old, new =>
    (∃ c m t, old = some (.file c m t)) ∧ ∃ c m t, new = some (.file c m t)
  | append, old, new =>
    ∃ c c' m t t', old = some (.file c m t) ∧ new = some (.file (c ++ c') m t')
  | unlink, old, new => (∃ c m t, old = some (.file c m t)) ∧ new = none
  | erase, old, new => old ≠ none ∧ new = none

/-- Below a place an edit changes nothing, unless it erases. -/
theorem Edit.Fits.at?_eq {e : Edit} {old new : Option Node}
    (h : e.Fits old new) (he : e ≠ .erase) {rest : List String} (hr : rest ≠ []) :
    new.bind (·.at? rest) = old.bind (·.at? rest) := by
  obtain ⟨a, rest, rfl⟩ := List.exists_cons_of_ne_nil hr
  cases e with
  | make =>
    obtain ⟨rfl, t, rfl⟩ := h
    rfl
  | touch =>
    obtain ⟨t, t', es, rfl, rfl⟩ := h
    rfl
  | create =>
    obtain ⟨rfl, c, m, t, rfl⟩ := h
    rfl
  | rewrite =>
    obtain ⟨⟨c, m, t, rfl⟩, c', m', t', rfl⟩ := h
    rfl
  | append =>
    obtain ⟨c, c', m, t, t', rfl, rfl⟩ := h
    rfl
  | unlink =>
    obtain ⟨⟨c, m, t, rfl⟩, rfl⟩ := h
    rfl
  | erase => exact absurd rfl he

/-- What an edit makes of a file. -/
theorem Edit.Fits.of_file {e : Edit} {c : ByteArray} {m : Nat} {t : Stamp} {new : Option Node}
    (h : e.Fits (some (.file c m t)) new) :
    (e = .rewrite ∧ ∃ c' m' t', new = some (.file c' m' t')) ∨
      (e = .append ∧ ∃ c' t', new = some (.file (c ++ c') m t')) ∨ e = .unlink ∨ e = .erase := by
  cases e with
  | make => cases h.1
  | touch =>
    obtain ⟨_, _, _, ho, _⟩ := h
    cases ho
  | create => cases h.1
  | rewrite => exact Or.inl ⟨rfl, h.2⟩
  | append =>
    obtain ⟨_, c', _, _, t', ho, hn⟩ := h
    cases ho
    exact Or.inr (Or.inl ⟨rfl, c', t', hn⟩)
  | unlink => exact Or.inr (Or.inr (Or.inl rfl))
  | erase => exact Or.inr (Or.inr (Or.inr rfl))

/-- What an edit makes of a directory. -/
theorem Edit.Fits.of_dir {e : Edit} {t : Stamp} {es : Entries} {new : Option Node}
    (h : e.Fits (some (.dir t es)) new) : (e = .touch ∧ ∃ t', new = some (.dir t' es)) ∨ e = .erase := by
  cases e with
  | make => cases h.1
  | touch =>
    obtain ⟨_, t', _, ho, hn⟩ := h
    cases ho
    exact Or.inl ⟨rfl, t', hn⟩
  | create => cases h.1
  | rewrite =>
    obtain ⟨⟨_, _, _, ho⟩, _⟩ := h
    cases ho
  | append =>
    obtain ⟨_, _, _, _, _, ho, _⟩ := h
    cases ho
  | unlink =>
    obtain ⟨⟨_, _, _, ho⟩, _⟩ := h
    cases ho
  | erase => exact Or.inr rfl

namespace Disk

/-- One edit that is allowed at its place. -/
inductive Step (allow : Edit → List String → Prop) (d : Disk) : Disk → Prop where
  | edit {e : Edit} {above : List String} {name : String} {t : Stamp} {es : Entries}
      {touch : Option Stamp} {f : Option Node → Option Node} :
      d.top.at? above = some (.dir t es) → isName name = true → allow e (above ++ [name]) →
      e.Fits (es.lookup name) (f (es.lookup name)) → touch = none ∨ touch = some d.now →
      Step allow d { d with top := d.top.alter touch f (above ++ [name]) }

/-- A sequence of allowed edits. -/
def Steps (allow : Edit → List String → Prop) : Disk → Disk → Prop :=
  Relation.ReflTransGen (Step allow)

variable {allow allow' : Edit → List String → Prop} {d d' d'' : Disk} {q : List String}

namespace Steps

theorem refl (d : Disk) : Steps allow d d := Relation.ReflTransGen.refl

theorem trans (h : Steps allow d d') (h' : Steps allow d' d'') : Steps allow d d'' :=
  Relation.ReflTransGen.trans h h'

theorem of_step (h : Step allow d d') : Steps allow d d' := Relation.ReflTransGen.single h

theorem mono (ha : ∀ e p, allow e p → allow' e p) (h : Steps allow d d') : Steps allow' d d' := by
  induction h with
  | refl => exact refl _
  | tail _ hs ih =>
    cases hs with
    | edit hd hn hp hf ht => exact ih.trans (of_step (.edit hd hn (ha _ _ hp) hf ht))

/-- What each allowed edit keeps, a sequence of them keeps. -/
theorem keeps {P : Disk → Prop} (hP : ∀ d d', Step allow d d' → P d → P d')
    (h : Steps allow d d') (hd : P d) : P d' := by
  induction h with
  | refl => exact hd
  | tail _ hs ih => exact hP _ _ hs ih

end Steps

/-! ## What an edit keeps -/

theorem Step.clock_eq (h : Step allow d d') : d'.clock = d.clock := by
  cases h; rfl

theorem Step.cwd_eq (h : Step allow d d') : d'.cwd = d.cwd := by
  cases h; rfl

theorem Steps.clock_eq (h : Steps allow d d') : d'.clock = d.clock :=
  h.keeps (P := fun e => e.clock = d.clock) (fun _ _ hs he => hs.clock_eq.trans he) rfl

theorem Steps.cwd_eq (h : Steps allow d d') : d'.cwd = d.cwd :=
  h.keeps (P := fun e => e.cwd = d.cwd) (fun _ _ hs he => hs.cwd_eq.trans he) rfl

theorem Steps.trail_eq (h : Steps allow d d') (p : Path) : d'.trail p = d.trail p :=
  trail_of_cwd h.cwd_eq p

theorem Steps.place_eq (h : Steps allow d d') (p : Path) : d'.place p = d.place p :=
  place_of_cwd h.cwd_eq p

theorem Step.isPlain (h : Step allow d d') (hd : d.top.isPlain = true) :
    d'.top.isPlain = true := by
  cases h with
  | @edit e above name t es touch f hdir hname hallow hfits htouch =>
    apply Node.isPlain_alter hd hname
    have hat : d.top.at? (above ++ [name]) = es.lookup name := by
      rw [Node.at?_append, hdir, Option.bind_some, Node.at?_dir_cons]
      cases es.lookup name <;> simp
    have hold := (Node.isPlain_of_at? hd hdir).2
    rw [hat]
    intro m hm
    rw [hm] at hfits
    cases e with
    | make =>
      obtain ⟨-, t, ht⟩ := hfits
      cases ht; rfl
    | touch =>
      obtain ⟨t, t', es', ho, ht⟩ := hfits
      cases ht
      exact (Node.isPlain_of_lookup hold ho).2
    | create =>
      obtain ⟨-, c, m, t, ht⟩ := hfits
      cases ht; rfl
    | rewrite =>
      obtain ⟨-, c, m, t, ht⟩ := hfits
      cases ht; rfl
    | append =>
      obtain ⟨c, c', m, t, t', -, ht⟩ := hfits
      cases ht; rfl
    | unlink => cases hfits.2
    | erase => cases hfits.2

theorem Steps.isPlain (h : Steps allow d d') (hd : d.top.isPlain = true) :
    d'.top.isPlain = true :=
  h.keeps (P := fun e => e.top.isPlain = true) (fun _ _ hs he => hs.isPlain he) hd

/-- What one edit does: it fits at its place, other places keep their shapes, what lies
apart from it stays the same, and a directory above it is touched now, if at all. -/
theorem Step.effect (h : Step allow d d') :
    ∃ e p, p ≠ [] ∧ allow e p ∧ e.Fits (d.top.at? p) (d'.top.at? p) ∧
      (∀ q, q ≠ p → (e = .erase → ¬ p <+: q) → d'.top.shape? q = d.top.shape? q) ∧
      (∀ q, ¬ q <+: p → (e = .erase → ¬ p <+: q) → d'.top.at? q = d.top.at? q) ∧
      (∀ q t es, q <+: p → q ≠ p → d.top.at? q = some (.dir t es) →
        ∃ t' es', d'.top.at? q = some (.dir t' es') ∧ (t' = t ∨ t' = d.now)) := by
  cases h with
  | @edit e above name t es touch f hdir hname hallow hfits htouch =>
    have hbelow : ∀ rest, (d.top.alter touch f (above ++ [name])).at? (above ++ [name] ++ rest) =
        (f (es.lookup name)).bind (·.at? rest) := by
      intro rest
      rw [List.append_assoc, List.singleton_append]
      exact Node.at?_alter_self hdir
    have hold : ∀ rest, d.top.at? (above ++ [name] ++ rest) =
        (es.lookup name).bind (·.at? rest) := by
      intro rest
      rw [List.append_assoc, Node.at?_append, hdir, Option.bind_some, List.singleton_append,
        Node.at?_dir_cons]
    have hself : ∀ o : Option Node, o.bind (·.at? []) = o := by
      intro o
      cases o <;> simp
    refine ⟨e, above ++ [name], by simp, hallow, ?_, ?_, ?_, ?_⟩
    · have h₁ := hbelow []
      have h₂ := hold []
      rw [List.append_nil, hself] at h₁ h₂
      rw [h₁, h₂]
      exact hfits
    · intro q hq he
      by_cases hp : above ++ [name] <+: q
      · obtain ⟨rest, rfl⟩ := hp
        have hr : rest ≠ [] := by
          rintro rfl
          exact hq (by simp)
        have hne : e ≠ .erase := fun hc => he hc (List.prefix_append _ _)
        rw [Node.shape?, Node.shape?, hbelow, hold, hfits.at?_eq hne hr]
      · exact Node.shape?_alter hp
    · intro q hq he
      by_cases hp : above ++ [name] <+: q
      · have hne : e ≠ .erase := fun hc => he hc hp
        obtain ⟨rest, rfl⟩ := hp
        have hr : rest ≠ [] := by
          rintro rfl
          exact hq (by simp)
        rw [hbelow, hold, hfits.at?_eq hne hr]
      · exact Node.at?_alter_of_disjoint hp hq
    · intro q t' es' hq hne hat
      have habove := (List.prefix_concat_iff.mp hq).resolve_left hne
      obtain ⟨t'', es'', hat', ht⟩ := Node.dir_alter hat habove
      refine ⟨t'', es'', hat', ht.imp_right fun ht => ?_⟩
      rcases htouch with hnone | hnow
      · rw [hnone] at ht
        cases ht
      · rw [hnow, Option.some.injEq] at ht
        exact ht.symm

/-! ## What edits keep -/

/-- Neither `q` nor what holds it may be erased. -/
def Spared (allow : Edit → List String → Prop) (q : List String) : Prop :=
  ∀ p, allow .erase p → ¬ p <+: q

theorem Steps.shape?_eq (hq : ∀ e, ¬ allow e q) (hs : Spared allow q) (h : Steps allow d d') :
    d'.top.shape? q = d.top.shape? q := by
  refine h.keeps (P := fun e => e.top.shape? q = d.top.shape? q) ?_ rfl
  intro a b hab ha
  obtain ⟨e, p, -, hp, -, hsh, -⟩ := hab.effect
  have hne : q ≠ p := fun hc => hq e (hc ▸ hp)
  exact (hsh q hne fun he => hs p (he ▸ hp)).trans ha

theorem Steps.dir (hq : Spared allow q) (h : Steps allow d d')
    (hd : d.top.shape? q = some .dir) : d'.top.shape? q = some .dir := by
  refine h.keeps (P := fun e => e.top.shape? q = some .dir) ?_ hd
  intro d d' hs hd
  obtain ⟨e, p, -, ha, hf, hsh, -⟩ := hs.effect
  by_cases hp : q = p
  · subst hp
    obtain ⟨t, es, hat⟩ := Node.shape?_eq_dir.mp hd
    rw [hat] at hf
    obtain ⟨-, t', hn⟩ | rfl := hf.of_dir
    · exact Node.shape?_eq_dir.mpr ⟨t', es, hn⟩
    · exact absurd (List.prefix_refl _) (hq _ ha)
  · rw [hsh q hp fun he => hq p (he ▸ ha)]
    exact hd

/-- Where directories are made and touched only, a place keeps its shape or becomes a directory. -/
theorem Steps.made (hq : ∀ e, allow e q → e = .make ∨ e = .touch) (hs : Spared allow q)
    (h : Steps allow d d') :
    d'.top.shape? q = d.top.shape? q ∨
      allow .make q ∧ d.top.shape? q = none ∧ d'.top.shape? q = some .dir := by
  refine h.keeps (P := fun a => a.top.shape? q = d.top.shape? q ∨
    allow .make q ∧ d.top.shape? q = none ∧ a.top.shape? q = some .dir) ?_ (Or.inl rfl)
  intro a b hab ha
  obtain ⟨e, p, -, hp, hf, hsh, -⟩ := hab.effect
  by_cases hqp : q = p
  · subst hqp
    rcases hq e hp with rfl | rfl
    · obtain ⟨hnone, t, hdir⟩ := hf
      rcases ha with ha | ⟨-, -, ha⟩
      · refine Or.inr ⟨hp, ?_, Node.shape?_eq_dir.mpr ⟨t, [], hdir⟩⟩
        rw [← ha, Node.shape?, hnone]
        rfl
      · rw [Node.shape?, hnone] at ha
        cases ha
    · obtain ⟨t, t', es, hold, hnew⟩ := hf
      have hsame : b.top.shape? q = a.top.shape? q := by
        rw [Node.shape?, Node.shape?, hold, hnew]
        rfl
      rw [hsame]
      exact ha
  · rw [hsh q hqp fun he => hs p (he ▸ hp)]
    exact ha

/-- Where only directories are made, the files stay as they are. -/
theorem Steps.file_iff {c : ByteArray} {m : Nat} {t : Stamp}
    (hq : ∀ e, allow e q → e = .make ∨ e = .touch) (hs : Spared allow q) (h : Steps allow d d') :
    d'.top.at? q = some (.file c m t) ↔ d.top.at? q = some (.file c m t) := by
  rw [← Node.shape?_eq_file, ← Node.shape?_eq_file]
  rcases h.made hq hs with hsame | ⟨-, hnone, hdir⟩
  · rw [hsame]
  · simp [hnone, hdir]

/-- Where things are removed only, a place keeps its shape or becomes vacant. -/
theorem Steps.erased (ha : ∀ e p, allow e p → e = .erase ∨ e = .unlink) (h : Steps allow d d')
    (q : List String) : d'.top.shape? q = d.top.shape? q ∨ d'.top.shape? q = none := by
  refine h.keeps (P := fun a => a.top.shape? q = d.top.shape? q ∨ a.top.shape? q = none) ?_ (Or.inl rfl)
  intro a b hab hold
  obtain ⟨e, p, -, hp, hf, hsh, -⟩ := hab.effect
  by_cases hpre : p <+: q
  · obtain ⟨rest, rfl⟩ := hpre
    have hgone : b.top.at? p = none := by
      rcases ha e p hp with rfl | rfl
      · exact hf.2
      · exact hf.2
    right
    rw [Node.shape?, Node.at?_append, hgone]
    rfl
  · rw [hsh q (fun hqp => hpre (hqp ▸ List.prefix_refl _)) fun _ => hpre]
    exact hold

/-- What a step makes of a file that is spared. -/
theorem Step.file_cases {c : ByteArray} {m : Nat} {t : Stamp} (hs : Spared allow q) (h : Step allow d d')
    (hd : d.top.at? q = some (.file c m t)) :
    d'.top.at? q = some (.file c m t) ∨
      (allow .rewrite q ∧ ∃ c' m' t', d'.top.at? q = some (.file c' m' t')) ∨
      (allow .append q ∧ ∃ c' t', d'.top.at? q = some (.file (c ++ c') m t')) ∨ allow .unlink q := by
  obtain ⟨e, p, -, hp, hf, hsh, -⟩ := h.effect
  by_cases hqp : q = p
  · subst hqp
    rw [hd] at hf
    obtain ⟨rfl, hn⟩ | ⟨rfl, hn⟩ | rfl | rfl := hf.of_file
    · exact Or.inr (Or.inl ⟨hp, hn⟩)
    · exact Or.inr (Or.inr (Or.inl ⟨hp, hn⟩))
    · exact Or.inr (Or.inr (Or.inr hp))
    · exact absurd (List.prefix_refl _) (hs _ hp)
  · left
    rw [← Node.shape?_eq_file, hsh q hqp fun he => hs p (he ▸ hp), Node.shape?_eq_file]
    exact hd

theorem Steps.isFile (hq : Spared allow q) (hu : ¬ allow .unlink q) (h : Steps allow d d')
    (hd : ∃ c m t, d.top.at? q = some (.file c m t)) :
    ∃ c m t, d'.top.at? q = some (.file c m t) := by
  refine h.keeps (P := fun e => ∃ c m t, e.top.at? q = some (.file c m t)) ?_ hd
  rintro d d' hs ⟨c, m, t, hd⟩
  obtain hsame | ⟨-, hnew⟩ | ⟨-, c', t', hnew⟩ | hunlink := hs.file_cases hq hd
  · exact ⟨c, m, t, hsame⟩
  · exact hnew
  · exact ⟨_, m, t', hnew⟩
  · exact absurd hunlink hu

theorem Steps.file {c : ByteArray} {m : Nat} {t : Stamp} (hq : Spared allow q)
    (hr : ¬ allow .rewrite q) (ha : ¬ allow .append q) (hu : ¬ allow .unlink q)
    (h : Steps allow d d') (hd : d.top.at? q = some (.file c m t)) : d'.top.at? q = some (.file c m t) := by
  refine h.keeps (P := fun e => e.top.at? q = some (.file c m t)) ?_ hd
  intro d d' hs hd
  obtain hsame | ⟨hrewrite, -⟩ | ⟨happend, -⟩ | hunlink := hs.file_cases hq hd
  · exact hsame
  · exact absurd hrewrite hr
  · exact absurd happend ha
  · exact absurd hunlink hu

/-- A file that may only be appended to keeps its mode and begins with its old content. -/
theorem Steps.file_append {c : ByteArray} {m : Nat} (hq : Spared allow q)
    (hr : ¬ allow .rewrite q) (hu : ¬ allow .unlink q) (h : Steps allow d d')
    (hd : ∃ t, d.top.at? q = some (.file c m t)) :
    ∃ c' t, d'.top.at? q = some (.file (c ++ c') m t) := by
  have hd : ∃ c' t, d.top.at? q = some (.file (c ++ c') m t) := by
    obtain ⟨t, ht⟩ := hd
    exact ⟨ByteArray.empty, t, by rw [ByteArray.append_empty]; exact ht⟩
  refine h.keeps (P := fun e => ∃ c' t, e.top.at? q = some (.file (c ++ c') m t)) ?_ hd
  rintro d d' hs ⟨c', t, hd⟩
  obtain hsame | ⟨hrewrite, -⟩ | ⟨-, c'', t', hnew⟩ | hunlink := hs.file_cases hq hd
  · exact ⟨c', t, hsame⟩
  · exact absurd hrewrite hr
  · exact ⟨c' ++ c'', t', by rw [← ByteArray.append_assoc]; exact hnew⟩
  · exact absurd hunlink hu

/-- A tree that no allowed edit enters or erases stays the same. -/
theorem Steps.at?_eq (hq : ∀ e p, allow e p → ¬ q <+: p) (hs : Spared allow q)
    (h : Steps allow d d') : d'.top.at? q = d.top.at? q := by
  refine h.keeps (P := fun e => e.top.at? q = d.top.at? q) ?_ rfl
  intro a b hab ha
  obtain ⟨e, p, -, hp, -, -, hat, -⟩ := hab.effect
  exact (hat q (hq e p hp) fun he => hs p (he ▸ hp)).trans ha

/-- A directory that was touched last of all stays so, unless it is touched by itself. -/
theorem Steps.dir_now (hs : Spared allow q) (ht : ¬ allow .touch q) (h : Steps allow d d')
    (hd : ∃ es, d.top.at? q = some (.dir d.now es)) :
    ∃ es, d'.top.at? q = some (.dir d.now es) := by
  suffices hboth : d'.now = d.now ∧ ∃ es, d'.top.at? q = some (.dir d.now es) from hboth.2
  refine h.keeps (P := fun a => a.now = d.now ∧ ∃ es, a.top.at? q = some (.dir d.now es)) ?_ ⟨rfl, hd⟩
  rintro a b hstep ⟨hnow, es, hat⟩
  refine ⟨by rw [now, hstep.clock_eq]; exact hnow, ?_⟩
  obtain ⟨e, p, -, hp, hf, -, hsame, habove⟩ := hstep.effect
  by_cases hqp : q <+: p
  · by_cases he : q = p
    · subst he
      rw [hat] at hf
      obtain ⟨rfl, -⟩ | rfl := hf.of_dir
      · exact absurd hp ht
      · exact absurd (List.prefix_refl _) (hs _ hp)
    · obtain ⟨t', es', hat', rfl | rfl⟩ := habove q _ es hqp he hat
      · exact ⟨es', hat'⟩
      · exact ⟨es', by rw [← hnow]; exact hat'⟩
  · exact ⟨es, by rw [hsame q hqp fun he => hs p (he ▸ hp)]; exact hat⟩

/-- Where directories are and stay, none is made. -/
theorem Steps.drop_makes {Q : List String → Prop} (hQ : ∀ q, Q q → d.top.shape? q = some .dir)
    (hs : ∀ q, Q q → Spared allow q) (h : Steps allow d d') :
    Steps (fun e p => allow e p ∧ (e = .make → ¬ Q p)) d d' := by
  induction h with
  | refl => exact .refl _
  | @tail a b hsteps hstep ih =>
    refine ih.trans (.of_step ?_)
    cases hstep with
    | @edit e above name t es touch f hdir hname hallow hfits htouch =>
      refine .edit hdir hname ⟨hallow, ?_⟩ hfits htouch
      rintro rfl hq
      have hat := Steps.dir (hs _ hq) hsteps (hQ _ hq)
      rw [Node.shape?, Node.at?_append, hdir, Option.bind_some, Node.at?_dir_cons, hfits.1] at hat
      cases hat

/-! ## What edits keep of paths -/

variable {p : Path}

theorem Steps.admits_iff (h : Steps allow d d') : d'.Admits p ↔ d.Admits p := by
  rw [Admits, Admits, h.trail_eq]

/-- A path of which no step may be erased leads where it led. -/
theorem Steps.leads (h : Steps allow d d') (hp : d.top.isPlain = true)
    (hs : ∀ ys, ys <+: d.trail p → Spared allow (climb [] ys).reverse) (hd : d.Leads p) :
    d'.Leads p := by
  rw [leads_iff (Node.linkFree_of_isPlain (h.isPlain hp)), h.trail_eq]
  obtain ⟨hn, hd⟩ := (leads_iff (Node.linkFree_of_isPlain hp)).mp hd
  exact ⟨hn, fun ys hys => h.dir (hs ys hys) (hd ys hys)⟩

end Disk

end Outfitter
