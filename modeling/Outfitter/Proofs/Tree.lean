import Mathlib.Data.List.Basic
import Mathlib.Tactic.Common
import Outfitter.Disk.Node
import Outfitter.Proofs.Path

/-! # Trees, place by place

A tree is seen through what stands at each place. A change at one place shows at that place
and below it; elsewhere a node keeps its shape, which is all of it but for the stamp and the
entries of a directory.
-/

namespace Outfitter

namespace Entries

theorem lookup_map_replace (es : Entries) (name other : String) (n : Node) :
    (es.map fun e => if e.1 = name then (name, n) else e).lookup other =
      if other = name then (es.lookup name).map fun _ => n else es.lookup other := by
  induction es with
  | nil => simp
  | cons e es ih =>
    obtain ⟨k, m⟩ := e
    by_cases hk : k = name
    · subst hk
      by_cases ho : other = k
      · simp [ho]
      · have hb : (other == k) = false := by simpa using ho
        simp only [List.map_cons, if_true, List.lookup_cons, hb, ih, ho, if_false]
    · have hn : (name == k) = false := by simpa using Ne.symm hk
      by_cases ho : other = k
      · subst ho
        simp [hk]
      · have hb : (other == k) = false := by simpa using ho
        simp only [List.map_cons, hk, if_false, List.lookup_cons, hb, hn, ih]

theorem lookup_put (es : Entries) (name other : String) (n : Node) :
    (put es name n).lookup other = if other = name then some n else es.lookup other := by
  unfold put
  split
  · next h =>
    obtain ⟨m, hm⟩ := Option.isSome_iff_exists.mp h
    rw [lookup_map_replace, hm, Option.map_some]
  · by_cases ho : other = name
    · simp [ho]
    · have hb : (other == name) = false := by simpa using ho
      simp only [List.lookup_cons, hb, ho, if_false]

theorem lookup_erase (es : Entries) (name other : String) :
    (erase es name).lookup other = if other = name then none else es.lookup other := by
  induction es with
  | nil => simp [erase]
  | cons e es ih =>
    obtain ⟨k, m⟩ := e
    rw [erase] at ih ⊢
    by_cases hk : k = name
    · subst hk
      rw [List.filter_cons_of_neg (by simp), ih, List.lookup_cons]
      by_cases ho : other = k
      · simp [ho]
      · have hb : (other == k) = false := by simpa using ho
        simp [ho, hb]
    · rw [List.filter_cons_of_pos (by simpa using hk), List.lookup_cons, ih, List.lookup_cons]
      by_cases ho : other = k
      · subst ho; simp [hk]
      · have hb : (other == k) = false := by simpa using ho
        simp [hb]

theorem lookup_set (es : Entries) (name other : String) (o : Option Node) :
    (set es name o).lookup other = if other = name then o else es.lookup other := by
  cases o with
  | none => exact lookup_erase es name other
  | some n => exact lookup_put es name other n

theorem lookup_of_mem {es : Entries} (h : (es.map Prod.fst).Nodup) {e : String × Node} (he : e ∈ es) :
    es.lookup e.1 = some e.2 := by
  induction es with
  | nil => cases he
  | cons x es ih =>
    rw [List.map_cons, List.nodup_cons] at h
    rcases List.mem_cons.mp he with rfl | he
    · rw [List.lookup_cons, beq_self_eq_true]
    · have hne : (e.1 == x.1) = false := by
        rw [beq_eq_false_iff_ne]
        intro hc
        exact h.1 (hc ▸ List.mem_map_of_mem he)
      rw [List.lookup_cons, hne]
      exact ih h.2 he

end Entries

/-- What stands at a place, without what a directory holds. -/
inductive Shape where
  | file (content : ByteArray) (mode : Nat) (stamp : Stamp)
  | link (target : Path)
  | dir

namespace Node

def shape : Node → Shape
  | file content mode stamp => .file content mode stamp
  | link target => .link target
  | dir .. => .dir

/-- The shape of the node at a place. -/
def shape? (n : Node) (place : List String) : Option Shape := (n.at? place).map shape

variable {n m : Node} {above place q rest : List String} {name : String} {t : Stamp} {es : Entries}
  {touch : Option Stamp} {f : Option Node → Option Node}

@[simp] theorem at?_nil (n : Node) : n.at? [] = some n := by
  cases n <;> rfl

@[simp] theorem at?_dir_cons (t : Stamp) (es : Entries) (name : String) (rest : List String) :
    (Node.dir t es).at? (name :: rest) = (es.lookup name).bind (·.at? rest) := rfl

theorem at?_append (n : Node) (a b : List String) : n.at? (a ++ b) = (n.at? a).bind (·.at? b) := by
  induction a generalizing n with
  | nil => simp
  | cons name a ih =>
    cases n with
    | file => rfl
    | link => rfl
    | dir t es =>
      rw [List.cons_append, at?_dir_cons, at?_dir_cons]
      cases es.lookup name with
      | none => rfl
      | some m => exact ih m

theorem at?_concat (n : Node) (above : List String) (name : String) :
    n.at? (above ++ [name]) = some m ↔
      ∃ t es, n.at? above = some (.dir t es) ∧ es.lookup name = some m := by
  rw [at?_append, Option.bind_eq_some_iff]
  constructor
  · rintro ⟨k, hk, hm⟩
    cases k with
    | file => cases hm
    | link => cases hm
    | dir t es =>
      rw [at?_dir_cons] at hm
      obtain ⟨k, hl, hk'⟩ := Option.bind_eq_some_iff.mp hm
      rw [at?_nil] at hk'
      exact ⟨t, es, hk, hk' ▸ hl⟩
  · rintro ⟨t, es, hd, hl⟩
    exact ⟨_, hd, by rw [at?_dir_cons, hl]; exact at?_nil m⟩

theorem at?_child (h : n.at? above = some (.dir t es)) : n.at? (above ++ [name]) = es.lookup name := by
  rw [at?_append, h, Option.bind_some, at?_dir_cons]
  cases es.lookup name <;> simp

/-- What stands below something is below a directory. -/
theorem isDir_of_at?_append (hq : q ≠ []) (h : n.at? (place ++ q) = some m) :
    ∃ t es, n.at? place = some (.dir t es) := by
  rw [at?_append] at h
  obtain ⟨k, hk, hm⟩ := Option.bind_eq_some_iff.mp h
  obtain ⟨name, rest, rfl⟩ := List.exists_cons_of_ne_nil hq
  cases k with
  | file => cases hm
  | link => cases hm
  | dir t es => exact ⟨t, es, hk⟩

/-! ## Changes at a place -/

theorem alter_cons (hr : rest ≠ []) :
    (Node.dir t es).alter touch f (name :: rest) =
      match es.lookup name with
      | some n => .dir t (Entries.put es name (n.alter touch f rest))
      | none => .dir t es := by
  obtain ⟨a, rest, rfl⟩ := List.exists_cons_of_ne_nil hr
  rfl

theorem at?_alter_self (h : n.at? above = some (.dir t es)) :
    (n.alter touch f (above ++ [name])).at? (above ++ name :: rest) =
      (f (es.lookup name)).bind (·.at? rest) := by
  induction above generalizing n with
  | nil =>
    rw [at?_nil, Option.some.injEq] at h
    subst h
    rw [List.nil_append, List.nil_append, alter, at?_dir_cons, Entries.lookup_set, if_pos rfl]
  | cons a above ih =>
    cases n with
    | file => cases h
    | link => cases h
    | dir t' es' =>
      rw [at?_dir_cons] at h
      obtain ⟨k, hl, hk⟩ := Option.bind_eq_some_iff.mp h
      rw [List.cons_append, List.cons_append, alter_cons (by simp), hl]
      show (Node.dir t' (Entries.put es' a _)).at? _ = _
      rw [at?_dir_cons, Entries.lookup_put, if_pos rfl, Option.bind_some, ih hk]

/-- What stands above a change is a directory before and after it, with the stamp that it had or the
one it is touched with; what a change neither is in nor holds stays the same. -/
theorem at?_alter (h : ¬ place <+: q) :
    (n.alter touch f place).at? q = n.at? q ∨
      q <+: place ∧ ∃ t es t' es', n.at? q = some (.dir t es) ∧
        (n.alter touch f place).at? q = some (.dir t' es') ∧ (t' = t ∨ touch = some t') := by
  induction place generalizing n q with
  | nil => exact absurd List.nil_prefix h
  | cons a place ih =>
    cases n with
    | file => exact Or.inl rfl
    | link => exact Or.inl rfl
    | dir t es =>
      match q with
      | [] =>
        refine Or.inr ⟨List.nil_prefix, t, es, ?_⟩
        by_cases hp : place = []
        · subst hp
          refine ⟨touch.getD t, _, rfl, rfl, ?_⟩
          cases touch with
          | none => exact Or.inl rfl
          | some s => exact Or.inr rfl
        · rw [alter_cons hp]
          cases es.lookup a with
          | none => exact ⟨t, _, rfl, rfl, Or.inl rfl⟩
          | some m => exact ⟨t, _, rfl, rfl, Or.inl rfl⟩
      | b :: q =>
        by_cases hp : place = []
        · subst hp
          have hb : b ≠ a := by
            rintro rfl
            exact h (by simp)
          left
          rw [alter, at?_dir_cons, Entries.lookup_set, if_neg hb, at?_dir_cons]
        · rw [alter_cons hp]
          cases hl : es.lookup a with
          | none => exact Or.inl rfl
          | some m =>
            show (Node.dir t (Entries.put es a _)).at? _ = _ ∨ _ ∧ ∃ _ _ _ _, _ ∧
              (Node.dir t (Entries.put es a _)).at? _ = _ ∧ _
            rw [at?_dir_cons, at?_dir_cons, Entries.lookup_put]
            by_cases hb : b = a
            · subst hb
              rw [if_pos rfl, hl, List.cons_prefix_cons, Option.bind_some, Option.bind_some]
              obtain hsame | ⟨hpre, hdirs⟩ := ih fun hp => h (List.cons_prefix_cons.mpr ⟨rfl, hp⟩)
              · exact Or.inl hsame
              · exact Or.inr ⟨⟨rfl, hpre⟩, hdirs⟩
            · rw [if_neg hb]
              exact Or.inl rfl

theorem shape?_alter (h : ¬ place <+: q) : (n.alter touch f place).shape? q = n.shape? q := by
  obtain hsame | ⟨-, _, _, _, _, hn, hn', -⟩ := at?_alter h
  · rw [shape?, hsame, shape?]
  · rw [shape?, hn', shape?, hn]
    rfl

/-- A node that a change neither is in nor holds stays the same. -/
theorem at?_alter_of_disjoint (h : ¬ place <+: q) (h' : ¬ q <+: place) :
    (n.alter touch f place).at? q = n.at? q :=
  (at?_alter h).resolve_right fun hc => h' hc.1

/-- A directory above a change has the stamp that it had, or the one it is touched with. -/
theorem dir_alter (h : n.at? q = some (.dir t es)) (hq : q <+: above) :
    ∃ t' es', (n.alter touch f (above ++ [name])).at? q = some (.dir t' es') ∧
      (t' = t ∨ touch = some t') := by
  have hpre : ¬ above ++ [name] <+: q := by
    intro hc
    have hle := (hc.trans hq).length_le
    rw [List.length_append, List.length_singleton] at hle
    omega
  obtain hsame | ⟨-, _, _, t', es', hn, hn', ht⟩ := at?_alter hpre
  · exact ⟨t, es, hsame.trans h, Or.inl rfl⟩
  · rw [h, Option.some.injEq, Node.dir.injEq] at hn
    exact ⟨t', es', hn', hn.1 ▸ ht⟩

theorem alter_congr {g : Option Node → Option Node} (h : f (n.at? place) = g (n.at? place)) :
    n.alter touch f place = n.alter touch g place := by
  induction place generalizing n with
  | nil => cases n <;> rfl
  | cons a place ih =>
    cases n with
    | file => rfl
    | link => rfl
    | dir t es =>
      rw [at?_dir_cons] at h
      by_cases hp : place = []
      · subst hp
        have hb : (es.lookup a).bind (·.at? []) = es.lookup a := by
          cases es.lookup a <;> simp
        rw [hb] at h
        rw [alter, alter, h]
      · rw [alter_cons hp, alter_cons hp]
        cases hl : es.lookup a with
        | none => rfl
        | some m =>
          rw [hl, Option.bind_some] at h
          show Node.dir t (Entries.put es a _) = Node.dir t (Entries.put es a _)
          rw [ih h]

/-! ## Plain trees -/

mutual

/-- A tree without links in which the names of each directory are names and differ. -/
def isPlain : Node → Bool
  | file .. => true
  | link _ => false
  | dir _ entries => isPlainEntries entries

def isPlainEntries : List (String × Node) → Bool
  | [] => true
  | (name, n) :: rest =>
    isName name && !rest.any (·.1 == name) && n.isPlain && isPlainEntries rest

end

theorem isPlainEntries_iff :
    isPlainEntries es = true ↔
      (es.map Prod.fst).Nodup ∧ ∀ e ∈ es, isName e.1 = true ∧ e.2.isPlain = true := by
  induction es with
  | nil => simp [isPlainEntries]
  | cons e es ih =>
    obtain ⟨name, n⟩ := e
    rw [isPlainEntries]
    simp only [Bool.and_eq_true, Bool.not_eq_true', ih, List.map_cons, List.nodup_cons,
      List.forall_mem_cons]
    have hm : (es.any (·.1 == name)) = false ↔ name ∉ es.map Prod.fst := by
      simp only [List.any_eq_false, beq_iff_eq, List.mem_map, not_exists, not_and]
    rw [hm]
    tauto

theorem isPlain_dir_iff :
    (Node.dir t es).isPlain = true ↔
      (es.map Prod.fst).Nodup ∧ ∀ e ∈ es, isName e.1 = true ∧ e.2.isPlain = true :=
  isPlainEntries_iff

end Node

theorem Entries.mem_of_lookup {es : Entries} {name : String} {n : Node}
    (h : es.lookup name = some n) : (name, n) ∈ es := by
  induction es with
  | nil => cases h
  | cons e es ih =>
    obtain ⟨k, m⟩ := e
    rw [List.lookup_cons] at h
    by_cases hk : name = k
    · subst hk
      simp only [beq_self_eq_true] at h
      cases h
      exact List.mem_cons_self
    · have hb : (name == k) = false := by simpa using hk
      rw [hb] at h
      exact List.mem_cons_of_mem _ (ih h)

namespace Node

variable {n m : Node} {above place q rest : List String} {name : String} {t : Stamp} {es : Entries}
  {touch : Option Stamp} {f : Option Node → Option Node}

/-- Whether a tree is of some kind is a matter of its directories: their names are names and differ, and
what they hold is of that kind. -/
def Hereditary (kind : Node → Prop) : Prop :=
  ∀ t es, kind (.dir t es) ↔ (es.map Prod.fst).Nodup ∧ ∀ e ∈ es, isName e.1 = true ∧ kind e.2

namespace Hereditary

variable {kind : Node → Prop}

theorem of_lookup (hk : Hereditary kind) (h : kind (.dir t es)) (hl : es.lookup name = some n) :
    isName name = true ∧ kind n :=
  ((hk t es).mp h).2 _ (Entries.mem_of_lookup hl)

theorem of_at? (hk : Hereditary kind) (h : kind n) (hp : n.at? place = some m) :
    (∀ s ∈ place, isName s = true) ∧ kind m := by
  induction place generalizing n with
  | nil =>
    rw [at?_nil, Option.some.injEq] at hp
    exact ⟨by simp, hp ▸ h⟩
  | cons a place ih =>
    cases n with
    | file => cases hp
    | link => cases hp
    | dir t es =>
      obtain ⟨k, hl, hat⟩ := Option.bind_eq_some_iff.mp hp
      obtain ⟨ha, hn⟩ := hk.of_lookup h hl
      obtain ⟨hs, hm⟩ := ih hn hat
      exact ⟨List.forall_mem_cons.mpr ⟨ha, hs⟩, hm⟩

theorem put (hk : Hereditary kind) (h : kind (.dir t es)) (hn : kind n) (hname : isName name = true) (t' : Stamp) :
    kind (.dir t' (Entries.put es name n)) := by
  obtain ⟨hd, hp⟩ := (hk t es).mp h
  rw [hk]
  unfold Entries.put
  split
  · constructor
    · have he : (es.map fun e => if e.1 = name then (name, n) else e).map Prod.fst =
          es.map Prod.fst := by
        rw [List.map_map]
        apply List.map_congr_left
        intro e _
        by_cases hk : e.1 = name <;> simp [hk]
      rwa [he]
    · intro e he
      obtain ⟨k, hmem, rfl⟩ := List.mem_map.mp he
      split
      · exact ⟨hname, hn⟩
      · exact hp k hmem
  · next hs =>
    constructor
    · rw [List.map_cons, List.nodup_cons]
      refine ⟨?_, hd⟩
      intro hm
      obtain ⟨e, he, rfl⟩ := List.mem_map.mp hm
      exact hs (List.lookup_isSome_iff.mpr ⟨e, he, by simp⟩)
    · exact List.forall_mem_cons.mpr ⟨⟨hname, hn⟩, hp⟩

theorem erase (hk : Hereditary kind) (h : kind (.dir t es)) (t' : Stamp) :
    kind (.dir t' (Entries.erase es name)) := by
  obtain ⟨hd, hp⟩ := (hk t es).mp h
  rw [hk]
  constructor
  · exact (List.filter_sublist.map Prod.fst).nodup hd
  · intro e he
    exact hp e (List.mem_of_mem_filter he)

/-- A change that puts a tree of the kind under a name, or nothing, keeps a tree of the kind. -/
theorem alter (hk : Hereditary kind) (h : kind n) (hname : isName name = true)
    (hf : ∀ m, f (n.at? (above ++ [name])) = some m → kind m) : kind (n.alter touch f (above ++ [name])) := by
  induction above generalizing n with
  | nil =>
    cases n with
    | file => exact h
    | link => exact h
    | dir t es =>
      have hb : (Node.dir t es).at? ([] ++ [name]) = es.lookup name := by
        rw [List.nil_append, at?_dir_cons]
        cases es.lookup name <;> simp
      rw [hb] at hf
      rw [List.nil_append, Node.alter]
      cases ho : f (es.lookup name) with
      | none => exact hk.erase h _
      | some m => exact hk.put h (hf m ho) hname _
  | cons a above ih =>
    cases n with
    | file => exact h
    | link => exact h
    | dir t es =>
      rw [List.cons_append, alter_cons (by simp)]
      cases hl : es.lookup a with
      | none => exact h
      | some k =>
        obtain ⟨ha, hk'⟩ := hk.of_lookup h hl
        refine hk.put h (ih hk' ?_) ha _
        simpa [hl] using hf

end Hereditary

theorem hereditary_isPlain : Hereditary fun n => n.isPlain = true := fun _ _ => isPlain_dir_iff

theorem isPlain_of_lookup (h : (Node.dir t es).isPlain = true) (hl : es.lookup name = some n) :
    isName name = true ∧ n.isPlain = true :=
  hereditary_isPlain.of_lookup h hl

theorem isPlain_of_at? (h : n.isPlain = true) (hp : n.at? place = some m) :
    (∀ s ∈ place, isName s = true) ∧ m.isPlain = true :=
  hereditary_isPlain.of_at? h hp

/-- A change that puts a plain tree under a name keeps a tree plain. -/
theorem isPlain_alter (h : n.isPlain = true) (hname : isName name = true)
    (hf : ∀ m, f (n.at? (above ++ [name])) = some m → m.isPlain = true) :
    (n.alter touch f (above ++ [name])).isPlain = true :=
  hereditary_isPlain.alter h hname hf

/-! ## Trees without links -/

/-- No link stands at any place. -/
def LinkFree (n : Node) : Prop := ∀ place target, n.at? place ≠ some (.link target)

theorem linkFree_of_isPlain (h : n.isPlain = true) : n.LinkFree := by
  intro place target hl
  cases (isPlain_of_at? h hl).2

/-! ## Shapes -/

theorem shape?_eq_file {c : ByteArray} {m : Nat} {t : Stamp} :
    n.shape? q = some (.file c m t) ↔ n.at? q = some (.file c m t) := by
  rw [Node.shape?]
  constructor
  · intro h
    obtain ⟨k, hk, hs⟩ := Option.map_eq_some_iff.mp h
    cases k <;> cases hs
    exact hk
  · intro h
    rw [h]; rfl

theorem shape?_eq_dir :
    n.shape? q = some .dir ↔ ∃ t es, n.at? q = some (.dir t es) := by
  rw [Node.shape?]
  constructor
  · intro h
    obtain ⟨k, hk, hs⟩ := Option.map_eq_some_iff.mp h
    cases k <;> cases hs
    exact ⟨_, _, hk⟩
  · rintro ⟨t, es, h⟩
    rw [h]; rfl

theorem shape?_eq_link {target : Path} :
    n.shape? q = some (.link target) ↔ n.at? q = some (.link target) := by
  rw [Node.shape?]
  constructor
  · intro h
    obtain ⟨k, hk, hs⟩ := Option.map_eq_some_iff.mp h
    cases k <;> cases hs
    exact hk
  · intro h
    rw [h]; rfl

theorem dir_above (h : n.at? (above ++ [name]) = some m) : n.shape? above = some .dir := by
  obtain ⟨t, es, hat, -⟩ := (at?_concat _ _ _).mp h
  exact shape?_eq_dir.mpr ⟨t, es, hat⟩

/-- In a plain tree there is a directory where something is that is no file. -/
theorem shape?_of_not_file (h : n.isPlain = true) (hf : ∀ c m t, n.at? q ≠ some (.file c m t)) :
    n.shape? q = none ∨ n.shape? q = some .dir := by
  rw [Node.shape?]
  cases hat : n.at? q with
  | none => exact Or.inl rfl
  | some k =>
    cases k with
    | file c m t => exact absurd hat (hf c m t)
    | link target => exact absurd (isPlain_of_at? h hat).2 (by simp [isPlain])
    | dir t es => exact Or.inr rfl

end Node

end Outfitter
