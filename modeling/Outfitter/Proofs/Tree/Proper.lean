import Outfitter.Proofs.Tree

/-! # Proper trees

A tree is proper if a file system could hold it: the names of each directory are names and differ,
and what links hold are texts between slashes. Links may lead anywhere.
-/

namespace Outfitter

namespace Entries

variable {es : Entries} {name : String} {n m : Node}

/-- Of two nodes that are put under one name, the last one stays. -/
theorem put_put (es : Entries) (name : String) (n m : Node) : put (put es name n) name m = put es name m := by
  have hthere : ((put es name n).lookup name).isSome = true := by rw [lookup_put, if_pos rfl]; rfl
  rw [put, if_pos hthere]
  unfold put
  split
  · rw [List.map_map]
    apply List.map_congr_left
    intro e _
    by_cases he : e.1 = name <;> simp [he]
  · next hnone =>
    rw [List.map_cons, if_pos rfl]
    congr 1
    conv_rhs => rw [← List.map_id es]
    apply List.map_congr_left
    intro e he
    have hne : e.1 ≠ name := by
      rintro rfl
      exact hnone (List.lookup_isSome_iff.mpr ⟨e, he, beq_self_eq_true _⟩)
    rw [if_neg hne, id]

theorem put_self (hd : (es.map Prod.fst).Nodup) (h : es.lookup name = some n) : put es name n = es := by
  have hthere : (es.lookup name).isSome = true := by rw [h]; rfl
  rw [put, if_pos hthere]
  conv_rhs => rw [← List.map_id es]
  apply List.map_congr_left
  rintro ⟨other, m⟩ he
  by_cases hname : other = name
  · subst hname
    cases h.symm.trans (lookup_of_mem hd he)
    rw [if_pos rfl, id]
  · rw [if_neg hname, id]

end Entries

namespace Node

mutual

/-- A tree that a file system could hold. -/
def isProper : Node → Bool
  | file .. => true
  | link target => target.segments.all fun s => !s.toList.contains '/'
  | dir _ entries => isProperEntries entries

def isProperEntries : List (String × Node) → Bool
  | [] => true
  | (name, n) :: rest =>
    isName name && !rest.any (·.1 == name) && n.isProper && isProperEntries rest

end

variable {n m : Node} {above place : List String} {name : String} {t : Stamp} {es : Entries}
  {touch : Option Stamp} {f : Option Node → Option Node}

theorem isProper_dir_iff :
    (Node.dir t es).isProper = true ↔
      (es.map Prod.fst).Nodup ∧ ∀ e ∈ es, isName e.1 = true ∧ e.2.isProper = true := by
  show isProperEntries es = true ↔ _
  induction es with
  | nil => simp [isProperEntries]
  | cons e es ih =>
    obtain ⟨name, n⟩ := e
    have hfresh : (es.any (·.1 == name)) = false ↔ name ∉ es.map Prod.fst := by
      simp only [List.any_eq_false, beq_iff_eq, List.mem_map, not_exists, not_and]
    simp only [isProperEntries, Bool.and_eq_true, Bool.not_eq_true', ih, List.map_cons, List.nodup_cons,
      List.forall_mem_cons, hfresh]
    tauto

theorem named_of_isProper {target : Path} (h : (Node.link target).isProper = true) : target.Named := by
  intro s hs
  obtain ⟨hmem, hidle⟩ := List.mem_filter.mp hs
  have hslash := List.all_eq_true.mp h s hmem
  by_cases hup : s = ".."
  · exact Or.inl hup
  · refine Or.inr (isName_iff.mpr ?_)
    simp only [Path.isIdle, Bool.not_eq_true', Bool.or_eq_false_iff, beq_eq_false_iff_ne] at hidle
    exact ⟨hidle.1, hidle.2, hup, by simpa using hslash⟩

theorem hereditary_isProper : Hereditary fun n => n.isProper = true := fun _ _ => isProper_dir_iff

/-! ## Directories that are listed anew -/

/-- What changes in a directory changes the directory. -/
theorem alter_concat (hne : place ≠ []) (h : n.at? place = some (.dir t es)) :
    n.alter touch f (place ++ [name]) =
      n.alter none (fun _ => some (.dir (touch.getD t) (Entries.set es name (f (es.lookup name))))) place := by
  induction place generalizing n with
  | nil => exact absurd rfl hne
  | cons a place ih =>
    cases n with
    | file => cases h
    | link => cases h
    | dir t' es' =>
      obtain ⟨k, hl, hk⟩ := Option.bind_eq_some_iff.mp h
      rw [List.cons_append, alter_cons (by simp), hl]
      by_cases hp : place = []
      · subst hp
        rw [at?_nil, Option.some.injEq] at hk
        subst hk
        rfl
      · rw [alter_cons hp, hl]
        show Node.dir t' (Entries.put es' a _) = Node.dir t' (Entries.put es' a _)
        rw [ih hp hk]

/-- Of two nodes that come to one place, the last one stays. -/
theorem alter_alter (n : Node) (place : List String) (m m' : Node) :
    (n.alter none (fun _ => some m) place).alter none (fun _ => some m') place =
      n.alter none (fun _ => some m') place := by
  induction place generalizing n with
  | nil => cases n <;> rfl
  | cons a place ih =>
    cases n with
    | file => rfl
    | link => rfl
    | dir t es =>
      by_cases hp : place = []
      · subst hp
        exact congrArg (Node.dir t) (Entries.put_put es a m m')
      · rw [alter_cons hp, alter_cons hp]
        cases hl : es.lookup a with
        | none => rw [alter_cons hp, hl]
        | some k =>
          show (Node.dir t (Entries.put es a _)).alter _ _ _ = Node.dir t (Entries.put es a _)
          rw [alter_cons hp, Entries.lookup_put, if_pos rfl]
          show Node.dir t (Entries.put (Entries.put es a _) a _) = _
          rw [Entries.put_put, ih]

theorem alter_self (hp : n.isProper = true) (hne : place ≠ []) (h : n.at? place = some m) :
    n.alter none (fun _ => some m) place = n := by
  induction place generalizing n with
  | nil => exact absurd rfl hne
  | cons a place ih =>
    cases n with
    | file => rfl
    | link => rfl
    | dir t es =>
      obtain ⟨k, hl, hk⟩ := Option.bind_eq_some_iff.mp h
      obtain ⟨hd, hes⟩ := isProper_dir_iff.mp hp
      by_cases hp : place = []
      · subst hp
        rw [at?_nil, Option.some.injEq] at hk
        subst hk
        rw [alter]
        exact congrArg (Node.dir t) (Entries.put_self hd hl)
      · rw [alter_cons hp, hl]
        show Node.dir t (Entries.put es a _) = Node.dir t es
        rw [ih (hes _ (Entries.mem_of_lookup hl)).2 hp hk, Entries.put_self hd hl]

end Node

end Outfitter
