import Mathlib.Data.List.Nodup
import Outfitter.Proofs.Walk.Met

/-! # The tour of a walk

Through a tree whose directories keep their entries a walk makes a tour: it meets everything that is
below its start, each once. What one visit preserves, given all that was visited before it, the whole
walk preserves.
-/

namespace Outfitter.Walk

open Disk Action

variable {σ : Type} {o : Options} {visit : Visitor σ} {start : Path} {below rel : List String} {name : String}
  {d : Disk} {n n₀ m : Node} {t : Stamp} {es : Entries} {room : Nat} {k : Kind}

/-- What a walk meets at and below a node, by the names that lead there from the start. -/
def tour (o : Options) : Nat → List String → Node → List (List String × Kind)
  | room + 1, below, .dir _ es =>
    (below, .dir) :: (inOrder o es).flatMap fun e =>
      ((es.lookup e.1).map (tour o room (below ++ [e.1]))).getD []
  | _, below, n => [(below, kindOf n)]

theorem tour_of_leaf (h : ∀ t es, n ≠ .dir t es) : tour o room below n = [(below, kindOf n)] := by
  cases n with
  | dir t es => exact absurd rfl (h t es)
  | file => cases room <;> rfl
  | link => cases room <;> rfl

/-- No directory lies deeper than the room allows. -/
def Shallow (room : Nat) (n : Node) : Prop := ∀ rel t es, n.at? rel = some (.dir t es) → rel.length < room

theorem Shallow.child (h : Shallow (room + 1) (.dir t es)) (hl : es.lookup name = some n) : Shallow room n := by
  intro rel t' es' hat
  have hlong := h (name :: rel) t' es' (by rw [Node.at?_dir_cons, hl]; exact hat)
  simpa using hlong

theorem at?_of_leaf (h : ∀ t es, n ≠ .dir t es) : n.at? rel = some m ↔ rel = [] ∧ m = n := by
  cases rel with
  | nil => simp [eq_comm]
  | cons a rel =>
    cases n with
    | dir t es => exact absurd rfl (h t es)
    | file => simp [Node.at?]
    | link => simp [Node.at?]

theorem mem_inOrder (hp : (Node.dir t es).isProper = true) :
    (name, k) ∈ inOrder o es ↔ ∃ n, es.lookup name = some n ∧ k = kindOf n := by
  obtain ⟨hnodup, -⟩ := Node.isProper_dir_iff.mp hp
  rw [(perm_inOrder o es).mem_iff, List.mem_map]
  constructor
  · rintro ⟨e, he, heq⟩
    cases heq
    exact ⟨e.2, Entries.lookup_of_mem hnodup he, rfl⟩
  · rintro ⟨n, hl, rfl⟩
    exact ⟨(name, n), Entries.mem_of_lookup hl, rfl⟩

theorem mem_tour_of_leaf (h : ∀ t es, n ≠ .dir t es) :
    (rel, k) ∈ tour o room below n ↔ ∃ down m, rel = below ++ down ∧ n.at? down = some m ∧ k = kindOf m := by
  simp [tour_of_leaf h, at?_of_leaf h]

theorem leaf_of_shallow (h : Shallow 0 n) : ∀ t es, n ≠ .dir t es := by
  rintro t es rfl
  exact absurd (h [] t es rfl) (by simp)

/-- A tour meets what is at or below a node. -/
theorem mem_tour (hp : n.isProper = true) (hs : Shallow room n) :
    (rel, k) ∈ tour o room below n ↔ ∃ down m, rel = below ++ down ∧ n.at? down = some m ∧ k = kindOf m := by
  induction room generalizing below n with
  | zero => exact mem_tour_of_leaf (leaf_of_shallow hs)
  | succ room ih =>
    cases n with
    | file c mode t => exact mem_tour_of_leaf (by simp)
    | link target => exact mem_tour_of_leaf (by simp)
    | dir t es =>
      rw [tour, List.mem_cons, List.mem_flatMap]
      constructor
      · rintro (heq | ⟨⟨name, kind⟩, he, hmem⟩)
        · cases heq
          exact ⟨[], _, by simp, rfl, rfl⟩
        · obtain ⟨n, hl, -⟩ := (mem_inOrder hp).mp he
          rw [hl] at hmem
          obtain ⟨down, m, rfl, hat, rfl⟩ := (ih (Node.hereditary_isProper.of_lookup hp hl).2 (hs.child hl)).mp hmem
          exact ⟨name :: down, m, by simp, by rw [Node.at?_dir_cons, hl]; exact hat, rfl⟩
      · rintro ⟨down, m, rfl, hat, rfl⟩
        cases down with
        | nil =>
          cases hat
          exact Or.inl (by simp [kindOf])
        | cons name down =>
          obtain ⟨n, hl, hm⟩ := Option.bind_eq_some_iff.mp hat
          refine Or.inr ⟨(name, kindOf n), (mem_inOrder hp).mpr ⟨n, hl, rfl⟩, ?_⟩
          rw [hl]
          exact (ih (Node.hereditary_isProper.of_lookup hp hl).2 (hs.child hl)).mpr ⟨down, m, by simp, hm, rfl⟩

/-- It meets each thing once. -/
theorem nodup_tour (hp : n.isProper = true) (hs : Shallow room n) : (tour o room below n).Nodup := by
  induction room generalizing below n with
  | zero =>
    rw [tour_of_leaf (leaf_of_shallow hs)]
    exact List.nodup_singleton _
  | succ room ih =>
    cases n with
    | file c mode t => exact List.nodup_singleton _
    | link target => exact List.nodup_singleton _
    | dir t es =>
      have hbelow (name : String) (k : Kind) (he : (name, k) ∈ inOrder o es) :
          ∃ n, es.lookup name = some n ∧ n.isProper = true ∧ Shallow room n := by
        obtain ⟨n, hl, -⟩ := (mem_inOrder hp).mp he
        exact ⟨n, hl, (Node.hereditary_isProper.of_lookup hp hl).2, hs.child hl⟩
      rw [tour, List.nodup_cons, List.nodup_flatMap]
      refine ⟨?_, ?_, ?_⟩
      · rw [List.mem_flatMap]
        rintro ⟨⟨name, kind⟩, he, hmem⟩
        obtain ⟨n, hl, hn, hs⟩ := hbelow name kind he
        rw [hl] at hmem
        obtain ⟨down, m, heq, -⟩ := (mem_tour hn hs).mp hmem
        simp at heq
      · rintro ⟨name, kind⟩ he
        obtain ⟨n, hl, hn, hs⟩ := hbelow name kind he
        rw [hl]
        exact ih hn hs
      · have hnames : ((inOrder o es).map Prod.fst).Nodup := by
          rw [((perm_inOrder o es).map Prod.fst).nodup_iff, List.map_map]
          exact (Node.isProper_dir_iff.mp hp).1
        refine (List.pairwise_map.mp hnames).imp_of_mem ?_
        rintro ⟨name, kind⟩ ⟨name', kind'⟩ he he' hne ⟨rel, k⟩ hi hi'
        obtain ⟨n, hl, hn, hs⟩ := hbelow name kind he
        obtain ⟨n', hl', hn', hs'⟩ := hbelow name' kind' he'
        dsimp only at hi hi'
        rw [hl] at hi
        rw [hl'] at hi'
        obtain ⟨down, m, heq, -⟩ := (mem_tour hn hs).mp hi
        obtain ⟨down', m', heq', -⟩ := (mem_tour hn' hs').mp hi'
        rw [heq] at heq'
        simp at heq'
        exact hne heq'.1

section Files

variable {choice : List String × Kind → Bool} {met : List (List String × Kind)}

/-- What a choice takes of what a walk met. -/
def filesOf (choice : List String × Kind → Bool) (met : List (List String × Kind)) : List (List String) :=
  (met.filter choice).map Prod.fst

theorem filesOf_concat (met : List (List String × Kind)) (i : List String × Kind) :
    filesOf choice (met ++ [i]) = if choice i then filesOf choice met ++ [i.1] else filesOf choice met := by
  rw [filesOf, List.filter_append, List.map_append]
  split
  · next h => rw [List.filter_cons_of_pos h]; rfl
  · next h => rw [List.filter_cons_of_neg h]; exact List.append_nil _

theorem mem_filesOf (hc : ∀ i, choice i = true → i.2 = .file) :
    rel ∈ filesOf choice met ↔ (rel, .file) ∈ met ∧ choice (rel, .file) = true := by
  rw [filesOf, List.mem_map]
  constructor
  · rintro ⟨⟨rel, k⟩, hmem, rfl⟩
    obtain ⟨hmet, hchoice⟩ := List.mem_filter.mp hmem
    obtain rfl : k = .file := hc _ hchoice
    exact ⟨hmet, hchoice⟩
  · rintro ⟨hmet, hchoice⟩
    exact ⟨(rel, .file), List.mem_filter.mpr ⟨hmet, hchoice⟩, rfl⟩

theorem nodup_filesOf (hc : ∀ i, choice i = true → i.2 = .file) (h : met.Nodup) : (filesOf choice met).Nodup := by
  refine (h.filter _).map_on ?_
  rintro ⟨rel, k⟩ hmem ⟨rel', k'⟩ hmem' rfl
  have hk := hc _ (List.mem_filter.mp hmem).2
  have hk' := hc _ (List.mem_filter.mp hmem').2
  exact congrArg (Prod.mk rel) (hk.trans hk'.symm)

end Files

section Runs

variable {I : List (List String × Kind) → σ → Disk → Prop} {whole done : List (List String × Kind)} {s : σ}

/-- A walk through the entries of a directory, once each of them is walked through. -/
theorem runs_entries {g : σ → String × Kind → Action σ} {f : String × Kind → List (List String × Kind)}
    {entries : List (String × Kind)}
    (hg : ∀ e ∈ entries, ∀ done s d, I done s d → done ++ f e <+: whole →
      ∃ s' d', (g s e).on d = (.ok s', d') ∧ I (done ++ f e) s' d')
    (hi : I done s d) (hwhole : done ++ entries.flatMap f <+: whole) :
    ∃ s' d', (entries.foldlM g s).on d = (.ok s', d') ∧ I (done ++ entries.flatMap f) s' d' := by
  induction entries generalizing done s d with
  | nil => exact ⟨s, d, rfl, by simpa using hi⟩
  | cons e entries ih =>
    rw [List.flatMap_cons, ← List.append_assoc] at hwhole ⊢
    obtain ⟨s₁, d₁, hrun, hi₁⟩ := hg e List.mem_cons_self done s d hi ((List.prefix_append _ _).trans hwhole)
    obtain ⟨s₂, d₂, hrest, hi₂⟩ := ih (fun e he => hg e (List.mem_cons_of_mem _ he)) hi₁ hwhole
    exact ⟨s₂, d₂, by rw [List.foldlM_cons, on_bind_ok hrun, hrest], hi₂⟩

/-- A walk preserves what its visits preserve, one after the other. -/
theorem runs_tour (ho : o.follow = false) (hp : n₀.isProper = true)
    (hlist : ∀ done s d, I done s d → ∀ below t es, n₀.at? below = some (.dir t es) →
      d.list (pathBelow start below) = .ok es)
    (hstep : ∀ done s d i, I done s d → done ++ [i] <+: whole →
      ∃ s' d', (visit s (.ok ⟨pathBelow start i.1, i.1, i.2⟩)).on d = (.ok s', d') ∧ I (done ++ [i]) s' d')
    (around : List (List String)) (hn : n₀.at? below = some n) (hs : Shallow room n) (hi : I done s d)
    (hwhole : done ++ tour o room below n <+: whole) :
    ∃ s' d', (foldFrom o visit room around s ⟨pathBelow start below, below, kindOf n⟩).on d = (.ok s', d') ∧
      I (done ++ tour o room below n) s' d' := by
  induction room generalizing around below n done s d with
  | zero =>
    cases n with
    | file c mode t => exact hstep done s d _ hi hwhole
    | link target => exact hstep done s d _ hi hwhole
    | dir t es => exact absurd rfl (leaf_of_shallow hs t es)
  | succ room ih =>
    cases n with
    | file c mode t => exact hstep done s d _ hi hwhole
    | link target => exact hstep done s d _ hi hwhole
    | dir t es =>
      obtain ⟨hbelow, hdir⟩ := Node.hereditary_isProper.of_at? hp hn
      rw [tour, List.append_cons] at hwhole ⊢
      obtain ⟨s₁, d₁, hvisit, hi₁⟩ := hstep done s d (below, .dir) hi ((List.prefix_append _ _).trans hwhole)
      obtain ⟨around', hrun⟩ := on_foldFrom_dir ho room around rfl (hlist done s d hi below t es hn) hvisit
        (hlist _ _ _ hi₁ below t es hn)
      refine hrun ▸ runs_entries ?_ hi₁ hwhole
      rintro ⟨name, kind⟩ he done s d hi hwhole
      obtain ⟨m, hl, rfl⟩ := (mem_inOrder hdir).mp he
      have hm : n₀.at? (below ++ [name]) = some m := (Node.at?_concat _ _ _).mpr ⟨t, es, hn, hl⟩
      rw [hl] at hwhole ⊢
      dsimp only
      rw [pathBelow_div (Node.hereditary_isProper.of_at? hp hm).1]
      exact ih around' hm (hs.child hl) hi hwhole

end Runs

end Outfitter.Walk
