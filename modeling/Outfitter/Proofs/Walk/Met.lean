import Outfitter.Proofs.Disk.Develop
import Outfitter.Proofs.Walk

/-! # What walks meet

A walk that passes no link meets what lies below its start by the names of entries. It is where
those names lead also when the tree develops while the walk goes on.
-/

namespace Outfitter

namespace Action

variable {σ τ : Type} {d : Disk} {I : σ → Disk → Prop} {J : τ → Disk → Prop}

/-- An action ends well in a state as `I` says, and the disk has developed. -/
def Goes (I : σ → Disk → Prop) (x : Action σ) (d : Disk) : Prop :=
  ∃ s d', x.on d = (.ok s, d') ∧ I s d' ∧ d.Develops d'

namespace Goes

theorem pure {s : σ} (h : I s d) : Goes I (Pure.pure s) d := ⟨s, d, rfl, h, .refl d⟩

theorem bind {x : Action σ} {f : σ → Action τ} (hx : Goes I x d)
    (hf : ∀ s d', I s d' → d.Develops d' → Goes J (f s) d') : Goes J (x >>= f) d := by
  obtain ⟨s, d₁, hrun, hi, hdev⟩ := hx
  obtain ⟨u, d₂, hrun', hj, hdev'⟩ := hf s d₁ hi hdev
  exact ⟨u, d₂, by rw [on_bind_ok hrun, hrun'], hj, hdev.trans hdev'⟩

theorem ask_bind {α : Type} {g : Disk → α} {f : α → Action τ} (h : Goes J (f (g d)) d) :
    Goes J (Action.ask g >>= f) d := by
  simpa only [Goes, on_bind_ask] using h

theorem foldlM {α : Type} {g : σ → α → Action σ} {xs : List α} {s : σ} (h : I s d)
    (hg : ∀ s d', ∀ a ∈ xs, I s d' → d.Develops d' → Goes I (g s a) d') : Goes I (xs.foldlM g s) d := by
  induction xs generalizing s d with
  | nil => exact pure h
  | cons a xs ih =>
    rw [List.foldlM_cons]
    refine bind (hg s d a List.mem_cons_self h (.refl d)) fun s d₁ hi hdev => ih hi ?_
    exact fun s d₂ b hb hi hdev' => hg s d₂ b (List.mem_cons_of_mem _ hb) hi (hdev.trans hdev')

end Goes

/-- An action gives what another one gives, as a function sees it. -/
def Maps (f : σ → τ) (x : Action σ) (y : Action τ) : Prop := ∀ d, y.on d = ((x.on d).1.map f, (x.on d).2)

namespace Maps

theorem bind {α β : Type} {f : σ → τ} {g : α → β} {x : Action σ} {y : Action τ} {k : σ → Action α}
    {k' : τ → Action β} (hx : Maps f x y) (hk : ∀ s, Maps g (k s) (k' (f s))) : Maps g (x >>= k) (y >>= k') := by
  intro d
  have hy := hx d
  cases hrun : x.on d with
  | mk r d₁ =>
  rw [hrun] at hy
  cases r with
  | ok s => rw [on_bind_ok hrun, on_bind_ok hy, hk s d₁]
  | error e => rw [on_bind_error hrun, on_bind_error hy]; rfl

theorem refl (x : Action σ) : Maps id x x := by
  intro d
  cases hrun : x.on d with
  | mk r d₁ => cases r <;> rfl

theorem ite {c : Prop} [Decidable c] {f : σ → τ} {x x' : Action σ} {y y' : Action τ} (h : Maps f x y)
    (h' : Maps f x' y') : Maps f (if c then x else x') (if c then y else y') := by
  split
  · exact h
  · exact h'

theorem foldlM {α : Type} {f : σ → τ} {g : σ → α → Action σ} {g' : τ → α → Action τ}
    (hg : ∀ s a, Maps f (g s a) (g' (f s) a)) (xs : List α) (s : σ) :
    Maps f (xs.foldlM g s) (xs.foldlM g' (f s)) := by
  induction xs generalizing s with
  | nil => exact fun _ => rfl
  | cons a xs ih =>
    rw [List.foldlM_cons, List.foldlM_cons]
    exact (hg s a).bind fun s => ih s

end Maps

end Action

namespace Walk

open Disk Action

variable {σ : Type} {o : Options} {visit : Visitor σ} {start : Path} {place below : List String} {name : String}
  {d d' : Disk} {item : Item} {n : Node}

/-- The path of what lies below the start of a walk. -/
def pathBelow (start : Path) (below : List String) : Path := if below = [] then start else start.join ⟨below⟩

theorem pathBelow_div (hn : ∀ s ∈ below ++ [name], isName s = true) :
    pathBelow start below / name = pathBelow start (below ++ [name]) := by
  have hname : isName name = true := hn name (by simp)
  have hdiv (p : Path) : p / name = p.join ⟨[name]⟩ := by
    show p.join (Path.ofText name) = _
    rw [Path.ofText, Path.splitSlash_of_isName hname]
  have hnew : pathBelow start (below ++ [name]) = start.join ⟨below ++ [name]⟩ := if_neg (by simp)
  rw [hdiv, hnew, pathBelow]
  split
  · next h => rw [h, List.nil_append]
  · next h =>
    exact Path.join_join h (fun s hs => hn s (List.mem_append_left _ hs)) (by simpa using hname)

/-- An item stands for what is below a place, by the names from there. -/
structure Meets (d : Disk) (start : Path) (place : List String) (item : Item) : Prop where
  path : item.path = pathBelow start item.below
  names : ∀ s ∈ item.below, isName s = true
  node : ∃ n, d.top.at? (place ++ item.below) = some n ∧ kindOf n = item.kind

theorem Meets.develops (h : Meets d start place item) (hdev : Develops d d') : Meets d' start place item := by
  obtain ⟨n, hn, hkind⟩ := h.node
  obtain ⟨n', hn', hdir, hfile, -⟩ := hdev.node hn
  refine ⟨h.path, h.names, n', hn', ?_⟩
  rw [← hkind]
  cases n <;> cases n' <;> simp_all [kindOf, Node.isDir, Node.isFile]

theorem find_pathBelow (h : Reaches d start place) (hn : ∀ s ∈ below, isName s = true)
    (hat : d.top.at? (place ++ below) = some n) (hl : ∀ target, n ≠ .link target) {place' : List String} {n' : Node}
    (hf : d.find (pathBelow start below) = .ok (place', n')) : place' = place ++ below ∧ n' = n := by
  rw [pathBelow] at hf
  split at hf
  · next hb =>
    subst hb
    obtain ⟨used, -, hway⟩ := follows_of_find hf
    obtain ⟨used', -, hway'⟩ := h.way
    have hplace := List.reverse_inj.mp (hway.unique hway')
    rw [List.append_nil] at hat ⊢
    cases hat.symm.trans (hplace ▸ locate_sound (find_ok_iff.mp hf))
    exact ⟨hplace, rfl⟩
  · next hb =>
    obtain ⟨hfind, hplace⟩ := h.find_before (.refl d) hn hb hat hl hf
    cases hf.symm.trans hfind
    exact ⟨rfl, rfl⟩

/-- The entries of a directory that a walk meets are met too. -/
theorem Meets.entries (h : Meets d start place item) (hr : Reaches d start place) (hp : d.top.isProper = true)
    (hk : item.kind = .dir) {es : Entries} (hlist : d.list item.path = .ok es) :
    ∀ e ∈ es, Meets d start place ⟨item.path / e.1, item.below ++ [e.1], kindOf e.2⟩ := by
  obtain ⟨n, hat, hkind⟩ := h.node
  obtain ⟨place', t, hfind⟩ := list_ok hlist
  have hl : ∀ target, n ≠ .link target := by
    rintro target rfl
    rw [hk] at hkind
    cases hkind
  rw [h.path] at hfind
  obtain ⟨-, rfl⟩ := find_pathBelow hr h.names hat hl hfind
  obtain ⟨hnodup, hes⟩ := Node.isProper_dir_iff.mp (Node.hereditary_isProper.of_at? hp hat).2
  intro e he
  have hnames : ∀ s ∈ item.below ++ [e.1], isName s = true := by
    intro s hs
    rcases List.mem_append.mp hs with hs | hs
    · exact h.names s hs
    · rw [List.mem_singleton.mp hs]
      exact (hes e he).1
  refine ⟨?_, hnames, e.2, ?_, rfl⟩
  · show item.path / e.1 = _
    rw [h.path, pathBelow_div hnames]
  · show d.top.at? (place ++ (item.below ++ [e.1])) = some e.2
    rw [← List.append_assoc, Node.at?_concat]
    exact ⟨t, es, hat, Entries.lookup_of_mem hnodup he⟩

/-- The entries that are met next. -/
def Lists (d : Disk) (start : Path) (place : List String) (item : Item)
    (r : Except Fault (List (String × Kind))) : Prop :=
  ∀ entries, r = .ok entries → ∀ e ∈ entries, Meets d start place ⟨item.path / e.1, item.below ++ [e.1], e.2⟩

theorem Lists.develops {r : Except Fault (List (String × Kind))} (h : Lists d start place item r)
    (hdev : Develops d d') : Lists d' start place item r :=
  fun entries hr e he => (h entries hr e he).develops hdev

/-- The entries of a directory in the order in which a walk meets them. -/
def inOrder (o : Options) (es : Entries) : List (String × Kind) :=
  let found := es.map fun e => (e.1, kindOf e.2)
  if o.sorted then found.mergeSort (fun a b => !(b.1 < a.1)) else found

theorem perm_inOrder (o : Options) (es : Entries) : (inOrder o es).Perm (es.map fun e => (e.1, kindOf e.2)) := by
  unfold inOrder
  dsimp only
  split
  · exact List.mergeSort_perm _ _
  · exact .refl _

theorem on_listing (o : Options) (p : Path) (d : Disk) :
    (listing o p).on d = (.ok ((d.list p).map (inOrder o)), d) := by
  rw [listing, on_ask]
  cases d.list p <;> rfl

theorem on_listing_ok {p : Path} {es : Entries} (h : d.list p = .ok es) :
    (listing o p).on d = (.ok (.ok (inOrder o es)), d) := by
  rw [on_listing, h]
  rfl

theorem goes_listing {I : σ → Disk → Prop} {s : σ} (hi : I s d) (h : Meets d start place item)
    (hr : Reaches d start place) (hp : d.top.isProper = true) (hk : item.kind = .dir) :
    Goes (fun r d' => I s d' ∧ Lists d' start place item r) (listing o item.path) d := by
  refine ⟨_, d, on_listing o item.path d, ⟨hi, ?_⟩, .refl d⟩
  intro entries hentries e he
  cases hes : d.list item.path with
  | error e =>
    rw [hes] at hentries
    cases hentries
  | ok es =>
    rw [hes] at hentries
    cases hentries
    obtain ⟨x, hx, rfl⟩ := List.mem_map.mp ((perm_inOrder o es).mem_iff.mp he)
    exact h.entries hr hp hk hes x hx

/-- A walk goes as its visitor does, on a tree that develops. -/
theorem goes_foldFrom {I : σ → Disk → Prop} (ho : o.follow = false)
    (hbase : ∀ s d, I s d → Reaches d start place ∧ d.top.isProper = true)
    (herror : ∀ s d e, I s d → Goes I (visit s (.error e)) d)
    (hitem : ∀ s d item, I s d → Meets d start place item → Goes I (visit s (.ok item)) d)
    (room : Nat) (around : List (List String)) (s : σ) (item : Item) (d : Disk) (hi : I s d)
    (hm : Meets d start place item) : Goes I (foldFrom o visit room around s item) d := by
  induction room generalizing around s item d with
  | zero =>
    unfold foldFrom
    split
    · exact (hitem s d item hi hm).bind fun s d' hi _ => herror s d' _ hi
    · next h => cases h
    · exact hitem s d item hi hm
  | succ room ih =>
    unfold foldFrom
    split
    · next h => cases h
    · next _ room' hk h =>
      cases h
      obtain ⟨hr, hp⟩ := hbase s d hi
      refine (goes_listing hi hm hr hp hk).bind fun early d₁ hlisted hdev₁ => ?_
      obtain ⟨hi, hearly⟩ := hlisted
      refine Goes.ask_bind ((hitem s d₁ item hi (hm.develops hdev₁)).bind fun s d₂ hi hdev₂ => ?_)
      have hturn : Goes (fun r d' => I s d' ∧ Lists d' start place item r)
          (if o.sorted then pure early else listing o item.path) d₂ := by
        split
        · exact .pure ⟨hi, hearly.develops hdev₂⟩
        · obtain ⟨hr, hp⟩ := hbase s d₂ hi
          exact goes_listing hi (hm.develops (hdev₁.trans hdev₂)) hr hp hk
      refine hturn.bind fun r d₃ hlisted _ => ?_
      obtain ⟨hi, hr⟩ := hlisted
      split
      · exact herror s d₃ _ hi
      · refine .foldlM hi fun s d₄ e he hi hdev₄ => ?_
        dsimp only
        rw [if_neg (by simp [ho])]
        exact ih _ s _ d₄ hi ((hr _ rfl _ he).develops hdev₄)
    · exact hitem s d item hi hm

/-- At a directory whose visit leaves its entries alone, a walk turns to them in order. -/
theorem on_foldFrom_dir (ho : o.follow = false) (room : Nat) (around : List (List String)) {s s' : σ}
    (hk : item.kind = .dir) {es : Entries} (hlist : d.list item.path = .ok es)
    (hv : (visit s (.ok item)).on d = (.ok s', d')) (hlist' : d'.list item.path = .ok es) :
    ∃ around', (foldFrom o visit (room + 1) around s item).on d =
      ((inOrder o es).foldlM (fun s e =>
        foldFrom o visit room around' s ⟨item.path / e.1, item.below ++ [e.1], e.2⟩) s').on d' := by
  have hturn : ((if o.sorted then pure (.ok (inOrder o es)) else listing o item.path :
      Action (Except Fault (List (String × Kind))))).on d' = (.ok (.ok (inOrder o es)), d') := by
    split
    · rfl
    · exact on_listing_ok hlist'
  refine ⟨?around, ?hrun⟩
  case hrun =>
    conv_lhs => unfold foldFrom
    rw [hk]
    dsimp only
    rw [on_bind_ok (on_listing_ok hlist), on_bind_ask, on_bind_ok hv, on_bind_ok hturn]
    simp only [ho, Bool.and_false, Bool.false_eq_true, if_false]
    rfl

/-- A walk sees of the state what its visitor sees. -/
theorem maps_foldFrom {τ : Type} {f : σ → τ} {visit' : Visitor τ}
    (hv : ∀ s r, Maps f (visit s r) (visit' (f s) r)) (room : Nat) (around : List (List String)) (s : σ) (item : Item) :
    Maps f (foldFrom o visit room around s item) (foldFrom o visit' room around (f s) item) := by
  induction room generalizing around s item with
  | zero =>
    unfold foldFrom
    split
    · exact (hv s _).bind fun s => hv s _
    · next h => cases h
    · exact hv s _
  | succ room ih =>
    unfold foldFrom
    split
    · next h => cases h
    · next _ room' _ h =>
      cases h
      refine (Maps.refl _).bind fun early => (Maps.refl _).bind fun here => (hv s _).bind fun s =>
        (Maps.refl _).bind fun r => ?_
      dsimp only [id]
      split
      · exact hv s _
      · refine .foldlM (fun s e => ?_) _ s
        refine .ite ((Maps.refl _).bind fun found => ?_) (ih _ s _)
        cases found with
        | error e => exact hv s _
        | ok found => exact .ite (hv s _) (ih _ s _)
    · exact hv s _

theorem maps_fold {τ : Type} {f : σ → τ} {visit' : Visitor τ}
    (hv : ∀ s r, Maps f (visit s r) (visit' (f s) r)) (s : σ) (start : Path) :
    Maps f (fold o visit s start) (fold o visit' (f s) start) := by
  unfold fold
  refine (Maps.refl _).bind fun found => ?_
  dsimp only [id]
  split
  · exact hv s _
  · exact maps_foldFrom hv _ _ s _

end Walk

end Outfitter
