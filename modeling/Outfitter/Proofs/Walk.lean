import Outfitter.Proofs.Files
import Outfitter.Walk

/-! # What walks keep

A walk keeps what its visitor keeps. Everything that it meets lies below its start by names of
entries, which are proper ones on a plain tree.
-/

namespace Outfitter.Walk

open Disk Action

variable {σ : Type} {P : Disk → Prop} {o : Options} {visit : Visitor σ}

theorem isName_of_list {d : Disk} {p : Path} {es : Entries} (hp : d.top.isPlain = true)
    (h : d.list p = .ok es) : ∀ e ∈ es, isName e.1 = true := by
  obtain ⟨place, t, hf⟩ := list_ok h
  obtain ⟨-, hat⟩ := find_ok (Node.linkFree_of_isPlain hp) hf
  intro e he
  exact ((Node.isPlain_dir_iff.mp (Node.isPlain_of_at? hp hat).2).2 e he).1

/-- The names of all entries are as `N` says. -/
def Named (N : String → Prop) (r : Except Fault (List (String × Kind))) : Prop :=
  ∀ entries, r = .ok entries → ∀ e ∈ entries, N e.1

theorem named_of_listing {N : String → Prop} {p : Path} {d d' : Disk} {r : Except Fault (List (String × Kind))}
    (hlist : ∀ es, d.list p = .ok es → ∀ e ∈ es, N e.1) (h : (listing o p).on d = (.ok r, d')) : Named N r := by
  rw [listing, on_ask] at h
  cases h
  intro entries he e hmem
  split at he
  · next es hes =>
    cases he
    have hmap : e ∈ es.map fun e => (e.1, kindOf e.2) := by
      split at hmem
      · exact List.mem_mergeSort.mp hmem
      · exact hmem
    obtain ⟨k, hk, rfl⟩ := List.mem_map.mp hmap
    exact hlist es hes k hk
  · cases he

/-- What stands for an item lies below the start by names as `N` says. -/
def Below (N : String → Prop) (r : Except Fault Item) : Prop :=
  ∀ item, r = .ok item → ∀ s ∈ item.below, N s

theorem keeps_foldFrom {N : String → Prop} (hP : ∀ d, P d → ∀ p es, d.list p = .ok es → ∀ e ∈ es, N e.1)
    (hv : ∀ s r, Below N r → Keeps P (visit s r)) (room : Nat) (around : List (List String)) (s : σ)
    (item : Item) (hi : ∀ s ∈ item.below, N s) :
    Keeps P (foldFrom o visit room around s item) := by
  have herr : ∀ s e, Keeps P (visit s (.error e)) := fun s e => hv s _ (by rintro _ ⟨⟩)
  have hitem : ∀ s, Keeps P (visit s (.ok item)) := fun s => hv s _ (by rintro _ ⟨⟩; exact hi)
  induction room generalizing around s item with
  | zero =>
    unfold foldFrom
    split
    · exact (hitem s).bind fun s => herr s _
    · next h => cases h
    · exact hitem s
  | succ room ih =>
    unfold foldFrom
    split
    · next h => cases h
    · next _ room' _ h =>
      cases h
      have hlist : ∀ d r d', P d → (listing o item.path).on d = (.ok r, d') → Named N r :=
        fun d r d' hd h => named_of_listing (hP d hd _) h
      refine (Keeps.ask _).bind_of hlist fun early hearly => (Keeps.ask _).bind fun here =>
        (hitem s).bind fun s => ?_
      have hturn : Keeps P (if o.sorted then pure early else listing o item.path) :=
        (Keeps.pure early).ite (Keeps.ask _)
      refine hturn.bind_of (Q := Named N) ?_ fun r hr => ?_
      · intro d r d' hd h
        split at h
        · cases h; exact hearly
        · exact hlist d r d' hd h
      split
      · exact herr s _
      · next entries =>
        refine Keeps.foldlM (fun s e he => ?_) s
        have hbelow : ∀ x ∈ item.below ++ [e.1], N x := by
          intro x hx
          rcases List.mem_append.mp hx with hx | hx
          · exact hi x hx
          · rw [List.mem_singleton.mp hx]
            exact hr entries rfl e he
        have hnext : ∀ around s path kind,
            Keeps P (foldFrom o visit room around s ⟨path, item.below ++ [e.1], kind⟩) :=
          fun around s path kind => ih around s _ hbelow fun s => hv s _ (by rintro _ ⟨⟩; exact hbelow)
        refine Keeps.ite ((Keeps.ask _).bind fun found => ?_) (hnext _ s _ _)
        split
        · exact herr s _
        · exact (herr s _).ite (hnext _ s _ _)
    · exact hitem s

theorem keeps_fold_of {N : String → Prop} (hP : ∀ d, P d → ∀ p es, d.list p = .ok es → ∀ e ∈ es, N e.1)
    (hv : ∀ s r, Below N r → Keeps P (visit s r)) (s : σ) (start : Path) :
    Keeps P (fold o visit s start) := by
  unfold fold
  refine (Keeps.ask _).bind fun r => ?_
  split
  · exact hv s _ (by rintro _ ⟨⟩)
  · exact keeps_foldFrom hP hv _ _ s _ (by simp)

/-- What stands for an item lies below the start by proper names. -/
def Proper (r : Except Fault Item) : Prop :=
  ∀ item, r = .ok item → ∀ s ∈ item.below, isName s = true

theorem keeps_fold (hP : ∀ d, P d → d.top.isPlain = true)
    (hv : ∀ s r, Proper r → Keeps P (visit s r)) (s : σ) (start : Path) :
    Keeps P (fold o visit s start) :=
  keeps_fold_of (fun d hd _ _ => isName_of_list (hP d hd)) hv s start

/-! ## One turn of a walk -/

theorem foldFrom_of_file {room : Nat} {around : List (List String)} {s : σ} {item : Item}
    (hk : item.kind = .file) : foldFrom o visit room around s item = visit s (.ok item) := by
  unfold foldFrom
  rw [hk]

/-- At a directory a walk that is not sorted visits it and turns to its entries, each of
which is walked from unless it is a link. -/
theorem foldFrom_of_dir (room : Nat) (around : List (List String)) {s s' : σ} {item : Item}
    {d d₁ : Disk} {es : Entries} (ho : o.sorted = false) (hk : item.kind = .dir)
    (hv : (visit s (.ok item)).on d = (.ok s', d₁)) (hlist : d₁.list item.path = .ok es) :
    ∃ (around' : List (List String)) (f : σ → String × Kind → Action σ),
      (∀ s name kind, kind ≠ .link → f s (name, kind) =
        foldFrom o visit room around' s ⟨item.path / name, item.below ++ [name], kind⟩) ∧
      (foldFrom o visit (room + 1) around s item).on d =
        ((es.map fun e => (e.1, kindOf e.2)).foldlM f s').on d₁ := by
  refine ⟨?around', ?f, ?hf, ?hrun⟩
  case hrun =>
    conv_lhs => unfold foldFrom
    rw [hk]
    dsimp only
    rw [listing, on_bind_ask, on_bind_ask, on_bind_ok hv, ho, if_neg Bool.false_ne_true,
      on_bind_ask, hlist]
    rfl
  case hf =>
    intro s name kind hkind
    rw [if_neg (by simp [hkind])]

end Outfitter.Walk
