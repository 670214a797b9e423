import Mathlib.Tactic.Common
import Outfitter.Action

/-! # Reasoning about actions

How each way of building actions runs on a disk, and what an action keeps: a property that
each part keeps, the whole keeps, whether it fails or not.
-/

namespace Outfitter.Action

variable {α β : Type} {x : Action α} {f : α → Action β} {d d' : Disk} {a : α} {e : Error}

/-! ## Runs -/

@[simp] theorem on_pure (a : α) (d : Disk) : (pure a : Action α).on d = (.ok a, d) := rfl

@[simp] theorem on_fail (e : Error) (d : Disk) : (fail e : Action α).on d = (.error e, d) := rfl

@[simp] theorem on_ask (g : Disk → α) (d : Disk) : (ask g).on d = (.ok (g d), d) := rfl

@[simp] theorem on_attempt (x : Action α) (d : Disk) :
    (attempt x).on d = (.ok (x.on d).1, (x.on d).2) := rfl

@[simp] theorem on_ignore (x : Action α) (d : Disk) : (ignore x).on d = (.ok (), (x.on d).2) := rfl

theorem on_fetch_ok {g : Disk → Except Fault α} (h : g d = .ok a) :
    (fetch g).on d = (.ok a, d) := by
  simp only [on, fetch, h]

theorem on_fetch_error {g : Disk → Except Fault α} {e : Fault} (h : g d = .error e) :
    (fetch g).on d = (.error (.io e), d) := by
  simp only [on, fetch, h]

theorem on_change_ok {g : Disk → Except Fault Disk} (h : g d = .ok d') :
    (change g).on d = (.ok (), d') := by
  simp only [on, change, h]

theorem on_change_error {g : Disk → Except Fault Disk} {e : Fault} (h : g d = .error e) :
    (change g).on d = (.error (.io e), d) := by
  simp only [on, change, h]

theorem on_bind_ok (h : x.on d = (.ok a, d')) : (x >>= f).on d = (f a).on d' := by
  have hx : x d = (.ok a, d') := h
  simp only [on, bind, ExceptT.bind, ExceptT.mk, StateT.bind, hx, ExceptT.bindCont]

theorem on_bind_error (h : x.on d = (.error e, d')) : (x >>= f).on d = (.error e, d') := by
  have hx : x d = (.error e, d') := h
  simp only [on, bind, ExceptT.bind, ExceptT.mk, StateT.bind, hx, ExceptT.bindCont]
  rfl

@[simp] theorem on_bind_pure (a : α) (f : α → Action β) (d : Disk) :
    (pure a >>= f : Action β).on d = (f a).on d :=
  on_bind_ok (on_pure a d)

@[simp] theorem on_bind_ask (g : Disk → α) (f : α → Action β) (d : Disk) :
    (ask g >>= f).on d = (f (g d)).on d :=
  on_bind_ok (on_ask g d)

@[simp] theorem on_bind_attempt (x : Action α) (f : Except Error α → Action β) (d : Disk) :
    (attempt x >>= f).on d = (f (x.on d).1).on (x.on d).2 :=
  on_bind_ok (on_attempt x d)

theorem snd_on_bind_pure (x : Action α) (g : α → β) (d : Disk) :
    ((x >>= fun a => pure (g a)).on d).2 = (x.on d).2 := by
  rcases hx : x.on d with ⟨r, d'⟩
  cases r with
  | error e => rw [on_bind_error hx]
  | ok a => rw [on_bind_ok hx]; rfl

/-- A sequence succeeds only if its first part does. -/
theorem of_on_bind_ok {b : β} (h : (x >>= f).on d = (.ok b, d')) :
    ∃ a d₁, x.on d = (.ok a, d₁) ∧ (f a).on d₁ = (.ok b, d') := by
  rcases hx : x.on d with ⟨r, d₁⟩
  cases r with
  | error e => rw [on_bind_error hx] at h; cases h
  | ok a => rw [on_bind_ok hx] at h; exact ⟨a, d₁, rfl, h⟩

theorem eq_error_of_isOk {r : Except Error α × Disk} (h : r.1.isOk = false) :
    ∃ e, r = (.error e, r.2) := by
  obtain ⟨a | e, d⟩ := r
  · exact ⟨_, rfl⟩
  · cases h

theorem of_on_bind_error (h : (x >>= f).on d = (.error e, d')) :
    x.on d = (.error e, d') ∨ ∃ a d₁, x.on d = (.ok a, d₁) ∧ (f a).on d₁ = (.error e, d') := by
  rcases hx : x.on d with ⟨r, d₁⟩
  cases r with
  | ok a => rw [on_bind_ok hx] at h; exact Or.inr ⟨a, d₁, rfl, h⟩
  | error e' => rw [on_bind_error hx] at h; cases h; exact Or.inl rfl

theorem of_on_fetch_ok {g : Disk → Except Fault α} (h : (fetch g).on d = (.ok a, d')) :
    g d = .ok a ∧ d' = d := by
  cases hg : g d with
  | error e => rw [on_fetch_error hg] at h; cases h
  | ok b => rw [on_fetch_ok hg] at h; cases h; exact ⟨rfl, rfl⟩

theorem of_on_change_ok {g : Disk → Except Fault Disk} (h : (change g).on d = (.ok (), d')) :
    g d = .ok d' := by
  cases hg : g d with
  | error e => rw [on_change_error hg] at h; cases h
  | ok b => rw [on_change_ok hg] at h; cases h; rfl

/-! ## What actions keep -/

/-- A property of disks that an action keeps, whatever its outcome. -/
def Keeps (P : Disk → Prop) (x : Action α) : Prop := ∀ d, P d → P (x.on d).2

namespace Keeps

variable {P : Disk → Prop}

theorem pure (a : α) : Keeps P (Pure.pure a : Action α) := fun _ h => h

theorem fail (e : Error) : Keeps P (Action.fail e : Action α) := fun _ h => h

theorem ask (g : Disk → α) : Keeps P (Action.ask g) := fun _ h => h

theorem fetch (g : Disk → Except Fault α) : Keeps P (Action.fetch g) := by
  intro d h
  cases hg : g d with
  | error e => rw [on_fetch_error hg]; exact h
  | ok a => rw [on_fetch_ok hg]; exact h

theorem change {g : Disk → Except Fault Disk} (hg : ∀ d d', P d → g d = .ok d' → P d') :
    Keeps P (Action.change g) := by
  intro d h
  cases hd : g d with
  | error e => rw [on_change_error hd]; exact h
  | ok d' => rw [on_change_ok hd]; exact hg d d' h hd

theorem attempt (hx : Keeps P x) : Keeps P (Action.attempt x) := hx

theorem ignore (hx : Keeps P x) : Keeps P (Action.ignore x) := hx

/-- A sequence keeps what its parts keep, the second for the results that the first can have. -/
theorem bind_of {Q : α → Prop} (hx : Keeps P x)
    (hq : ∀ d a d', P d → x.on d = (.ok a, d') → Q a) (hf : ∀ a, Q a → Keeps P (f a)) :
    Keeps P (x >>= f) := by
  intro d h
  have hd := hx d h
  rcases hr : x.on d with ⟨r, d'⟩
  rw [hr] at hd
  cases r with
  | error e => rw [on_bind_error hr]; exact hd
  | ok a => rw [on_bind_ok hr]; exact hf a (hq d a d' h hr) d' hd

theorem bind (hx : Keeps P x) (hf : ∀ a, Keeps P (f a)) : Keeps P (x >>= f) :=
  hx.bind_of (Q := fun _ => True) (fun _ _ _ _ _ => trivial) fun a _ => hf a

theorem ite {c : Prop} [Decidable c] {y : Action α} (hx : Keeps P x) (hy : Keeps P y) :
    Keeps P (if c then x else y) := by
  split
  · exact hx
  · exact hy

theorem foldlM {σ : Type} {g : σ → α → Action σ} {xs : List α}
    (hg : ∀ s, ∀ a ∈ xs, Keeps P (g s a)) (s : σ) : Keeps P (xs.foldlM g s) := by
  induction xs generalizing s with
  | nil => exact pure s
  | cons a xs ih =>
    rw [List.foldlM_cons]
    exact bind (hg s a List.mem_cons_self) fun s' =>
      ih (fun s b hb => hg s b (List.mem_cons_of_mem _ hb)) s'

end Keeps

end Outfitter.Action
