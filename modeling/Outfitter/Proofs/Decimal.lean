import Outfitter.Decimal.Nearest
import Outfitter.Decimal.Shortest

/-! # Rounding and shortest decimals

Rounding keeps order, so a bound on a product of magnitudes follows from one on larger
factors. A shortest decimal has at most seventeen digits, and below the largest number it
stays away from what is rounded to infinity.
-/

namespace Outfitter.Decimal

variable {n n' m a a' b b' : Nat}

/-! ## Rounding -/

theorem two_pow_le {j k : Nat} (h : j ≤ k) : Nat.pow 2 j ≤ Nat.pow 2 k := Nat.pow_le_pow_right (by decide) h

theorem le_roundDiv (n m : Nat) : n / m ≤ roundDiv n m := by
  unfold roundDiv
  dsimp only
  split <;> omega

theorem roundDiv_le (n m : Nat) : roundDiv n m ≤ n / m + 1 := by
  unfold roundDiv
  dsimp only
  split <;> omega

theorem roundDiv_mono (h : n ≤ n') : roundDiv n m ≤ roundDiv n' m := by
  have hq : n / m ≤ n' / m := Nat.div_le_div_right h
  rcases Nat.lt_or_eq_of_le hq with hlt | heq
  · exact Nat.le_trans (roundDiv_le n m) (Nat.le_trans hlt (le_roundDiv n' m))
  · have hr : n % m ≤ n' % m := by
      have hn := Nat.div_add_mod n m
      have hn' := Nat.div_add_mod n' m
      rw [heq] at hn
      omega
    unfold roundDiv
    dsimp only
    rw [heq]
    simp only [Bool.or_eq_true, Bool.and_eq_true, decide_eq_true_eq]
    split
    · split <;> omega
    · split <;> omega

/-- The binary places that are dropped from a quotient. -/
def shift (q : Nat) : Nat := q.log2 - 52

theorem shift_mono {q q' : Nat} (h : q ≤ q') : shift q ≤ shift q' := by
  unfold shift
  rcases Nat.eq_zero_or_pos q with rfl | hq
  · simp
  · have hlog : q.log2 ≤ q'.log2 :=
      (Nat.le_log2 (Nat.ne_of_gt (Nat.lt_of_lt_of_le hq h))).mpr
        (Nat.le_trans (Nat.log2_self_le (Nat.ne_of_gt hq)) h)
    omega

theorem nearest_eq (n m : Nat) :
    nearest n m = shift (n / m) * 0x10000000000000 + roundDiv n (m * Nat.pow 2 (shift (n / m))) := rfl

/-- A significand has at most 53 bits, and 53 unless the number is small. -/
theorem roundDiv_shift_le (n m : Nat) : roundDiv n (m * Nat.pow 2 (shift (n / m))) ≤ 0x20000000000000 := by
  refine Nat.le_trans (roundDiv_le _ _) (Nat.succ_le_of_lt ?_)
  rw [← Nat.div_div_eq_div_mul]
  refine (Nat.div_lt_iff_lt_mul (Nat.two_pow_pos _)).mpr ?_
  calc n / m < Nat.pow 2 ((n / m).log2 + 1) := Nat.lt_log2_self
    _ ≤ Nat.pow 2 (53 + shift (n / m)) := two_pow_le (by unfold shift; omega)
    _ = 0x20000000000000 * Nat.pow 2 (shift (n / m)) := Nat.pow_add 2 53 _

theorem le_roundDiv_shift (h : 0 < shift (n / m)) :
    0x10000000000000 ≤ roundDiv n (m * Nat.pow 2 (shift (n / m))) := by
  refine Nat.le_trans ?_ (le_roundDiv _ _)
  rw [← Nat.div_div_eq_div_mul]
  refine (Nat.le_div_iff_mul_le (Nat.two_pow_pos _)).mpr ?_
  have hlog : (n / m).log2 = 52 + shift (n / m) := by
    unfold shift at h ⊢
    omega
  calc 0x10000000000000 * Nat.pow 2 (shift (n / m)) = Nat.pow 2 (52 + shift (n / m)) := (Nat.pow_add 2 52 _).symm
    _ = Nat.pow 2 (n / m).log2 := by rw [hlog]
    _ ≤ n / m := Nat.log2_self_le fun hz => by rw [hz] at h; exact absurd h (by decide)

theorem nearest_mono (h : n ≤ n') : nearest n m ≤ nearest n' m := by
  have hs : shift (n / m) ≤ shift (n' / m) := shift_mono (Nat.div_le_div_right h)
  rw [nearest_eq, nearest_eq]
  rcases Nat.lt_or_eq_of_le hs with hlt | heq
  · have hlow := roundDiv_shift_le n m
    have hhigh := le_roundDiv_shift (n := n') (m := m) (by omega)
    omega
  · have hr : roundDiv n (m * Nat.pow 2 (shift (n' / m))) ≤ roundDiv n' (m * Nat.pow 2 (shift (n' / m))) :=
      roundDiv_mono h
    rw [heq]
    omega

theorem unitsIn_mono (h : a ≤ b) : unitsIn a ≤ unitsIn b := by
  unfold unitsIn
  dsimp only
  have hp : a / 0x10000000000000 ≤ b / 0x10000000000000 := Nat.div_le_div_right h
  have hfa : a % 0x10000000000000 < 0x10000000000000 := Nat.mod_lt _ (by decide)
  generalize hf : a % 0x10000000000000 = fa at *
  generalize hg : b % 0x10000000000000 = fb at *
  generalize hpa : a / 0x10000000000000 = pa at *
  generalize hpb : b / 0x10000000000000 = pb at *
  have hsame : pa = pb → fa ≤ fb := by omega
  by_cases hb : pb = 0
  · rw [if_pos hb, if_pos (by omega)]
    exact hsame (by omega)
  · rw [if_neg hb]
    have hone : 0x10000000000000 + fb ≤ (0x10000000000000 + fb) * Nat.pow 2 (pb - 1) :=
      Nat.le_mul_of_pos_right _ (Nat.two_pow_pos _)
    split
    · omega
    · next ha =>
      rcases Nat.lt_or_eq_of_le hp with hlt | heq
      · calc (0x10000000000000 + fa) * Nat.pow 2 (pa - 1)
            ≤ Nat.pow 2 53 * Nat.pow 2 (pa - 1) := Nat.mul_le_mul_right _ (by simp only [Nat.pow_eq]; omega)
          _ = Nat.pow 2 (53 + (pa - 1)) := (Nat.pow_add 2 53 _).symm
          _ ≤ Nat.pow 2 (52 + (pb - 1)) := two_pow_le (by omega)
          _ = 0x10000000000000 * Nat.pow 2 (pb - 1) := Nat.pow_add 2 52 _
          _ ≤ (0x10000000000000 + fb) * Nat.pow 2 (pb - 1) := Nat.mul_le_mul_right _ (by omega)
      · rw [heq]
        exact Nat.mul_le_mul_right _ (by have := hsame heq; omega)

theorem ofNat_mono (h : n ≤ n') : ofNat n ≤ ofNat n' := nearest_mono (Nat.mul_le_mul_right _ h)

theorem multiply_mono (ha : a ≤ a') (hb : b ≤ b') : multiply a b ≤ multiply a' b' :=
  nearest_mono (Nat.mul_le_mul (unitsIn_mono ha) (unitsIn_mono hb))

theorem powerOfTen_mono (h : n ≤ n') : powerOfTen n ≤ powerOfTen n' :=
  ofNat_mono (Nat.pow_le_pow_right (by decide) h)

theorem unitsPerOne_pos : 0 < unitsPerOne := by decide +kernel

theorem unitsPerOne_le_powerOfTen (n : Nat) : unitsPerOne ≤ unitsIn (powerOfTen n) := by
  have hone : unitsIn (powerOfTen 0) = unitsPerOne := by decide +kernel
  rw [← hone]
  exact unitsIn_mono (powerOfTen_mono (Nat.zero_le n))

/-- Division by a number that is at least one does not lead above a power of two. -/
theorem divide_le {k : Nat} (hk : 52 ≤ k) (ha : unitsIn a ≤ Nat.pow 2 k) (hb : unitsPerOne ≤ unitsIn b) :
    divide a b ≤ (k - 51) * 0x10000000000000 := by
  have hpos : 0 < unitsIn b := Nat.lt_of_lt_of_le unitsPerOne_pos hb
  have hquot : Nat.pow 2 k * unitsIn b / unitsIn b = Nat.pow 2 k := Nat.mul_div_cancel _ hpos
  have hlog : (Nat.pow 2 k).log2 = k := Nat.log2_two_pow
  have hshift : shift (Nat.pow 2 k) = k - 52 := by rw [shift, hlog]
  have hexact : roundDiv (Nat.pow 2 k * unitsIn b) (unitsIn b * Nat.pow 2 (k - 52)) = 0x10000000000000 := by
    have hsplit : Nat.pow 2 k * unitsIn b = 0x10000000000000 * (unitsIn b * Nat.pow 2 (k - 52)) := by
      have hpow : Nat.pow 2 k = 0x10000000000000 * Nat.pow 2 (k - 52) := by
        rw [show Nat.pow 2 k = Nat.pow 2 (52 + (k - 52)) by rw [Nat.add_sub_cancel' hk]]
        exact Nat.pow_add 2 52 (k - 52)
      rw [hpow, Nat.mul_assoc, Nat.mul_comm (Nat.pow 2 (k - 52))]
    have hpos' : 0 < unitsIn b * Nat.pow 2 (k - 52) := Nat.mul_pos hpos (Nat.two_pow_pos _)
    unfold roundDiv
    dsimp only
    rw [hsplit, Nat.mul_div_cancel _ hpos', Nat.mul_mod_left, if_pos (by rw [Nat.mul_zero, Bool.or_eq_true, decide_eq_true_eq]; exact Or.inl hpos')]
  calc divide a b ≤ nearest (Nat.pow 2 k * unitsIn b) (unitsIn b) := nearest_mono (Nat.mul_le_mul ha hb)
    _ = (k - 52) * 0x10000000000000 + 0x10000000000000 := by rw [nearest_eq, hquot, hshift, hexact]
    _ = (k - 51) * 0x10000000000000 := by omega

theorem unitsIn_divide_le {k : Nat} (hk : 52 ≤ k) (ha : unitsIn a ≤ Nat.pow 2 k)
    (hb : unitsPerOne ≤ unitsIn b) : unitsIn (divide a b) ≤ Nat.pow 2 k := by
  refine Nat.le_trans (unitsIn_mono (divide_le hk ha hb)) ?_
  have hmod : (k - 51) * 0x10000000000000 % 0x10000000000000 = 0 := Nat.mul_mod_left _ _
  have hdiv : (k - 51) * 0x10000000000000 / 0x10000000000000 = k - 51 := Nat.mul_div_cancel _ (by decide)
  have hpow : Nat.pow 2 k = 0x10000000000000 * Nat.pow 2 (k - 51 - 1) := by
    rw [show Nat.pow 2 k = Nat.pow 2 (52 + (k - 51 - 1)) by rw [show 52 + (k - 51 - 1) = k by omega]]
    exact Nat.pow_add 2 52 _
  have hunits : unitsIn ((k - 51) * 0x10000000000000) = Nat.pow 2 k := by
    unfold unitsIn
    dsimp only
    rw [hmod, hdiv, if_neg (by omega), hpow]
  exact Nat.le_of_eq hunits

/-! ## Shortest decimals -/

namespace Binary

variable {b : Binary} {scale : Int} {d : Digits}

/-- How many quarters of the last binary place read back as a number. -/
def breadth (b : Binary) : Nat := if b.closeBelow then 3 else 4

/-- The point of a grid that lies at a number or next below it. -/
def below (b : Binary) (scale : Int) : Nat := 4 * b.mantissa * (b.units scale).1 / (b.units scale).2

/-- A point of a grid reads back as a number. -/
def readsBack (b : Binary) (scale : Int) (x : Nat) : Bool :=
  if b.mantissa % 2 = 0 then
    (4 * b.mantissa - if b.closeBelow then 1 else 2) * (b.units scale).1 ≤ x * (b.units scale).2 &&
      x * (b.units scale).2 ≤ (4 * b.mantissa + 2) * (b.units scale).1
  else
    (4 * b.mantissa - if b.closeBelow then 1 else 2) * (b.units scale).1 < x * (b.units scale).2 &&
      x * (b.units scale).2 < (4 * b.mantissa + 2) * (b.units scale).1

/-- A grid gives one of the two points around a number that reads back, if there is one. -/
theorem onGrid?_cases (b : Binary) (scale : Int) :
    (∃ x, b.readsBack scale x = true ∧ b.onGrid? scale = some ⟨x, scale⟩) ∨
      b.readsBack scale (b.below scale) = false ∧ b.readsBack scale (b.below scale + 1) = false ∧
        b.onGrid? scale = none := by
  have hgrid : ∃ y, (y = b.below scale ∨ y = b.below scale + 1) ∧ b.onGrid? scale =
      if b.readsBack scale (b.below scale) && b.readsBack scale (b.below scale + 1) then some ⟨y, scale⟩
      else if b.readsBack scale (b.below scale) then some ⟨b.below scale, scale⟩
      else if b.readsBack scale (b.below scale + 1) then some ⟨b.below scale + 1, scale⟩
      else none := by
    refine ⟨_, ?_, rfl⟩
    split
    · exact Or.inl rfl
    · split
      · exact Or.inr rfl
      · split
        · exact Or.inl rfl
        · exact Or.inr rfl
  obtain ⟨y, hy, hgrid⟩ := hgrid
  rw [hgrid]
  cases hb : b.readsBack scale (b.below scale) with
  | true =>
    left
    cases ha : b.readsBack scale (b.below scale + 1) with
    | true =>
      refine ⟨y, ?_, rfl⟩
      rcases hy with rfl | rfl
      · exact hb
      · exact ha
    | false => exact ⟨_, hb, rfl⟩
  | false =>
    cases ha : b.readsBack scale (b.below scale + 1) with
    | true => exact Or.inl ⟨_, ha, rfl⟩
    | false => exact Or.inr ⟨rfl, rfl, rfl⟩

theorem onGrid?_some (h : b.onGrid? scale = some d) :
    d.scale = scale ∧ (4 * b.mantissa - 2) * (b.units scale).1 ≤ d.digits * (b.units scale).2 ∧
      d.digits * (b.units scale).2 ≤ (4 * b.mantissa + 2) * (b.units scale).1 := by
  rcases onGrid?_cases b scale with ⟨x, hx, hgrid⟩ | ⟨-, -, hgrid⟩
  · cases hgrid.symm.trans h
    have hlow : (4 * b.mantissa - 2) * (b.units scale).1 ≤
        (4 * b.mantissa - if b.closeBelow then 1 else 2) * (b.units scale).1 :=
      Nat.mul_le_mul_right _ (by split <;> omega)
    refine ⟨rfl, ?_⟩
    unfold readsBack at hx
    dsimp only
    split at hx
    · simp only [Bool.and_eq_true, decide_eq_true_eq] at hx
      exact ⟨Nat.le_trans hlow hx.1, hx.2⟩
    · simp only [Bool.and_eq_true, decide_eq_true_eq] at hx
      exact ⟨Nat.le_trans hlow (Nat.le_of_lt hx.1), Nat.le_of_lt hx.2⟩
  · cases hgrid.symm.trans h

theorem units_pos (b : Binary) (scale : Int) : 0 < (b.units scale).1 ∧ 0 < (b.units scale).2 :=
  ⟨Nat.mul_pos (Nat.two_pow_pos _) (Nat.pow_pos (by decide)), Nat.mul_pos (Nat.pow_pos (by decide)) (Nat.two_pow_pos _)⟩

/-- Without a decimal on its grid a power of ten is wider than all that reads back. -/
theorem onGrid?_none (hm : 0 < b.mantissa) (h : b.onGrid? scale = none) :
    b.breadth * (b.units scale).1 ≤ (b.units scale).2 := by
  rcases onGrid?_cases b scale with ⟨x, -, hgrid⟩ | ⟨hbelow, habove, -⟩
  · cases hgrid.symm.trans h
  obtain ⟨hq, hp⟩ := units_pos b scale
  have hvalue := Nat.div_add_mod (4 * b.mantissa * (b.units scale).1) (b.units scale).2
  have hrest := Nat.mod_lt (4 * b.mantissa * (b.units scale).1) hp
  rw [Nat.mul_comm, ← below] at hvalue
  generalize hc : (if b.closeBelow then 1 else 2 : Nat) = c
  have hbreadth : b.breadth = c + 2 := by
    rw [breadth, ← hc]
    cases b.closeBelow <;> rfl
  have hle : c ≤ 4 * b.mantissa := by
    rw [← hc]
    split <;> omega
  have hlow : (4 * b.mantissa - c) * (b.units scale).1 + c * (b.units scale).1 =
      4 * b.mantissa * (b.units scale).1 := by
    rw [← Nat.add_mul, Nat.sub_add_cancel hle]
  unfold readsBack at hbelow habove
  rw [hc, Nat.add_mul (4 * b.mantissa) 2] at hbelow habove
  rw [Nat.add_one_mul (b.below scale)] at habove
  rw [hbreadth, Nat.add_mul]
  generalize b.below scale * (b.units scale).2 = x at *
  generalize 4 * b.mantissa * (b.units scale).1 = value at *
  by_cases heven : b.mantissa % 2 = 0
  · simp only [if_pos heven, Bool.and_eq_false_iff, decide_eq_false_iff_not] at hbelow habove
    omega
  · simp only [if_neg heven, Bool.and_eq_false_iff, decide_eq_false_iff_not] at hbelow habove
    omega

/-- A shortest decimal stands on its grid, and the next coarser grid has none, if that was tried. -/
theorem shortestFrom_cases (b : Binary) (fuel : Nat) (scale : Int) :
    (∃ s, b.shortestFrom fuel scale = ⟨0, s⟩ ∧ s = scale - fuel) ∨
      ∃ d, b.shortestFrom fuel scale = d ∧ b.onGrid? d.scale = some d ∧
        (d.scale = scale ∨ d.scale < scale ∧ b.onGrid? (d.scale + 1) = none) := by
  induction fuel generalizing scale with
  | zero => exact Or.inl ⟨scale, rfl, by simp⟩
  | succ fuel ih =>
    rw [shortestFrom]
    cases hgrid : b.onGrid? scale with
    | some d =>
      obtain ⟨hscale, -⟩ := onGrid?_some hgrid
      exact Or.inr ⟨d, rfl, by rw [hscale]; exact hgrid, Or.inl hscale⟩
    | none =>
      rcases ih (scale - 1) with ⟨s, hd, hs⟩ | ⟨d, hd, hon, hcoarse⟩
      · exact Or.inl ⟨s, hd, by rw [hs]; omega⟩
      · refine Or.inr ⟨d, hd, hon, Or.inr ?_⟩
        rcases hcoarse with heq | ⟨hlt, hnone⟩
        · rw [heq, Int.sub_add_cancel]
          exact ⟨by omega, hgrid⟩
        · exact ⟨by omega, hnone⟩

/-- On the next coarser grid a power of ten has ten times the width. -/
theorem units_succ (b : Binary) (scale : Int) :
    (b.units (scale + 1)).2 * (b.units scale).1 = 10 * (b.units scale).2 * (b.units (scale + 1)).1 := by
  unfold units
  dsimp only
  by_cases hneg : scale < 0
  · obtain ⟨k, hk⟩ : ∃ k : Nat, scale = -((k : Int) + 1) := ⟨(-scale - 1).toNat, by omega⟩
    have h₁ : (scale + 1).toNat = 0 := by omega
    have h₂ : scale.toNat = 0 := by omega
    have h₃ : (-scale).toNat = k + 1 := by omega
    have h₄ : (-(scale + 1)).toNat = k := by omega
    rw [h₁, h₂, h₃, h₄, show Nat.pow 10 (k + 1) = Nat.pow 10 k * 10 from rfl]
    ac_rfl
  · have h₁ : (scale + 1).toNat = scale.toNat + 1 := by omega
    have h₂ : (-scale).toNat = 0 := by omega
    have h₃ : (-(scale + 1)).toNat = 0 := by omega
    rw [h₁, h₂, h₃, show Nat.pow 10 (scale.toNat + 1) = Nat.pow 10 scale.toNat * 10 from rfl]
    ac_rfl

/-- A decimal without a coarser one has few digits. -/
theorem digits_le (hm : 0 < b.mantissa) (hon : b.onGrid? scale = some d)
    (hnone : b.onGrid? (scale + 1) = none) : d.digits * b.breadth ≤ 10 * (4 * b.mantissa + 2) := by
  obtain ⟨-, -, hhigh⟩ := onGrid?_some hon
  have hwide := onGrid?_none hm hnone
  have hpos : 0 < (b.units scale).1 * (b.units (scale + 1)).1 :=
    Nat.mul_pos (units_pos b scale).1 (units_pos b (scale + 1)).1
  refine Nat.le_of_mul_le_mul_right ?_ hpos
  calc d.digits * b.breadth * ((b.units scale).1 * (b.units (scale + 1)).1)
      = d.digits * (b.breadth * (b.units (scale + 1)).1) * (b.units scale).1 := by ac_rfl
    _ ≤ d.digits * (b.units (scale + 1)).2 * (b.units scale).1 :=
      Nat.mul_le_mul_right _ (Nat.mul_le_mul_left _ hwide)
    _ = d.digits * ((b.units (scale + 1)).2 * (b.units scale).1) := Nat.mul_assoc _ _ _
    _ = d.digits * (10 * (b.units scale).2 * (b.units (scale + 1)).1) := by rw [units_succ]
    _ = 10 * (d.digits * (b.units scale).2) * (b.units (scale + 1)).1 := by ac_rfl
    _ ≤ 10 * ((4 * b.mantissa + 2) * (b.units scale).1) * (b.units (scale + 1)).1 :=
      Nat.mul_le_mul_right _ (Nat.mul_le_mul_left _ hhigh)
    _ = 10 * (4 * b.mantissa + 2) * ((b.units scale).1 * (b.units (scale + 1)).1) := by ac_rfl

/-! ## Numbers that are not too large -/

/-- A number among the 64-bit ones: its mantissa has at most 53 bits, and a close neighbour below
is one whose mantissa is a power of two. -/
structure Finite (b : Binary) : Prop where
  mantissa_lt : b.mantissa < 0x20000000000000
  exponent_le : b.exponent ≤ 971
  closeBelow : b.closeBelow = true → b.mantissa = 0x10000000000000

/-- The largest number. -/
def largest : Binary := ⟨0x1fffffffffffff, 971, false⟩

theorem finite_ofBits {bits : UInt64} (h : bits.toNat % 0x8000000000000000 < infinity) :
    (ofBits bits).Finite := by
  unfold infinity at h
  unfold ofBits
  dsimp only
  split
  · next hp => exact ⟨by dsimp only; omega, by dsimp only; omega, by simp⟩
  · next hp => exact ⟨by dsimp only; omega, by dsimp only; omega, by simp; omega⟩

/-- The exponent of a quarter of the last binary place of the largest number. -/
def lastExponent : Nat := 969

/-- A bound on the decimals of all numbers but the largest. -/
def ceiling : Nat := 0x7ffffffffffffa * Nat.pow 2 lastExponent

theorem Finite.high_le (hf : b.Finite) (hb : b ≠ largest) :
    (4 * b.mantissa + 2) * Nat.pow 2 (b.exponent - 2).toNat ≤ ceiling := by
  obtain ⟨hm, he, hclose⟩ := hf
  unfold ceiling
  by_cases htop : b.exponent = 971
  · have hlt : b.mantissa ≠ 0x1fffffffffffff := by
      intro hmax
      refine hb ?_
      obtain ⟨m, e, c⟩ := b
      cases c with
      | false => rw [largest, ← hmax, ← htop]
      | true => exact absurd (hmax.symm.trans (hclose rfl)) (by decide)
    exact Nat.mul_le_mul (by omega) (two_pow_le (by unfold lastExponent; omega))
  · have hpow : Nat.pow 2 ((b.exponent - 2).toNat + 1) ≤ Nat.pow 2 lastExponent :=
      two_pow_le (by unfold lastExponent; omega)
    calc (4 * b.mantissa + 2) * Nat.pow 2 (b.exponent - 2).toNat
        ≤ 0x7ffffffffffffa * 2 * Nat.pow 2 (b.exponent - 2).toNat := Nat.mul_le_mul_right _ (by omega)
      _ = 0x7ffffffffffffa * Nat.pow 2 ((b.exponent - 2).toNat + 1) := by
        rw [Nat.mul_assoc]
        exact congrArg _ Nat.pow_succ'.symm
      _ ≤ 0x7ffffffffffffa * Nat.pow 2 lastExponent := Nat.mul_le_mul_left _ hpow

theorem value_le (hs : 0 ≤ scale) (h : b.onGrid? scale = some d) :
    d.digits * Nat.pow 10 scale.toNat ≤ (4 * b.mantissa + 2) * Nat.pow 2 (b.exponent - 2).toNat := by
  obtain ⟨-, -, hhigh⟩ := onGrid?_some h
  unfold units at hhigh
  dsimp only at hhigh
  rw [show (-scale).toNat = 0 by omega, show Nat.pow 10 0 = 1 from rfl, Nat.mul_one] at hhigh
  refine Nat.le_trans ?_ hhigh
  rw [← Nat.mul_assoc]
  exact Nat.le_mul_of_pos_right _ (Nat.two_pow_pos _)

/-- The shortest decimal of a number has at most seventeen digits. -/
theorem Finite.shortest_cases (hf : b.Finite) (hm : 0 < b.mantissa) :
    b.shortest = ⟨0, -326⟩ ∨ b.onGrid? b.shortest.scale = some b.shortest ∧ 0 < b.shortest.digits ∧
      b.shortest.digits < 0x16345785d8a0000 := by
  rcases b.shortestFrom_cases 635 309 with ⟨s, hd, hs⟩ | ⟨d, hd, hon, hcoarse⟩
  · exact Or.inl (hd.trans (by rw [hs]; rfl))
  · right
    rw [shortest, hd]
    obtain ⟨-, hlow, -⟩ := onGrid?_some hon
    have hdigits : 0 < d.digits := by
      have hpos : 0 < (4 * b.mantissa - 2) * (b.units d.scale).1 := Nat.mul_pos (by omega) (units_pos b _).1
      exact Nat.pos_of_mul_pos_right (Nat.lt_of_lt_of_le hpos hlow)
    refine ⟨hon, hdigits, ?_⟩
    rcases hcoarse with hfirst | ⟨-, hnone⟩
    · rw [hfirst] at hon
      have hvalue := value_le (by decide) hon
      have hmantissa : 4 * b.mantissa + 2 ≤ 0x80000000000000 := by
        have := hf.mantissa_lt
        omega
      have hpow : Nat.pow 2 (b.exponent - 2).toNat ≤ Nat.pow 2 lastExponent := by
        have := hf.exponent_le
        exact two_pow_le (by unfold lastExponent; omega)
      have hlarge : 0x80000000000000 * Nat.pow 2 lastExponent < Nat.pow 10 (309 : Int).toNat := by
        decide +kernel
      generalize Nat.pow 10 (309 : Int).toNat = p at *
      have hone : p ≤ d.digits * p := Nat.le_mul_of_pos_left p hdigits
      exact absurd (Nat.le_trans hone (Nat.le_trans hvalue (Nat.mul_le_mul hmantissa hpow)))
        (Nat.not_le_of_lt hlarge)
    · have hle := digits_le hm hon hnone
      have hlt := hf.mantissa_lt
      unfold breadth at hle
      split at hle
      · next hclose =>
        rw [hf.closeBelow hclose] at hle
        omega
      · omega

end Binary

/-- A decimal of at most seventeen digits that stays below the ceiling is not rounded to infinity. -/
theorem multiply_lt_infinity {s x : Nat} (hpos : 0 < s) (hs : s < 0x16345785d8a0000)
    (h : s * Nat.pow 10 x ≤ Binary.ceiling) : x ≤ 308 ∧ multiply (ofNat s) (powerOfTen x) < infinity := by
  have hx : x ≤ 308 := by
    have hlt : Binary.ceiling < Nat.pow 10 309 := by decide +kernel
    have hpow : Nat.pow 10 x < Nat.pow 10 309 :=
      Nat.lt_of_le_of_lt (Nat.le_trans (Nat.le_mul_of_pos_left _ hpos) h) hlt
    have hiff : ∀ a b, Nat.pow 10 a < Nat.pow 10 b → a < b := fun a b =>
      (Nat.pow_lt_pow_iff_right (by decide)).mp
    exact Nat.le_of_lt_succ (hiff x 309 hpow)
  refine ⟨hx, ?_⟩
  by_cases hsmall : x ≤ 291
  · have hbound : multiply (ofNat 0x16345785d8a0000) (powerOfTen 291) < infinity := by decide +kernel
    exact Nat.lt_of_le_of_lt (multiply_mono (ofNat_mono (Nat.le_of_lt hs)) (powerOfTen_mono hsmall)) hbound
  · have hbound : ∀ y < 17, multiply (ofNat (Binary.ceiling / Nat.pow 10 (292 + y))) (powerOfTen (292 + y)) <
        infinity := by
      decide +kernel
    have hle : s ≤ Binary.ceiling / Nat.pow 10 x := (Nat.le_div_iff_mul_le (Nat.pow_pos (by decide))).mpr h
    have hlast := hbound (x - 292) (by omega)
    rw [show 292 + (x - 292) = x by omega] at hlast
    exact Nat.lt_of_le_of_lt (multiply_mono (ofNat_mono hle) (Nat.le_refl _)) hlast

end Outfitter.Decimal
