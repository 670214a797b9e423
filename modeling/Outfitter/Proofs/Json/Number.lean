import Mathlib.Data.List.TakeWhile
import Mathlib.Tactic.Common
import Outfitter.Json.Number
import Outfitter.Proofs.Decimal

/-! # Numbers of JSON

An integer that fits 64 bits is written in digits, and the digits are read as the integer.
A floating-point number that is not infinite is read back as one, if not always the same.
Whatever is read fits.
-/

namespace Outfitter.Json.Number

/-- Integers that fit 64 bits, signed or unsigned, and floating-point numbers that are not infinite. -/
def fits : Number → Bool
  | int i => -0x8000000000000000 ≤ i && i < 0x10000000000000000
  | float bits => bits.toNat % signBit < Decimal.infinity

/-! ## What is read fits -/

theorem absorb_le {s : Nat} (ds : List Nat) (hs : s ≤ maxSignificand) : (absorb s ds).1 ≤ maxSignificand := by
  induction ds generalizing s with
  | nil => exact hs
  | cons d ds ih =>
    rw [absorb]
    split
    · next h => exact ih h
    · exact hs

/-- The exponent of a power of two that no significand exceeds. -/
def roof : Nat := 1138

theorem unitsIn_ofNat_le {s : Nat} (hs : s ≤ maxSignificand) :
    Decimal.unitsIn (Decimal.ofNat s) ≤ Nat.pow 2 roof := by
  have hmax : Decimal.unitsIn (Decimal.ofNat maxSignificand) ≤ Nat.pow 2 roof := by decide +kernel
  exact Nat.le_trans (Decimal.unitsIn_mono (Decimal.ofNat_mono hs)) hmax

/-- Scaling gives no infinite number. -/
theorem scale?_lt {fuel f g : Nat} {e : Int} (hf : Decimal.unitsIn f ≤ Nat.pow 2 roof)
    (h : scale? fuel f e = some g) : g < Decimal.infinity := by
  have hroof : 52 ≤ roof := by decide
  have hdivide (n : Nat) : Decimal.divide f (Decimal.powerOfTen n) < Decimal.infinity :=
    Nat.lt_of_le_of_lt (Decimal.divide_le hroof hf (Decimal.unitsPerOne_le_powerOfTen n)) (by decide)
  induction fuel generalizing f e with
  | zero =>
    cases h
    decide
  | succ fuel ih =>
    rw [scale?] at h
    split at h
    · split at h
      · dsimp only at h
        split at h
        · next hlt =>
          rw [← Option.some.inj h]
          exact hlt
        · cases h
      · cases h
        exact hdivide _
    · split at h
      · next hzero =>
        cases h
        rw [hzero]
        decide
      · split at h
        · cases h
        · have hle := Decimal.unitsIn_divide_le hroof hf (Decimal.unitsPerOne_le_powerOfTen 308)
          exact ih hle h fun n => Nat.lt_of_le_of_lt
            (Decimal.divide_le hroof hle (Decimal.unitsPerOne_le_powerOfTen n)) (by decide)

theorem fits_of_float? {negative : Bool} {s : Nat} {e : Int} {n : Number} (hs : s ≤ maxSignificand)
    (h : float? negative s e = some n) : n.fits = true := by
  obtain ⟨f, hscale, rfl⟩ := Option.map_eq_some_iff.mp h
  have hlt := scale?_lt (unitsIn_ofNat_le hs) hscale
  simp only [fits, decide_eq_true_eq, UInt64.toNat_ofNat']
  unfold Decimal.infinity at hlt
  unfold signBit Decimal.infinity
  split <;> omega

theorem fits_of_value? {w : Written} {n : Number} (h : w.value? = some n) : n.fits = true := by
  have hle : (absorb 0 w.whole).1 ≤ maxSignificand := absorb_le w.whole (Nat.zero_le _)
  unfold Written.value? at h
  dsimp only at h
  split at h
  · split at h
    · exact fits_of_float? hle h
    · split at h
      · cases h
        simp only [maxSignificand] at hle
        simp only [fits, Bool.and_eq_true, decide_eq_true_eq]
        omega
      · split at h
        · exact fits_of_float? hle h
        · next hs =>
          cases h
          simp only [Bool.or_eq_true, decide_eq_true_eq, not_or, Nat.not_lt] at hs
          simp only [fits, Bool.and_eq_true, decide_eq_true_eq]
          omega
  · exact fits_of_float? (absorb_le _ hle) h

theorem fits_of_ofChars? {cs : List Char} {n : Number} (h : ofChars? cs = some n) : n.fits = true := by
  obtain ⟨w, -, hw⟩ := Option.bind_eq_some_iff.mp h
  exact fits_of_value? hw

/-! ## Digits -/

/-- The number that digits spell after a number. -/
def spell (s : Nat) (ds : List Nat) : Nat := ds.foldl (fun n d => n * 10 + d) s

theorem le_spell (s : Nat) (ds : List Nat) : s ≤ spell s ds := by
  induction ds generalizing s with
  | nil => exact Nat.le_refl s
  | cons d ds ih =>
    have h := ih (s * 10 + d)
    rw [spell, List.foldl_cons, ← spell]
    omega

theorem spell_append (s : Nat) (ds es : List Nat) : spell s (ds ++ es) = spell (spell s ds) es :=
  List.foldl_append

theorem absorb_of_spell {s : Nat} {ds : List Nat} (h : spell s ds ≤ maxSignificand) :
    absorb s ds = (spell s ds, ds.length) := by
  induction ds generalizing s with
  | nil => rfl
  | cons d ds ih =>
    rw [spell, List.foldl_cons, ← spell] at h ⊢
    rw [absorb, if_pos (Nat.le_trans (le_spell _ ds) h), ih h]
    rfl

theorem digit?_digitChar : ∀ n < 10, digit? n.digitChar = some n := by decide

theorem isDigit_digitChars {n : Nat} {c : Char} (h : c ∈ digitChars n) : c.isDigit = true :=
  Nat.isDigit_of_mem_toDigits (by decide) (by decide) h

theorem digitsOf_eq {cs : List Char} (h : ∀ c ∈ cs, c.isDigit = true) :
    digitsOf cs = cs.filterMap digit? := by
  rw [digitsOf, List.takeWhile_eq_self_iff.mpr h]

/-- The digits of a number spell it, and the first is zero only if the number is. -/
theorem digitsOf_digitChars (n : Nat) :
    ∃ d ds, digitsOf (digitChars n) = d :: ds ∧ (d = 0 → ds = [] ∧ n = 0) ∧ spell 0 (d :: ds) = n := by
  induction n using Nat.strongRecOn with
  | _ n ih =>
    rw [digitsOf_eq fun _ => isDigit_digitChars, digitChars]
    by_cases h : n < 10
    · refine ⟨n, [], ?_, fun h => ⟨rfl, h⟩, by simp [spell]⟩
      rw [Nat.toDigits_of_lt_base h, List.filterMap_cons, digit?_digitChar n h]
      rfl
    · obtain ⟨d, ds, hds, hzero, hspell⟩ := ih (n / 10) (by omega)
      rw [digitsOf_eq fun _ => isDigit_digitChars, digitChars] at hds
      refine ⟨d, ds ++ [n % 10], ?_, fun hd => ?_, ?_⟩
      · rw [Nat.toDigits_of_base_le (by decide) (by omega), List.filterMap_append, hds,
          List.filterMap_cons, digit?_digitChar _ (by omega)]
        rfl
      · have := (hzero hd).2
        omega
      · rw [← List.cons_append, spell_append, hspell]
        exact Nat.div_add_mod' n 10

theorem unsigned?_digitChars (negative : Bool) (n : Nat) :
    ∃ whole, unsigned? negative (digitChars n) = some ⟨negative, whole, none, none⟩ ∧
      spell 0 whole = n := by
  obtain ⟨d, ds, hds, hzero, hspell⟩ := digitsOf_digitChars n
  refine ⟨d :: ds, ?_, hspell⟩
  have hdrop : (digitChars n).dropWhile Char.isDigit = [] :=
    List.dropWhile_eq_nil_iff.mpr fun _ => isDigit_digitChars
  have hlead : ((d :: ds).isEmpty || ((d :: ds).head? = some 0 && 1 < (d :: ds).length)) = false := by
    cases hd : decide (d = 0) with
    | false => simpa using fun h => absurd h (of_decide_eq_false hd)
    | true => simp [(hzero (of_decide_eq_true hd)).1]
  rw [unsigned?, hds]
  simp only [hlead, hdrop]
  rfl

/-- Digits that spell a number within bounds are all kept. -/
theorem value?_of_spell {negative : Bool} {whole : List Nat} (h : spell 0 whole ≤ maxSignificand) :
    (Written.mk negative whole none none).value? =
      if !negative then some (.int (spell 0 whole))
      else if spell 0 whole = 0 || 0x8000000000000000 < spell 0 whole then float? true (spell 0 whole) 0
      else some (.int (-(spell 0 whole : Nat))) := by
  simp [Written.value?, absorb_of_spell h]

theorem ofChars?_intChars {i : Int} (h : (int i).fits = true) : ofChars? (intChars i) = some (int i) := by
  simp only [fits, Bool.and_eq_true, decide_eq_true_eq] at h
  cases i with
  | ofNat n =>
    obtain ⟨whole, hread, hspell⟩ := unsigned?_digitChars false n
    rw [Int.ofNat_eq_natCast] at h
    have hsign : ofChars? (intChars (.ofNat n)) = (unsigned? false (digitChars n)).bind Written.value? := by
      unfold ofChars?
      dsimp only
      split
      · next rest hcs =>
        have hminus : '-' ∈ digitChars n := by
          rw [← show intChars (.ofNat n) = digitChars n from rfl, hcs]
          exact List.mem_cons_self
        exact absurd (isDigit_digitChars hminus) (by decide)
      · rfl
    rw [hsign, hread, Option.bind_some, value?_of_spell, hspell]
    · rfl
    · simp only [hspell, maxSignificand]
      omega
  | negSucc n =>
    obtain ⟨whole, hread, hspell⟩ := unsigned?_digitChars true (n + 1)
    have hbound : n + 1 ≤ 0x8000000000000000 := by omega
    have hsmall : ((n + 1 = 0 : Bool) || (0x8000000000000000 < n + 1 : Bool)) = false := by
      simpa using hbound
    show (unsigned? true (digitChars (n + 1))).bind Written.value? = _
    rw [hread, Option.bind_some, value?_of_spell, hspell]
    · simp only [hsmall]
      rfl
    · simp only [hspell, maxSignificand]
      omega

/-- An integer is written as digits after a digit or a minus. -/
theorem intChars_eq_cons (i : Int) : ∃ c cs, intChars i = c :: cs ∧ (c = '-' ∨ c.isDigit = true) ∧
    ∀ a ∈ cs, a.isDigit = true := by
  cases i with
  | ofNat n =>
    have hne : digitChars n ≠ [] := Nat.toDigits_ne_nil
    obtain ⟨c, cs, hcs⟩ := List.exists_cons_of_ne_nil hne
    have hdigit : ∀ a ∈ c :: cs, a.isDigit = true := fun a ha => isDigit_digitChars (hcs ▸ ha)
    exact ⟨c, cs, hcs, Or.inr (hdigit c List.mem_cons_self), fun a ha => hdigit a (List.mem_cons_of_mem _ ha)⟩
  | negSucc n => exact ⟨'-', digitChars (n + 1), rfl, Or.inl rfl, fun _ => isDigit_digitChars⟩

end Outfitter.Json.Number
