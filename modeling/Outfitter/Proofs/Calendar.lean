import Outfitter.Calendar

/-! # Moments and their names

A moment of the calendar has its fields in their ranges and determines the second that it was made
from. So does its name: two names made in different seconds differ.
-/

namespace Outfitter.Calendar

/-! ## Years and months -/

/-- The days of some years, the first of them `y`. -/
def daysUntil (y : Nat) : Nat → Nat
  | 0 => 0
  | k + 1 => yearDays y + daysUntil (y + 1) k

/-- The days of the first months of a year. -/
def daysBefore : List Nat → Nat → Nat
  | len :: rest, j + 1 => len + daysBefore rest j
  | _, _ => 0

theorem le_yearDays (y : Nat) : 365 ≤ yearDays y := by
  unfold yearDays
  split <;> decide

/-- Counting down years loses no day, and ends within a year if there are enough of them. -/
theorem yearFrom_spec {fuel y n : Nat} (h : n < 365 * fuel) :
    ∃ k r, yearFrom fuel y n = (y + k, r) ∧ n = daysUntil y k + r ∧ r < yearDays (y + k) := by
  induction fuel generalizing y n with
  | zero => omega
  | succ fuel ih =>
    rw [yearFrom]
    split
    · next hn => exact ⟨0, n, rfl, by simp [daysUntil], hn⟩
    · have hy := le_yearDays y
      obtain ⟨k, r, hrun, hdays, hr⟩ := ih (y := y + 1) (n := n - yearDays y) (by omega)
      have hnext : y + 1 + k = y + (k + 1) := by omega
      rw [hnext] at hrun hr
      exact ⟨k + 1, r, hrun, by rw [daysUntil]; omega, hr⟩

/-- Counting down months loses no day, and ends within a month if the year is long enough. -/
theorem monthFrom_spec {lens : List Nat} {m n : Nat} (h : n < daysBefore lens lens.length) :
    ∃ j r, monthFrom lens m n = (m + j, r) ∧ n = daysBefore lens j + r ∧ j < lens.length ∧
      r < lens.getD j 0 := by
  induction lens generalizing m n with
  | nil => simp [daysBefore] at h
  | cons len rest ih =>
    rw [monthFrom]
    split
    · next hn => exact ⟨0, n, rfl, by simp [daysBefore], by simp, hn⟩
    · rw [List.length_cons, daysBefore] at h
      obtain ⟨j, r, hrun, hdays, hj, hr⟩ := ih (m := m + 1) (n := n - len) (by omega)
      refine ⟨j + 1, r, ?_, by rw [daysBefore]; omega, by simpa using hj, hr⟩
      rw [hrun, Nat.add_assoc, Nat.add_comm 1 j]

theorem daysBefore_year (y : Nat) : daysBefore (monthDays y) (monthDays y).length = yearDays y := by
  unfold monthDays yearDays
  cases isLeap y <;> decide

theorem getD_monthDays_le (y j : Nat) : (monthDays y).getD j 0 ≤ 31 := by
  have hle : ∀ len ∈ monthDays y, len ≤ 31 := by
    unfold monthDays
    cases isLeap y <;> decide
  rw [List.getD_eq_getElem?_getD]
  cases h : (monthDays y)[j]? with
  | none => exact Nat.zero_le 31
  | some len => exact hle len (List.mem_of_getElem? h)

/-! ## Moments -/

/-- A day of the calendar from 1970 on, and a time of the day. -/
structure Moment.Proper (m : Moment) : Prop where
  year : 1970 ≤ m.year
  month : 1 ≤ m.month ∧ m.month ≤ 12
  day : 1 ≤ m.day ∧ m.day ≤ (monthDays m.year).getD (m.month - 1) 0
  hour : m.hour < 24
  minute : m.minute < 60
  second : m.second < 60

theorem Moment.Proper.day_le {m : Moment} (h : m.Proper) : m.day ≤ 31 :=
  Nat.le_trans h.day.2 (getD_monthDays_le m.year (m.month - 1))

/-- The days before a moment, from the first of January 1970. -/
def Moment.days (m : Moment) : Nat :=
  daysUntil 1970 (m.year - 1970) + (daysBefore (monthDays m.year) (m.month - 1) + (m.day - 1))

/-- The second that a moment names. -/
def Moment.seconds (m : Moment) : Nat := m.days * 86400 + (m.hour * 3600 + m.minute * 60 + m.second)

/-- The moment of a second is proper and names that second. -/
theorem ofSeconds_spec (t : Nat) : (Moment.ofSeconds t).Proper ∧ (Moment.ofSeconds t).seconds = t := by
  have henough : t / 86400 < 365 * (t / 86400 / 365 + 1) := by omega
  obtain ⟨k, rest, hyear, hdays, hrest⟩ := yearFrom_spec (y := 1970) henough
  rw [← daysBefore_year] at hrest
  obtain ⟨j, r, hmonth, hsplit, hj, hr⟩ := monthFrom_spec (m := 0) hrest
  have hj : j < 12 := hj
  have hmoment : Moment.ofSeconds t =
      ⟨1970 + k, j + 1, r + 1, t % 86400 / 3600, t % 86400 / 60 % 60, t % 86400 % 60⟩ := by
    simp only [Moment.ofSeconds, hyear, hmonth, Nat.zero_add]
  have hhour : t % 86400 / 3600 < 24 := by omega
  have hminute : t % 86400 / 60 % 60 < 60 := by omega
  have hsecond : t % 86400 % 60 < 60 := by omega
  rw [hmoment]
  refine ⟨⟨Nat.le_add_right .., ⟨Nat.le_add_left .., hj⟩, ⟨Nat.le_add_left .., hr⟩, hhour, hminute, hsecond⟩, ?_⟩
  simp only [Moment.seconds, Moment.days, Nat.add_sub_cancel, Nat.add_sub_cancel_left]
  omega

/-! ## Names -/

theorem isDigit_of_mem_padded {width n : Nat} {c : Char} (h : c ∈ padded width n) :
    c.isDigit = true := by
  rw [padded, List.mem_append] at h
  rcases h with h | h
  · rw [List.eq_of_mem_replicate h]
    decide
  · exact Nat.isDigit_of_mem_toDigits (by decide) (by decide) h

theorem mem_yearText {y : Nat} {c : Char} (h : c ∈ yearText y) : c.isDigit = true ∨ c = '+' := by
  unfold yearText at h
  split at h
  · exact Or.inl (isDigit_of_mem_padded h)
  · exact (List.mem_cons.mp h).symm.imp_left isDigit_of_mem_padded

theorem mem_timestamp {t : Nat} {c : Char} (h : c ∈ (timestamp t).toList) :
    c.isDigit = true ∨ c = '_' ∨ c = '+' := by
  simp only [timestamp, String.toList_ofList, List.mem_append, List.mem_singleton] at h
  rcases h with ((((((h | h) | h) | h) | h) | h) | h)
  · exact (mem_yearText h).imp_right Or.inr
  · exact Or.inl (isDigit_of_mem_padded h)
  · exact Or.inl (isDigit_of_mem_padded h)
  · exact Or.inr (Or.inl h)
  · exact Or.inl (isDigit_of_mem_padded h)
  · exact Or.inl (isDigit_of_mem_padded h)
  · exact Or.inl (isDigit_of_mem_padded h)

theorem underscore_mem_timestamp (t : Nat) : '_' ∈ (timestamp t).toList := by
  simp [timestamp]

theorem length_padded {n : Nat} (h : n < 100) : (padded 2 n).length = 2 := by
  have hle : (Nat.toDigits 10 n).length ≤ 2 := (Nat.length_toDigits_le_iff (by decide) (by decide)).mpr h
  simp only [padded, List.length_append, List.length_replicate]
  omega

/-- The fields behind the year have two digits each. -/
theorem Moment.Proper.lengths {m : Moment} (h : m.Proper) :
    (padded 2 m.month).length = 2 ∧ (padded 2 m.day).length = 2 ∧ (padded 2 m.hour).length = 2 ∧
      (padded 2 m.minute).length = 2 ∧ (padded 2 m.second).length = 2 := by
  have hmonth := h.month
  have hday := h.day_le
  have hhour := h.hour
  have hminute := h.minute
  have hsecond := h.second
  refine ⟨?_, ?_, ?_, ?_, ?_⟩ <;> exact length_padded (by omega)

theorem ofDigitChars_padded (width n : Nat) : Nat.ofDigitChars 10 (padded width n) 0 = n := by
  rw [padded, Nat.ofDigitChars_append, Nat.ofDigitChars_replicate_zero, Nat.mul_zero, Nat.ofDigitChars_ten_toDigits]

theorem padded_injective {width a b : Nat} (h : padded width a = padded width b) : a = b := by
  rw [← ofDigitChars_padded width a, h, ofDigitChars_padded]

theorem yearText_injective {y y' : Nat} (h : yearText y = yearText y') : y = y' := by
  -- a sign is no digit, so years with one differ from those without
  have hsign : ∀ n n', padded 4 n ≠ '+' :: padded 4 n' := by
    intro n n' he
    exact absurd (isDigit_of_mem_padded (he ▸ List.mem_cons_self)) (by decide)
  unfold yearText at h
  split at h <;> split at h
  · exact padded_injective h
  · exact absurd h (hsign _ _)
  · exact absurd h.symm (hsign _ _)
  · exact padded_injective (List.cons.inj h).2

/-- Names made in different seconds differ. -/
theorem timestamp_injective {a b : Nat} (h : timestamp a = timestamp b) : a = b := by
  obtain ⟨hm, ha⟩ := ofSeconds_spec a
  obtain ⟨hm', hb⟩ := ofSeconds_spec b
  rw [timestamp, timestamp] at h
  generalize Moment.ofSeconds a = m at *
  generalize Moment.ofSeconds b = m' at *
  have hlist := congrArg String.toList h
  simp only [String.toList_ofList] at hlist
  -- every field but the first has two digits, so the fields are found from the end
  obtain ⟨hmonth, hday, hhour, hminute, hsecond⟩ := hm.lengths
  obtain ⟨hmonth', hday', hhour', hminute', hsecond'⟩ := hm'.lengths
  obtain ⟨hlist, h₁⟩ := List.append_inj' hlist (hsecond.trans hsecond'.symm)
  obtain ⟨hlist, h₂⟩ := List.append_inj' hlist (hminute.trans hminute'.symm)
  obtain ⟨hlist, h₃⟩ := List.append_inj' hlist (hhour.trans hhour'.symm)
  obtain ⟨hlist, -⟩ := List.append_inj' hlist rfl
  obtain ⟨hlist, h₄⟩ := List.append_inj' hlist (hday.trans hday'.symm)
  obtain ⟨h₆, h₅⟩ := List.append_inj' hlist (hmonth.trans hmonth'.symm)
  rw [← ha, ← hb, Moment.seconds, Moment.seconds, Moment.days, Moment.days, padded_injective h₁, padded_injective h₂,
    padded_injective h₃, padded_injective h₄, padded_injective h₅, yearText_injective h₆]

end Outfitter.Calendar
