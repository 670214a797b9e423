import Mathlib.Order.Monotone.Basic
import Outfitter.Proofs.Calendar

/-! # Names in the order of time

Years and months lie one after the other without a gap, so that a later second is a later moment:
the fields of moments, from the year down, are ordered as the seconds are. In a name each field has
a fixed width, so names are ordered as the fields are, as long as years have four digits.
-/

namespace Outfitter.Calendar

/-! ## Days in order -/

section Parts

variable {start len : Nat → Nat} {i j r s : Nat}

theorem monotone_of_parts (hnext : ∀ k, start (k + 1) = start k + len k) : Monotone start :=
  monotone_nat_of_le_succ fun k => by rw [hnext]; exact Nat.le_add_right _ _

/-- Where parts lie one after the other, what is not later is in no later part. -/
theorem part_le (hnext : ∀ k, start (k + 1) = start k + len k) (hs : s < len j)
    (h : start i + r ≤ start j + s) : i ≤ j := by
  by_contra hlt
  have hmono : start (j + 1) ≤ start i := monotone_of_parts hnext (by omega)
  rw [hnext] at hmono
  omega

end Parts

theorem daysUntil_succ (y k : Nat) : daysUntil y (k + 1) = daysUntil y k + yearDays (y + k) := by
  induction k generalizing y with
  | zero => simp [daysUntil]
  | succ k ih =>
    have hyear : y + 1 + k = y + (k + 1) := by omega
    rw [daysUntil, ih, daysUntil, hyear, Nat.add_assoc]

theorem daysBefore_succ (lens : List Nat) (j : Nat) :
    daysBefore lens (j + 1) = daysBefore lens j + lens.getD j 0 := by
  induction lens generalizing j with
  | nil => rfl
  | cons len rest ih =>
    cases j with
    | zero => simp [daysBefore]
    | succ j => rw [daysBefore, ih, daysBefore, Nat.add_assoc, List.getD_cons_succ]

/-- The leap days of the years before one. -/
def leapDays (y : Nat) : Nat := (y - 1) / 4 - (y - 1) / 100 + (y - 1) / 400

theorem yearDays_add_leapDays {y : Nat} (hy : 0 < y) : yearDays y + leapDays y = 365 + leapDays (y + 1) := by
  obtain ⟨x, rfl⟩ := Nat.exists_eq_add_one.mpr hy
  have hleap : isLeap (x + 1) = true ↔ (x + 1) % 4 = 0 ∧ ((x + 1) % 100 ≠ 0 ∨ (x + 1) % 400 = 0) := by
    simp [isLeap]
  have hcentury : (x + 1) % 100 = 0 → (x + 1) % 4 = 0 := by omega
  have hfourth : (x + 1) % 400 = 0 → (x + 1) % 100 = 0 := by omega
  have hless : x / 100 ≤ x / 4 := by omega
  simp only [leapDays, Nat.add_sub_cancel, Nat.succ_div, Nat.dvd_iff_mod_eq_zero, yearDays, hleap]
  -- what is left is about which of the three remainders are zero
  generalize (x + 1) % 4 = r at *
  generalize (x + 1) % 100 = s at *
  generalize (x + 1) % 400 = u at *
  generalize x / 4 = a at *
  generalize x / 100 = b at *
  split <;> split <;> split <;> split <;> omega

/-- Every year has 365 days, and leap days come on top. -/
theorem daysUntil_add_leapDays (k : Nat) : daysUntil 1970 k + leapDays 1970 = 365 * k + leapDays (1970 + k) := by
  induction k with
  | zero => rfl
  | succ k ih =>
    have hyear := yearDays_add_leapDays (y := 1970 + k) (by omega)
    rw [daysUntil_succ, ← Nat.add_assoc 1970 k 1]
    omega

/-! ## Moments in order -/

namespace Moment

variable {m m' : Moment}

/-- The fields of a moment, from the year down. -/
def fields (m : Moment) : List Nat := [m.year, m.month, m.day, m.hour, m.minute, m.second]

theorem Proper.dayOfYear_lt (h : m.Proper) :
    daysBefore (monthDays m.year) (m.month - 1) + (m.day - 1) < yearDays m.year := by
  obtain ⟨hmonth, hle⟩ := h.month
  obtain ⟨hday, hlen⟩ := h.day
  calc daysBefore (monthDays m.year) (m.month - 1) + (m.day - 1)
      < daysBefore (monthDays m.year) (m.month - 1) + (monthDays m.year).getD (m.month - 1) 0 := by omega
    _ = daysBefore (monthDays m.year) (m.month - 1 + 1) := (daysBefore_succ _ _).symm
    _ ≤ daysBefore (monthDays m.year) (monthDays m.year).length :=
      monotone_of_parts (daysBefore_succ (monthDays m.year)) (show m.month - 1 + 1 ≤ 12 by omega)
    _ = yearDays m.year := daysBefore_year m.year

theorem Proper.year_le (hm : m.Proper) (hm' : m'.Proper) (h : m.days ≤ m'.days) : m.year ≤ m'.year := by
  have hy := hm.year
  have hy' := hm'.year
  have hrest : daysBefore (monthDays m'.year) (m'.month - 1) + (m'.day - 1) < yearDays (1970 + (m'.year - 1970)) := by
    rw [Nat.add_sub_cancel' hy']
    exact hm'.dayOfYear_lt
  have hpart : m.year - 1970 ≤ m'.year - 1970 := part_le (daysUntil_succ 1970) hrest h
  omega

theorem Proper.month_le (hm : m.Proper) (hm' : m'.Proper) (hyear : m.year = m'.year) (h : m.days ≤ m'.days) :
    m.month ≤ m'.month := by
  obtain ⟨hpos, -⟩ := hm.month
  obtain ⟨hpos', -⟩ := hm'.month
  obtain ⟨hday, hlen⟩ := hm'.day
  rw [days, days, hyear] at h
  have hpart : m.month - 1 ≤ m'.month - 1 :=
    part_le (daysBefore_succ (monthDays m'.year)) (s := m'.day - 1) (by omega) (Nat.le_of_add_le_add_left h)
  omega

/-- A later second is a later moment. -/
theorem Proper.fields_lt (hm : m.Proper) (hm' : m'.Proper) (h : m.seconds < m'.seconds) : m.fields < m'.fields := by
  have hhour := hm.hour
  have hhour' := hm'.hour
  have hminute := hm.minute
  have hminute' := hm'.minute
  have hsecond := hm.second
  have hsecond' := hm'.second
  have hday := hm.day
  have hday' := hm'.day
  rw [seconds, seconds] at h
  have hdays : m.days ≤ m'.days := by omega
  rw [fields, fields, List.cons_lt_cons_iff]
  rcases Nat.lt_or_eq_of_le (hm.year_le hm' hdays) with hyear | hyear
  · exact Or.inl hyear
  refine Or.inr ⟨hyear, ?_⟩
  rw [List.cons_lt_cons_iff]
  rcases Nat.lt_or_eq_of_le (hm.month_le hm' hyear hdays) with hmonth | hmonth
  · exact Or.inl hmonth
  refine Or.inr ⟨hmonth, ?_⟩
  -- in one month the rest is counted in equal steps
  rw [days, days, hyear, hmonth] at h
  simp only [List.cons_lt_cons_iff, List.not_lt_nil, and_false, or_false]
  omega

theorem Proper.year_le_iff (hm : m.Proper) : m.year ≤ 9999 ↔ m.seconds < 253402300800 := by
  have hyear := hm.year
  have hhour := hm.hour
  have hminute := hm.minute
  have hsecond := hm.second
  have hrest := hm.dayOfYear_lt
  have hnext := daysUntil_succ 1970 (m.year - 1970)
  rw [Nat.add_sub_cancel' hyear] at hnext
  have hmono := monotone_of_parts (daysUntil_succ 1970)
  -- the years of four digits are counted by the rule for leap days, not one by one
  obtain ⟨k, hk⟩ : ∃ k, k = 8030 := ⟨_, rfl⟩
  have hend : daysUntil 1970 k = 2932897 := by
    have hcount := daysUntil_add_leapDays k
    rw [leapDays, leapDays] at hcount
    omega
  rw [seconds, days]
  constructor
  · intro hle
    have hdays : daysUntil 1970 (m.year - 1970 + 1) ≤ daysUntil 1970 k := hmono (by omega)
    omega
  · intro hlt
    by_contra hgt
    have hdays : daysUntil 1970 k ≤ daysUntil 1970 (m.year - 1970) := hmono (by omega)
    omega

end Moment

/-- The years of four digits end with the second 253402300799. -/
theorem year_ofSeconds_le_iff (t : Nat) : (Moment.ofSeconds t).year ≤ 9999 ↔ t ≤ 253402300799 := by
  obtain ⟨hm, ht⟩ := ofSeconds_spec t
  rw [hm.year_le_iff, ht]
  exact Nat.lt_succ_iff

/-! ## Names in order -/

theorem toNat_of_isDigit {c : Char} (h : c.isDigit = true) : 48 ≤ c.toNat ∧ c.toNat ≤ 57 := by
  simpa [Char.isDigit, UInt32.le_iff_toNat_le] using h

/-- As many digits behind a smaller number make a smaller number. -/
theorem ofDigitChars_lt {cs ds : List Char} {i j : Nat} (hlen : cs.length = ds.length)
    (hc : ∀ c ∈ cs, c.isDigit = true) (h : i < j) : Nat.ofDigitChars 10 cs i < Nat.ofDigitChars 10 ds j := by
  induction cs generalizing ds i j with
  | nil =>
    rw [List.length_nil, eq_comm, List.length_eq_zero_iff] at hlen
    rw [hlen]
    exact h
  | cons c cs ih =>
    cases ds with
    | nil => cases hlen
    | cons d ds =>
      obtain ⟨hc, hcs⟩ := List.forall_mem_cons.mp hc
      have hdigit := toNat_of_isDigit hc
      have hzero : '0'.toNat = 48 := rfl
      rw [Nat.ofDigitChars_cons, Nat.ofDigitChars_cons]
      exact ih (Nat.succ.inj hlen) hcs (by omega)

/-- Of two texts of as many digits, that of the smaller number comes first. -/
theorem append_lt_of_ofDigitChars_lt {cs ds : List Char} {i : Nat} (hlen : cs.length = ds.length)
    (hc : ∀ c ∈ cs, c.isDigit = true) (hd : ∀ d ∈ ds, d.isDigit = true)
    (h : Nat.ofDigitChars 10 cs i < Nat.ofDigitChars 10 ds i) (xs ys : List Char) : cs ++ xs < ds ++ ys := by
  induction cs generalizing ds i with
  | nil =>
    rw [List.length_nil, eq_comm, List.length_eq_zero_iff] at hlen
    rw [hlen] at h
    exact absurd h (Nat.lt_irrefl _)
  | cons c cs ih =>
    cases ds with
    | nil => cases hlen
    | cons d ds =>
      obtain ⟨hc, hcs⟩ := List.forall_mem_cons.mp hc
      obtain ⟨hd, hds⟩ := List.forall_mem_cons.mp hd
      have hlen := Nat.succ.inj hlen
      have hdigit := toNat_of_isDigit hc
      have hdigit' := toNat_of_isDigit hd
      have hzero : '0'.toNat = 48 := rfl
      rw [Nat.ofDigitChars_cons, Nat.ofDigitChars_cons] at h
      rw [List.cons_append, List.cons_append, List.cons_lt_cons_iff]
      rcases Nat.lt_trichotomy c.toNat d.toNat with hlt | heq | hgt
      · exact Or.inl hlt
      · rw [heq] at h
        exact Or.inr ⟨Char.toNat_inj.mp heq, ih hlen hcs hds h⟩
      · have hback := ofDigitChars_lt (i := 10 * i + (d.toNat - '0'.toNat)) (j := 10 * i + (c.toNat - '0'.toNat))
          hlen.symm hds (by omega)
        exact absurd h (Nat.lt_asymm hback)

theorem padded_append_lt {width a b : Nat} {xs ys : List Char} (ha : (padded width a).length = width)
    (hb : (padded width b).length = width) (h : a < b ∨ a = b ∧ xs < ys) :
    padded width a ++ xs < padded width b ++ ys := by
  rcases h with h | ⟨rfl, h⟩
  · refine append_lt_of_ofDigitChars_lt (i := 0) (ha.trans hb.symm) (fun _ => isDigit_of_mem_padded)
      (fun _ => isDigit_of_mem_padded) ?_ xs ys
    rw [ofDigitChars_padded, ofDigitChars_padded]
    exact h
  · exact List.append_left_lt h

theorem yearText_of_le {y : Nat} (h : y ≤ 9999) : yearText y = padded 4 y ∧ (padded 4 y).length = 4 := by
  have hle : (Nat.toDigits 10 y).length ≤ 4 :=
    (Nat.length_toDigits_le_iff (by decide) (by decide)).mpr (Nat.lt_succ_of_le h)
  refine ⟨if_pos (Nat.lt_succ_of_le h), ?_⟩
  simp only [padded, List.length_append, List.length_replicate]
  omega

theorem toList_timestamp (t : Nat) :
    let m := Moment.ofSeconds t
    (timestamp t).toList = yearText m.year ++ (padded 2 m.month ++ (padded 2 m.day ++
      '_' :: (padded 2 m.hour ++ (padded 2 m.minute ++ padded 2 m.second)))) := by
  simp [timestamp]

/-- Up to the year 9999 the name of a later second is greater. -/
theorem timestamp_lt {a b : Nat} (h : a < b) (hend : b ≤ 253402300799) : timestamp a < timestamp b := by
  obtain ⟨hm, ha⟩ := ofSeconds_spec a
  obtain ⟨hm', hb⟩ := ofSeconds_spec b
  obtain ⟨htext, hyear⟩ := yearText_of_le ((year_ofSeconds_le_iff a).mpr (by omega))
  obtain ⟨htext', hyear'⟩ := yearText_of_le ((year_ofSeconds_le_iff b).mpr hend)
  obtain ⟨hmonth, hday, hhour, hminute, hsecond⟩ := hm.lengths
  obtain ⟨hmonth', hday', hhour', hminute', hsecond'⟩ := hm'.lengths
  have hfields := hm.fields_lt hm' (by rw [ha, hb]; exact h)
  simp only [Moment.fields, List.cons_lt_cons_iff, List.not_lt_nil, and_false, or_false] at hfields
  show (timestamp a).toList < (timestamp b).toList
  rw [toList_timestamp, toList_timestamp, htext, htext']
  -- each field decides, or it is the same in both and the next one follows
  refine padded_append_lt hyear hyear' (hfields.imp_right (And.imp_right fun hfields => ?_))
  refine padded_append_lt hmonth hmonth' (hfields.imp_right (And.imp_right fun hfields => ?_))
  refine padded_append_lt hday hday' (hfields.imp_right (And.imp_right fun hfields => ?_))
  refine List.cons_lt_cons_iff.mpr (Or.inr ⟨rfl, ?_⟩)
  refine padded_append_lt hhour hhour' (hfields.imp_right (And.imp_right fun hfields => ?_))
  refine padded_append_lt hminute hminute' (hfields.imp_right (And.imp_right fun hfields => ?_))
  simpa using @padded_append_lt 2 _ _ [] [] hsecond hsecond' (Or.inl hfields)

/-- The form of a name: eight digits, an underscore and six digits. -/
def isMomentName (s : String) : Bool :=
  s.length == 15 && (s.toList.take 8).all Char.isDigit && s.toList[8]? == some '_' &&
    (s.toList.drop 9).all Char.isDigit

theorem isMomentName_of_parts {s : String} {date time : List Char} (h : s.toList = date ++ '_' :: time)
    (hdate : date.length = 8) (htime : time.length = 6) (hd : ∀ c ∈ date, c.isDigit = true)
    (ht : ∀ c ∈ time, c.isDigit = true) : isMomentName s = true := by
  have hlen : s.length = 15 := by
    rw [← String.length_toList, h, List.length_append, List.length_cons, hdate, htime]
  have hmark : s.toList[8]? = some '_' := by
    rw [h, List.getElem?_append_right (by omega), hdate]
    rfl
  have hfirst : s.toList.take 8 = date := by rw [h, List.take_left' hdate]
  have hrest : s.toList.drop 9 = time := by
    rw [h, List.drop_append, List.drop_eq_nil_of_le (by omega), hdate]
    rfl
  rw [isMomentName, hlen, hmark, hfirst, hrest, List.all_eq_true.mpr hd, List.all_eq_true.mpr ht]
  rfl

theorem isMomentName_timestamp {t : Nat} (h : t ≤ 253402300799) : isMomentName (timestamp t) = true := by
  obtain ⟨hm, -⟩ := ofSeconds_spec t
  obtain ⟨htext, hyear⟩ := yearText_of_le ((year_ofSeconds_le_iff t).mpr h)
  obtain ⟨hmonth, hday, hhour, hminute, hsecond⟩ := hm.lengths
  have hlist := toList_timestamp t
  dsimp only at hlist
  rw [htext, ← List.append_assoc, ← List.append_assoc] at hlist
  refine isMomentName_of_parts hlist ?_ ?_ ?_ ?_
  · simp only [List.length_append, hyear, hmonth, hday]
  · simp only [List.length_append, hhour, hminute, hsecond]
  · intro c hc
    simp only [List.mem_append, or_assoc] at hc
    rcases hc with hc | hc | hc <;> exact isDigit_of_mem_padded hc
  · intro c hc
    simp only [List.mem_append] at hc
    rcases hc with hc | hc | hc <;> exact isDigit_of_mem_padded hc

end Outfitter.Calendar
