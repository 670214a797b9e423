import Outfitter.Json.Token
import Outfitter.Proofs.Json.Number

/-! # Floating-point numbers are read back

The written form of a floating-point number that is not infinite is read as one that is not
infinite either. It need not be the same: reading rounds more than once.
-/

namespace Outfitter.Json.Number

open Decimal Token

variable {negative : Bool} {s fuel f : Nat} {e : Int} {cs ws fs after : List Char}

/-! ## Scaling -/

theorem scale?_of_neg (he : e < 0) : ∃ g, scale? fuel f e = some g := by
  induction fuel generalizing f e with
  | zero => exact ⟨0, rfl⟩
  | succ fuel ih =>
    rw [scale?]
    by_cases hsmall : e.natAbs ≤ 308
    · rw [if_pos hsmall, if_neg (by omega)]
      exact ⟨_, rfl⟩
    · rw [if_neg hsmall]
      by_cases hzero : f = 0
      · rw [if_pos hzero]
        exact ⟨_, rfl⟩
      · rw [if_neg hzero, if_neg (by omega)]
        exact ih (by omega)

/-- A product that is not infinite is a number. -/
theorem float?_of_lt {x : Nat} (hx : x ≤ 308) (h : multiply (ofNat s) (powerOfTen x) < infinity) :
    ∃ bits, float? negative s x = some (.float bits) := by
  have hscale : scale? 4 (ofNat s) x = some (multiply (ofNat s) (powerOfTen x)) := by
    rw [scale?, if_pos (by omega), if_pos (by omega), Int.natAbs_natCast]
    exact if_pos h
  exact ⟨_, by rw [float?, hscale, Option.map_some]⟩

theorem float?_of_nonpos (hs : s ≤ maxSignificand) (he : e ≤ 0) :
    ∃ bits, float? negative s e = some (.float bits) := by
  rcases Int.lt_or_eq_of_le he with hneg | rfl
  · obtain ⟨g, hg⟩ : ∃ g, scale? 4 (ofNat s) e = some g := scale?_of_neg hneg
    exact ⟨_, by rw [float?, hg, Option.map_some]⟩
  · have hmax : multiply (ofNat maxSignificand) (powerOfTen 0) < infinity := by decide +kernel
    exact float?_of_lt (x := 0) (by decide)
      (Nat.lt_of_le_of_lt (multiply_mono (ofNat_mono hs) (Nat.le_refl _)) hmax)

/-- The shortest decimal of a number is read as a number. -/
theorem float?_shortest (negative : Bool) {b : Binary} (hf : b.Finite) (hm : 0 < b.mantissa) :
    ∃ bits, float? negative b.shortest.digits b.shortest.scale = some (.float bits) := by
  by_cases hb : b = .largest
  · have hlargest : Binary.largest.shortest = ⟨17976931348623157, 292⟩ := by decide +kernel
    rw [hb, hlargest]
    exact float?_of_lt (by decide) (by decide +kernel)
  rcases hf.shortest_cases hm with hzero | ⟨hon, hpos, hlt⟩
  · rw [hzero]
    exact float?_of_nonpos (by decide) (by decide)
  by_cases hs : b.shortest.scale ≤ 0
  · exact float?_of_nonpos (Nat.le_trans (Nat.le_of_lt hlt) (by decide)) hs
  obtain ⟨x, hx⟩ : ∃ x : Nat, b.shortest.scale = x := ⟨b.shortest.scale.toNat, by omega⟩
  rw [hx] at hon ⊢
  have hvalue := Nat.le_trans (Binary.value_le (by omega) hon) (hf.high_le hb)
  rw [Int.toNat_natCast] at hvalue
  obtain ⟨hle, hproduct⟩ := multiply_lt_infinity hpos hlt hvalue
  exact float?_of_lt hle hproduct

/-! ## Written forms -/

/-- The text does not go on with a digit. -/
def Breaks (cs : List Char) : Prop := ∀ c ∈ cs.head?, c.isDigit = false

theorem takeWhile_digits (hw : ∀ c ∈ ws, c.isDigit = true) (ha : Breaks after) :
    (ws ++ after).takeWhile Char.isDigit = ws ∧ (ws ++ after).dropWhile Char.isDigit = after := by
  induction ws with
  | nil =>
    cases after with
    | nil => exact ⟨rfl, rfl⟩
    | cons c after =>
      have hc : c.isDigit = false := ha c rfl
      simp [hc]
  | cons c ws ih =>
    obtain ⟨ht, hd⟩ := ih fun a h => hw a (List.mem_cons_of_mem _ h)
    simp [hw c List.mem_cons_self, ht, hd]

theorem digitsOf_cons {c : Char} (hc : c.isDigit = true) (cs : List Char) :
    digitsOf (c :: cs) = (c.toNat - 48) :: digitsOf cs := by
  have hdigit : digit? c = some (c.toNat - 48) := if_pos hc
  rw [digitsOf, List.takeWhile_cons_of_pos hc, List.filterMap_cons, hdigit, ← digitsOf]

theorem digitsOf_append (hw : ∀ c ∈ ws, c.isDigit = true) (ha : Breaks after) :
    digitsOf (ws ++ after) = digitsOf ws := by
  rw [digitsOf_eq hw, digitsOf, (takeWhile_digits hw ha).1]

/-- Digits before a point or an exponent: not none, and no zero before another digit. -/
def Leading (ds : List Nat) : Prop := ds ≠ [] ∧ (ds.head? = some 0 → ds.length = 1)

theorem unsigned?_append (hw : ∀ c ∈ ws, c.isDigit = true) (ha : Breaks after) (hl : Leading (digitsOf ws)) :
    unsigned? negative (ws ++ after) = afterWhole? negative (digitsOf ws) after := by
  have hlead : ((digitsOf ws).isEmpty || ((digitsOf ws).head? = some 0 && 1 < (digitsOf ws).length)) = false := by
    rw [Bool.or_eq_false_iff, Bool.and_eq_false_iff, List.isEmpty_eq_false_iff, decide_eq_false_iff_not,
      decide_eq_false_iff_not]
    refine ⟨hl.1, ?_⟩
    by_cases hz : (digitsOf ws).head? = some 0
    · exact Or.inr (by rw [hl.2 hz]; decide)
    · exact Or.inl hz
  rw [unsigned?, digitsOf_append hw ha, hlead, (takeWhile_digits hw ha).2]
  rfl

theorem afterWhole?_point {whole : List Nat} {x : Option Int} (hf : ∀ c ∈ fs, c.isDigit = true)
    (hne : digitsOf fs ≠ []) (ha : Breaks after) (hx : exponent? after = some x) :
    afterWhole? negative whole ('.' :: (fs ++ after)) = some ⟨negative, whole, some (digitsOf fs), x⟩ := by
  rw [afterWhole?, digitsOf_append hf ha, (takeWhile_digits hf ha).2, hx, if_neg (by simpa using hne)]
  rfl

/-- An exponent with its sign. -/
def exponentChars (e : Int) : List Char := 'e' :: (if e < 0 then '-' else '+') :: digitChars e.natAbs

theorem breaks_exponentChars (e : Int) : Breaks (exponentChars e) := by
  rintro c ⟨⟩
  decide

theorem exponentDigits?_digitChars (n : Nat) : exponentDigits? (digitChars n) = some n := by
  obtain ⟨d, ds, hds, -, hspell⟩ := digitsOf_digitChars n
  have hne : digitChars n ≠ [] := Nat.toDigits_ne_nil
  have hall : (digitChars n).all Char.isDigit = true := List.all_eq_true.mpr fun _ => isDigit_digitChars
  have hcond : (decide (digitChars n ≠ []) && (digitChars n).all Char.isDigit) = true := by
    rw [hall, Bool.and_true, decide_eq_true_eq]
    exact hne
  rw [exponentDigits?, if_pos hcond, hds]
  exact congrArg some hspell

theorem exponent?_exponentChars (e : Int) : exponent? (exponentChars e) = some (some e) := by
  unfold exponentChars
  by_cases h : e < 0
  · rw [if_pos h, exponent?, exponentDigits?_digitChars]
    show some (some (-(e.natAbs : Int))) = some (some e)
    rw [show -(e.natAbs : Int) = e by omega]
  · rw [if_neg h, exponent?, exponentDigits?_digitChars]
    show some (some (e.natAbs : Int)) = some (some e)
    rw [show (e.natAbs : Int) = e by omega]

theorem afterWhole?_exponentChars (whole : List Nat) (e : Int) :
    afterWhole? negative whole (exponentChars e) = some ⟨negative, whole, none, some e⟩ := by
  have h : afterWhole? negative whole (exponentChars e) =
      (exponent? (exponentChars e)).map fun x => ⟨negative, whole, none, x⟩ := rfl
  rw [h, exponent?_exponentChars, Option.map_some]

/-! ## Values of written forms -/

theorem value?_of_fraction {whole fraction : List Nat} {x : Option Int}
    (h : spell 0 (whole ++ fraction) ≤ maxSignificand) :
    (Written.mk negative whole (some fraction) x).value? =
      float? negative (spell 0 (whole ++ fraction)) (x.getD 0 - fraction.length) := by
  have hsplit := spell_append 0 whole fraction
  rw [hsplit] at h ⊢
  have hwhole := absorb_of_spell (Nat.le_trans (le_spell _ fraction) h)
  simp only [Written.value?, hwhole, Option.getD_some, absorb_of_spell h]
  congr 1
  omega

theorem value?_of_exponent {whole : List Nat} (h : spell 0 whole ≤ maxSignificand) (e : Int) :
    (Written.mk negative whole none (some e)).value? = float? negative (spell 0 whole) e := by
  simp only [Written.value?, absorb_of_spell h, Option.getD_none, Option.getD_some, absorb]
  congr 1
  omega

theorem digitsOf_append_digits (hw : ∀ c ∈ ws, c.isDigit = true) (hf : ∀ c ∈ fs, c.isDigit = true) :
    digitsOf (ws ++ fs) = digitsOf ws ++ digitsOf fs := by
  rw [digitsOf_eq (List.forall_mem_append.mpr ⟨hw, hf⟩), digitsOf_eq hw, digitsOf_eq hf,
    List.filterMap_append]

theorem length_digitsOf (hw : ∀ c ∈ ws, c.isDigit = true) : (digitsOf ws).length = ws.length := by
  induction ws with
  | nil => rfl
  | cons c ws ih =>
    rw [digitsOf_cons (hw c List.mem_cons_self), List.length_cons, List.length_cons,
      ih fun a h => hw a (List.mem_cons_of_mem _ h)]

/-- Digits after a number spell less than its successor followed by zeros. -/
theorem spell_lt (hw : ∀ c ∈ ws, c.isDigit = true) : spell s (digitsOf ws) < (s + 1) * Nat.pow 10 ws.length := by
  induction ws generalizing s with
  | nil => simp [spell, digitsOf]
  | cons c ws ih =>
    have hdigit := hw c List.mem_cons_self
    rw [digitsOf_cons hdigit]
    have hlt : c.toNat - 48 < 10 := by
      simp only [Char.isDigit, Bool.and_eq_true, decide_eq_true_eq] at hdigit
      have hle : c.toNat ≤ 57 := hdigit.2
      omega
    have hpow : Nat.pow 10 (c :: ws).length = 10 * Nat.pow 10 ws.length := Nat.pow_succ'
    rw [hpow, ← Nat.mul_assoc]
    refine Nat.lt_of_lt_of_le (ih fun a h => hw a (List.mem_cons_of_mem _ h)) ?_
    have hstep : s * 10 + (c.toNat - 48) + 1 ≤ (s + 1) * 10 := by omega
    exact Nat.mul_le_mul_right _ hstep

theorem length_digitChars_pos (n : Nat) : 0 < (digitChars n).length :=
  List.length_pos_iff.mpr Nat.toDigits_ne_nil

/-- Digits that spell a decimal, cut anywhere. -/
theorem spell_cut (n k : Nat) :
    spell 0 (digitsOf ((digitChars n).take k) ++ digitsOf ((digitChars n).drop k)) = n := by
  obtain ⟨d, ds, hds, -, hspell⟩ := digitsOf_digitChars n
  rw [← digitsOf_append_digits (fun c h => isDigit_digitChars (List.mem_of_mem_take h))
    (fun c h => isDigit_digitChars (List.mem_of_mem_drop h)), List.take_append_drop, hds, hspell]

theorem leading_append {n k : Nat} (hn : 0 < n) (hk : 0 < k) (fs : List Char) :
    Leading (digitsOf ((digitChars n).take k ++ fs)) := by
  obtain ⟨d, ds, hds, hzero, -⟩ := digitsOf_digitChars n
  obtain ⟨c, cs, hcs⟩ : ∃ c cs, digitChars n = c :: cs := List.exists_cons_of_ne_nil Nat.toDigits_ne_nil
  obtain ⟨j, rfl⟩ : ∃ j, k = j + 1 := ⟨k - 1, by omega⟩
  have hc : c.isDigit = true := isDigit_digitChars (hcs ▸ List.mem_cons_self)
  rw [hcs, digitsOf_cons hc] at hds
  obtain ⟨rfl, -⟩ := List.cons.inj hds
  rw [hcs, List.take_succ_cons, List.cons_append, digitsOf_cons hc]
  refine ⟨List.cons_ne_nil _ _, fun hhead => ?_⟩
  have := (hzero (Option.some.inj hhead)).2
  omega

/-! ## Numbers are read back -/

/-- The characters after the sign are read as a floating-point number. -/
def Reads (negative : Bool) (cs : List Char) : Prop :=
  ∃ bits, (unsigned? negative cs).bind Written.value? = some (.float bits)

/-- Digits with a point among them are read if they are not too many. -/
theorem reads_point (hw : ∀ c ∈ ws, c.isDigit = true) (hf : ∀ c ∈ fs, c.isDigit = true)
    (hl : Leading (digitsOf ws)) (hne : fs ≠ [])
    (hs : spell 0 (digitsOf ws ++ digitsOf fs) ≤ maxSignificand) : Reads negative (ws ++ '.' :: fs) := by
  have hdigits : digitsOf fs ≠ [] := by
    intro h
    have := length_digitsOf hf
    rw [h] at this
    exact hne (List.eq_nil_of_length_eq_zero this.symm)
  have hpoint : afterWhole? negative (digitsOf ws) ('.' :: (fs ++ [])) =
      some ⟨negative, digitsOf ws, some (digitsOf fs), none⟩ :=
    afterWhole?_point hf hdigits (by rintro c ⟨⟩) rfl
  rw [List.append_nil] at hpoint
  obtain ⟨bits, hbits⟩ : ∃ bits, float? negative (spell 0 (digitsOf ws ++ digitsOf fs))
      ((none : Option Int).getD 0 - (digitsOf fs).length) = some (.float bits) :=
    float?_of_nonpos hs (by simp)
  refine ⟨bits, ?_⟩
  rw [unsigned?_append hw (by rintro c ⟨⟩; decide) hl, hpoint, Option.bind_some, value?_of_fraction hs, hbits]

theorem isDigit_zeros {k : Nat} {c : Char} (h : c ∈ zeros k) : c.isDigit = true := by
  rw [List.eq_of_mem_replicate h]
  decide

theorem spell_zeros (k : Nat) : spell 0 (digitsOf (zeros k)) = 0 := by
  induction k with
  | zero => rfl
  | succ k ih =>
    rw [zeros, List.replicate_succ, digitsOf_cons (by decide)]
    exact ih

theorem reads_plainChars {n : Nat} {scale : Int} (hn : 0 < n) (hlt : n < 0x16345785d8a0000)
    (he : isPlain (scale + (digitChars n).length - 1) = true) :
    Reads negative (plainChars (digitChars n) scale) := by
  have htake {k : Nat} : ∀ c ∈ (digitChars n).take k, c.isDigit = true := fun c h =>
    isDigit_digitChars (List.mem_of_mem_take h)
  have hdrop {k : Nat} : ∀ c ∈ (digitChars n).drop k, c.isDigit = true := fun c h =>
    isDigit_digitChars (List.mem_of_mem_drop h)
  simp only [isPlain, Bool.and_eq_true, decide_eq_true_eq] at he
  rw [plainChars]
  split
  · next hs =>
    have hws : ∀ c ∈ digitChars n ++ zeros scale.toNat, c.isDigit = true :=
      List.forall_mem_append.mpr ⟨fun _ => isDigit_digitChars, fun _ => isDigit_zeros⟩
    have hfs : ∀ c ∈ ['0'], c.isDigit = true := List.all_eq_true.mp rfl
    have hlead := leading_append hn (length_digitChars_pos n) (zeros scale.toNat)
    rw [List.take_length] at hlead
    refine reads_point hws hfs hlead (List.cons_ne_nil _ _) ?_
    rw [← digitsOf_append_digits hws hfs]
    refine Nat.le_trans (Nat.le_of_lt (spell_lt (List.forall_mem_append.mpr ⟨hws, hfs⟩))) ?_
    have hlength : (digitChars n ++ zeros scale.toNat ++ ['0']).length ≤ 17 := by
      rw [List.length_append, List.length_append, zeros, List.length_replicate, List.length_singleton]
      omega
    refine Nat.le_trans (Nat.mul_le_mul_left _ (Nat.pow_le_pow_right (by decide) hlength)) (by decide)
  · next hs =>
    split
    · next hp =>
      rw [List.append_assoc, List.singleton_append]
      have hlead := leading_append hn (k := (scale + (digitChars n).length).toNat) (by omega) []
      rw [List.append_nil] at hlead
      refine reads_point htake hdrop hlead ?_ ?_
      · intro h
        have := congrArg List.length h
        rw [List.length_drop, List.length_nil] at this
        omega
      · rw [spell_cut]
        exact Nat.le_trans (Nat.le_of_lt hlt) (by decide)
    · next hp =>
      have hfs : ∀ c ∈ zeros (-(scale + (digitChars n).length)).toNat ++ digitChars n, c.isDigit = true :=
        List.forall_mem_append.mpr ⟨fun _ => isDigit_zeros, fun _ => isDigit_digitChars⟩
      obtain ⟨d, ds, hds, -, hspell⟩ := digitsOf_digitChars n
      show Reads negative (['0'] ++ '.' :: (zeros _ ++ digitChars n))
      refine reads_point (List.all_eq_true.mp rfl) hfs ⟨by decide, fun _ => rfl⟩ ?_ ?_
      · exact List.append_ne_nil_of_right_ne_nil _ Nat.toDigits_ne_nil
      · rw [digitsOf_append_digits (fun _ => isDigit_zeros) (fun _ => isDigit_digitChars), hds, spell_append,
          spell_append, show spell 0 (digitsOf ['0']) = 0 from rfl, spell_zeros, hspell]
        exact Nat.le_trans (Nat.le_of_lt hlt) (by decide)

theorem reads_scientificChars {n : Nat} {scale : Int} (hlt : n < 0x16345785d8a0000)
    (hread : ∃ bits, float? negative n scale = some (.float bits)) :
    Reads negative (scientificChars (digitChars n) (scale + (digitChars n).length - 1)) := by
  obtain ⟨bits, hbits⟩ := hread
  have hmax : n ≤ maxSignificand := Nat.le_trans (Nat.le_of_lt hlt) (by decide)
  have hpos := length_digitChars_pos n
  have htake : ∀ c ∈ (digitChars n).take 1, c.isDigit = true := fun c h =>
    isDigit_digitChars (List.mem_of_mem_take h)
  have hdrop : ∀ c ∈ (digitChars n).drop 1, c.isDigit = true := fun c h =>
    isDigit_digitChars (List.mem_of_mem_drop h)
  have hone : (digitsOf ((digitChars n).take 1)).length = 1 := by
    rw [length_digitsOf htake, List.length_take]
    omega
  have hlead : Leading (digitsOf ((digitChars n).take 1)) :=
    ⟨fun h => absurd hone (by rw [h]; decide), fun _ => hone⟩
  have hspell := spell_cut n 1
  have hrest := length_digitsOf hdrop
  rw [List.length_drop] at hrest
  generalize he : scale + (digitChars n).length - 1 = e
  have hchars : scientificChars (digitChars n) e =
      (digitChars n).take 1 ++ ((if (digitChars n).length = 1 then [] else '.' :: (digitChars n).drop 1) ++
        exponentChars e) := by
    simp [scientificChars, exponentChars]
  refine ⟨bits, ?_⟩
  rw [hchars]
  split
  · next hlength =>
    have hnone : digitsOf ((digitChars n).drop 1) = [] := List.eq_nil_of_length_eq_zero (by omega)
    rw [hnone, List.append_nil] at hspell
    rw [List.nil_append, unsigned?_append htake (breaks_exponentChars e) hlead, afterWhole?_exponentChars,
      Option.bind_some, value?_of_exponent (by rw [hspell]; exact hmax), hspell, show e = scale by omega, hbits]
  · next hlength =>
    have hsome : digitsOf ((digitChars n).drop 1) ≠ [] := by
      intro h
      rw [h] at hrest
      simp only [List.length_nil] at hrest
      omega
    rw [List.cons_append, unsigned?_append htake (by rintro c ⟨⟩; decide) hlead,
      afterWhole?_point hdrop hsome (breaks_exponentChars e) (exponent?_exponentChars e), Option.bind_some,
      value?_of_fraction (by rw [hspell]; exact hmax), hspell, Option.getD_some, hrest,
      show e - ((digitChars n).length - 1 : Nat) = scale by omega, hbits]

/-- The written form of a floating-point number without its sign. -/
def magnitudeChars (b : Binary) : List Char :=
  if b.mantissa = 0 then ['0', '.', '0']
  else if isPlain (b.shortest.scale + (digitChars b.shortest.digits).length - 1) then
    plainChars (digitChars b.shortest.digits) b.shortest.scale
  else
    scientificChars (digitChars b.shortest.digits)
      (b.shortest.scale + (digitChars b.shortest.digits).length - 1)

theorem floatChars_eq (bits : UInt64) :
    floatChars bits = (if bits.toNat / signBit = 1 then ['-'] else []) ++ magnitudeChars (.ofBits bits) := by
  unfold floatChars magnitudeChars
  dsimp only
  split <;> rfl

theorem reads_magnitudeChars (negative : Bool) {b : Binary} (hf : b.Finite) : Reads negative (magnitudeChars b) := by
  unfold magnitudeChars
  split
  · show Reads negative (['0'] ++ '.' :: ['0'])
    exact reads_point (List.all_eq_true.mp rfl) (List.all_eq_true.mp rfl) ⟨by decide, fun _ => rfl⟩ (by decide) (by decide)
  · next hm =>
    have hpos : 0 < b.mantissa := Nat.pos_of_ne_zero hm
    have hread := float?_shortest negative hf hpos
    rcases hf.shortest_cases hpos with hzero | ⟨-, hdigits, hlt⟩
    · rw [hzero] at hread ⊢
      exact reads_scientificChars (n := 0) (by decide) hread
    · split
      · next he => exact reads_plainChars hdigits hlt he
      · exact reads_scientificChars hlt hread

theorem Reads.eq_cons (h : Reads negative cs) : ∃ c rest, cs = c :: rest ∧ c.isDigit = true := by
  obtain ⟨bits, hbits⟩ := h
  cases cs with
  | nil => cases hbits
  | cons c rest =>
    refine ⟨c, rest, rfl, ?_⟩
    by_contra hc
    have hnone : digitsOf (c :: rest) = [] := by rw [digitsOf, List.takeWhile_cons_of_neg hc]; rfl
    rw [unsigned?, hnone] at hbits
    cases hbits

/-- A floating-point number that is not infinite is read back as a floating-point number. -/
theorem ofChars?_floatChars {bits : UInt64} (h : (float bits).fits = true) :
    ∃ bits', ofChars? (floatChars bits) = some (float bits') := by
  have hf := Binary.finite_ofBits (of_decide_eq_true h)
  rw [floatChars_eq]
  split
  · exact reads_magnitudeChars true hf
  · obtain ⟨bits', hbits⟩ := reads_magnitudeChars false hf
    obtain ⟨c, rest, hcs, hc⟩ := Reads.eq_cons ⟨bits', hbits⟩
    refine ⟨bits', ?_⟩
    rw [hcs] at hbits
    rw [List.nil_append, hcs]
    unfold ofChars?
    dsimp only
    split
    · next hminus =>
      obtain ⟨rfl, -⟩ := List.cons.inj hminus
      exact absurd hc (by decide)
    · exact hbits

theorem isNumberChar_of_isDigit {c : Char} (h : c.isDigit = true) : isNumberChar c = true := by
  simp [isNumberChar, h]

theorem isNumberChar_plainChars (n : Nat) (scale : Int) : ∀ c ∈ plainChars (digitChars n) scale, isNumberChar c = true := by
  have hdigits (c : Char) (h : c ∈ digitChars n) : isNumberChar c = true :=
    isNumberChar_of_isDigit (isDigit_digitChars h)
  have hzeros (k : Nat) (c : Char) (h : c ∈ zeros k) : isNumberChar c = true := isNumberChar_of_isDigit (isDigit_zeros h)
  rw [plainChars]
  split
  · exact List.forall_mem_append.mpr ⟨List.forall_mem_append.mpr ⟨hdigits, hzeros _⟩, List.all_eq_true.mp rfl⟩
  · split
    · refine List.forall_mem_append.mpr ⟨List.forall_mem_append.mpr ⟨?_, List.all_eq_true.mp rfl⟩, ?_⟩
      · exact fun c h => hdigits c (List.mem_of_mem_take h)
      · exact fun c h => hdigits c (List.mem_of_mem_drop h)
    · exact List.forall_mem_append.mpr ⟨List.forall_mem_append.mpr ⟨List.all_eq_true.mp rfl, hzeros _⟩, hdigits⟩

theorem isNumberChar_scientificChars (n : Nat) (e : Int) :
    ∀ c ∈ scientificChars (digitChars n) e, isNumberChar c = true := by
  have hdigits (n : Nat) (c : Char) (h : c ∈ digitChars n) : isNumberChar c = true :=
    isNumberChar_of_isDigit (isDigit_digitChars h)
  rw [scientificChars]
  refine List.forall_mem_append.mpr ⟨List.forall_mem_append.mpr ⟨List.forall_mem_append.mpr ⟨?_, ?_⟩, ?_⟩, hdigits _⟩
  · exact fun c h => hdigits n c (List.mem_of_mem_take h)
  · split
    · exact fun c h => absurd h List.not_mem_nil
    · refine List.forall_mem_cons.mpr ⟨by decide, fun c h => hdigits n c (List.mem_of_mem_drop h)⟩
  · split <;> exact List.all_eq_true.mp rfl

/-- A floating-point number is written in digits, signs, points and an exponent, and begins with
a digit or a minus. -/
theorem floatChars_eq_cons {bits : UInt64} (h : (float bits).fits = true) :
    ∃ c cs, floatChars bits = c :: cs ∧ (c = '-' ∨ c.isDigit = true) ∧ ∀ a ∈ cs, isNumberChar a = true := by
  have hf := Binary.finite_ofBits (of_decide_eq_true h)
  obtain ⟨c, cs, hcs, hc⟩ := Reads.eq_cons (reads_magnitudeChars false hf)
  have hall : ∀ a ∈ magnitudeChars (.ofBits bits), isNumberChar a = true := by
    unfold magnitudeChars
    split
    · exact List.all_eq_true.mp rfl
    · split
      · exact isNumberChar_plainChars _ _
      · exact isNumberChar_scientificChars _ _
  rw [hcs] at hall
  rw [floatChars_eq, hcs]
  split
  · exact ⟨'-', c :: cs, rfl, Or.inl rfl, hall⟩
  · exact ⟨c, cs, rfl, Or.inr hc, fun a ha => hall a (List.mem_cons_of_mem _ ha)⟩

/-- A number as it is read back. -/
def echo (n : Number) : Number := (ofChars? n.chars).getD n

theorem echo_int {i : Int} (h : (int i).fits = true) : (int i).echo = int i := by
  rw [echo, chars, ofChars?_intChars h, Option.getD_some]

/-- Any number that fits is read back. -/
theorem ofChars?_chars {n : Number} (h : n.fits = true) : ofChars? n.chars = some n.echo := by
  cases n with
  | int i => rw [echo_int h, chars, ofChars?_intChars h]
  | float bits =>
    obtain ⟨bits', hbits⟩ := ofChars?_floatChars h
    rw [echo, chars, hbits, Option.getD_some]

theorem fits_echo {n : Number} (h : n.fits = true) : n.echo.fits = true := fits_of_ofChars? (ofChars?_chars h)

theorem chars_eq_cons {n : Number} (h : n.fits = true) : ∃ c cs, n.chars = c :: cs ∧
    (c = '-' ∨ c.isDigit = true) ∧ ∀ a ∈ cs, isNumberChar a = true := by
  cases n with
  | int i =>
    obtain ⟨c, cs, hcs, hc, hdigits⟩ := intChars_eq_cons i
    exact ⟨c, cs, hcs, hc, fun a ha => isNumberChar_of_isDigit (hdigits a ha)⟩
  | float bits => exact floatChars_eq_cons h

end Outfitter.Json.Number
