/-! # Nearest binary numbers

Magnitudes of 64-bit floating-point numbers, given by their bits without the sign. A result
that is no magnitude is rounded to the nearest one, and on a tie to the even one. Values are
counted in units of the smallest positive magnitude.
-/

namespace Outfitter.Decimal

/-- How many units make one. -/
def unitsPerOne : Nat := Nat.pow 2 1074

/-- The value of a magnitude, in units. -/
def unitsIn (bits : Nat) : Nat :=
  let fraction := bits % 0x10000000000000
  let power := bits / 0x10000000000000
  if power = 0 then fraction else (0x10000000000000 + fraction) * Nat.pow 2 (power - 1)

/-- The integer nearest to a quotient, and on a tie the even one. -/
def roundDiv (n m : Nat) : Nat :=
  let q := n / m
  let rest := 2 * (n % m)
  if rest < m || rest = m && q % 2 = 0 then q else q + 1

/-- The magnitude nearest to a quotient of units. Its significand has 53 bits. -/
def nearest (n m : Nat) : Nat :=
  let shift := (n / m).log2 - 52
  shift * 0x10000000000000 + roundDiv n (m * Nat.pow 2 shift)

/-- The bits of a number that is too large for all others. -/
def infinity : Nat := 0x7ff0000000000000

def ofNat (n : Nat) : Nat := nearest (n * unitsPerOne) 1

def multiply (a b : Nat) : Nat := nearest (unitsIn a * unitsIn b) unitsPerOne

def divide (a b : Nat) : Nat := nearest (unitsIn a * unitsPerOne) (unitsIn b)

def powerOfTen (n : Nat) : Nat := ofNat (Nat.pow 10 n)

end Outfitter.Decimal
