/-! # Shortest decimals

The decimal with the fewest digits among those that lie closer to a binary floating-point
number than to its neighbours. The coarsest power of ten is taken on whose grid such a
decimal stands; of two on that grid the nearer one, and on a tie the even one.
-/

namespace Outfitter.Decimal

/-- A positive number `mantissa * 2 ^ exponent` among the 64-bit floating-point numbers. -/
structure Binary where
  mantissa : Nat
  exponent : Int
  /-- The neighbour below lies at half the distance of the one above. -/
  closeBelow : Bool
  deriving DecidableEq, Repr

def Binary.ofBits (bits : UInt64) : Binary :=
  let fraction : Nat := bits.toNat % 0x10000000000000
  let power : Nat := bits.toNat / 0x10000000000000 % 0x800
  if power = 0 then ⟨fraction, -1074, false⟩
  else ⟨0x10000000000000 + fraction, (power : Int) - 1075, fraction = 0 && power ≠ 1⟩

/-- Digits `digits * 10 ^ scale`. -/
structure Digits where
  digits : Nat
  scale : Int
  deriving DecidableEq, Repr

namespace Binary

/-- A quarter of the last binary place, over the power of ten of a grid: the first number
counts quarters, the second counts points of the grid, in a common unit. -/
def units (b : Binary) (scale : Int) : Nat × Nat :=
  (Nat.pow 2 (b.exponent - 2).toNat * Nat.pow 10 (-scale).toNat,
    Nat.pow 10 scale.toNat * Nat.pow 2 (2 - b.exponent).toNat)

/-- The decimal on the grid `10 ^ scale` that reads back as `b`, if there is one. -/
def onGrid? (b : Binary) (scale : Int) : Option Digits :=
  let (quarter, point) := b.units scale
  let value := 4 * b.mantissa * quarter
  let low := (4 * b.mantissa - if b.closeBelow then 1 else 2) * quarter
  let high := (4 * b.mantissa + 2) * quarter
  let readsBack (d : Nat) : Bool :=
    let x := d * point
    if b.mantissa % 2 = 0 then low ≤ x && x ≤ high else low < x && x < high
  let d := value / point
  let below := readsBack d
  let above := readsBack (d + 1)
  if below && above then
    let toBelow := value - d * point
    let toAbove := (d + 1) * point - value
    let even := if d % 2 = 0 then d else d + 1
    some ⟨if toBelow < toAbove then d else if toAbove < toBelow then d + 1 else even, scale⟩
  else if below then some ⟨d, scale⟩
  else if above then some ⟨d + 1, scale⟩
  else none

/-- Tries the grids from `10 ^ scale` downwards. -/
def shortestFrom (b : Binary) : Nat → Int → Digits
  | 0, scale => ⟨0, scale⟩
  | fuel + 1, scale =>
    match b.onGrid? scale with
    | some d => d
    | none => b.shortestFrom fuel (scale - 1)

/-- Grids from `10 ^ 309` to `10 ^ (-325)` hold a decimal for every number. -/
def shortest (b : Binary) : Digits := b.shortestFrom 635 309

end Binary

end Outfitter.Decimal
