import Outfitter.Decimal.Nearest
import Outfitter.Decimal.Shortest

/-! # Numbers of JSON

Integers that fit 64 bits, signed or unsigned, are kept as integers; all other numbers
are 64-bit floating-point numbers, given by their bits.
-/

namespace Outfitter.Json

inductive Number where
  | int (value : Int)
  | float (bits : UInt64)
  deriving DecidableEq, Repr, Inhabited

namespace Number

/-! ## Reading -/

/-- The largest significand that is kept; digits beyond it are dropped. -/
def maxSignificand : Nat := 0xffffffffffffffff

/-- Appends digits to a significand while it stays within bounds, and counts them. -/
def absorb : Nat → List Nat → Nat × Nat
  | s, [] => (s, 0)
  | s, d :: rest =>
    if s * 10 + d ≤ maxSignificand then
      let (t, n) := absorb (s * 10 + d) rest
      (t, n + 1)
    else (s, 0)

/-- Scales a magnitude by a power of ten, rounding once per operation. Nothing is returned for
a number that is too large. -/
def scale? : Nat → Nat → Int → Option Nat
  | 0, _, _ => some 0
  | fuel + 1, f, e =>
    if e.natAbs ≤ 308 then
      if 0 ≤ e then
        let g := Decimal.multiply f (Decimal.powerOfTen e.natAbs)
        if g < Decimal.infinity then some g else none
      else some (Decimal.divide f (Decimal.powerOfTen e.natAbs))
    else if f = 0 then some f
    else if 0 ≤ e then none
    else scale? fuel (Decimal.divide f (Decimal.powerOfTen 308)) (e + 308)

/-- The bit of the sign. -/
def signBit : Nat := 0x8000000000000000

def float? (negative : Bool) (significand : Nat) (exponent : Int) : Option Number :=
  (scale? 4 (Decimal.ofNat significand) exponent).map fun f =>
    .float (UInt64.ofNat (if negative then signBit + f else f))

/-- The written form of a number: digits before and after the point, and the exponent. -/
structure Written where
  negative : Bool
  whole : List Nat
  fraction : Option (List Nat)
  exponent : Option Int

def Written.value? (w : Written) : Option Number :=
  let (s, kept) := absorb 0 w.whole
  let dropped := w.whole.length - kept
  match w.fraction, w.exponent with
  | none, none =>
    if 0 < dropped then float? w.negative s dropped
    else if !w.negative then some (.int s)
    else if s = 0 || 0x8000000000000000 < s then float? true s 0
    else some (.int (-s))
  | fraction, exponent =>
    let (s, kept) := absorb s (fraction.getD [])
    float? w.negative s (dropped - kept + exponent.getD 0)

def digit? (c : Char) : Option Nat := if c.isDigit then some (c.toNat - 48) else none

def digitsOf (cs : List Char) : List Nat := (cs.takeWhile Char.isDigit).filterMap digit?

def ofDigits (ds : List Nat) : Nat := ds.foldl (fun n d => n * 10 + d) 0

/-- Digits up to the end of the text. -/
def exponentDigits? (cs : List Char) : Option Nat :=
  if cs ≠ [] && cs.all Char.isDigit then some (ofDigits (digitsOf cs)) else none

def exponent? : List Char → Option (Option Int)
  | [] => some none
  | 'e' :: '+' :: cs | 'E' :: '+' :: cs => (exponentDigits? cs).map fun n => some (n : Int)
  | 'e' :: '-' :: cs | 'E' :: '-' :: cs => (exponentDigits? cs).map fun n => some (-(n : Int))
  | 'e' :: cs | 'E' :: cs => (exponentDigits? cs).map fun n => some (n : Int)
  | _ => none

def afterWhole? (negative : Bool) (whole : List Nat) : List Char → Option Written
  | '.' :: cs =>
    let fraction := digitsOf cs
    if fraction.isEmpty then none
    else (exponent? (cs.dropWhile Char.isDigit)).map fun e => ⟨negative, whole, some fraction, e⟩
  | cs => (exponent? cs).map fun e => ⟨negative, whole, none, e⟩

def unsigned? (negative : Bool) (cs : List Char) : Option Written :=
  let whole := digitsOf cs
  if whole.isEmpty || (whole.head? = some 0 && 1 < whole.length) then none
  else afterWhole? negative whole (cs.dropWhile Char.isDigit)

def ofChars? (cs : List Char) : Option Number :=
  let written :=
    match cs with
    | '-' :: rest => unsigned? true rest
    | _ => unsigned? false cs
  written.bind Written.value?

/-! ## Writing -/

/-- Decimal exponents that are written without an exponent. -/
def isPlain (e : Int) : Bool := -5 ≤ e && e ≤ 15

def digitChars (n : Nat) : List Char := Nat.toDigits 10 n

def zeros (n : Nat) : List Char := List.replicate n '0'

def plainChars (ds : List Char) (scale : Int) : List Char :=
  let point := scale + ds.length
  if 0 ≤ scale then ds ++ zeros scale.toNat ++ ['.', '0']
  else if 0 < point then ds.take point.toNat ++ ['.'] ++ ds.drop point.toNat
  else ['0', '.'] ++ zeros (-point).toNat ++ ds

def scientificChars (ds : List Char) (e : Int) : List Char :=
  let head := ds.take 1 ++ (if ds.length = 1 then [] else '.' :: ds.drop 1)
  head ++ ['e', if e < 0 then '-' else '+'] ++ digitChars e.natAbs

def floatChars (bits : UInt64) : List Char :=
  let sign := if bits.toNat / signBit = 1 then ['-'] else []
  let b := Decimal.Binary.ofBits bits
  if b.mantissa = 0 then sign ++ ['0', '.', '0']
  else
    let d := b.shortest
    let ds := digitChars d.digits
    let e := d.scale + ds.length - 1
    sign ++ if isPlain e then plainChars ds d.scale else scientificChars ds e

def intChars : Int → List Char
  | .ofNat n => digitChars n
  | .negSucc n => '-' :: digitChars (n + 1)

def chars : Number → List Char
  | int i => intChars i
  | float bits => floatChars bits

end Number

end Outfitter.Json
