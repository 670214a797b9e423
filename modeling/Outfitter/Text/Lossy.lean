/-! # Lossy UTF-8

Bytes are read as UTF-8 text. Where they are not, the longest beginning of a character, or
one byte if there is none, becomes one replacement character.
-/

namespace Outfitter.Text

def replacement : Char := '�'

/-- What a lead byte asks for: how many bytes follow, the bounds of the first of them, and
the bits that the lead gives. -/
def lead? (b : Nat) : Option (Nat × Nat × Nat × Nat) :=
  if b < 0x80 then some (0, 0, 0, b)
  else if 0xC2 ≤ b && b ≤ 0xDF then some (1, 0x80, 0xBF, b - 0xC0)
  else if b = 0xE0 then some (2, 0xA0, 0xBF, 0)
  else if b = 0xED then some (2, 0x80, 0x9F, 0xD)
  else if 0xE1 ≤ b && b ≤ 0xEF then some (2, 0x80, 0xBF, b - 0xE0)
  else if b = 0xF0 then some (3, 0x90, 0xBF, 0)
  else if 0xF1 ≤ b && b ≤ 0xF3 then some (3, 0x80, 0xBF, b - 0xF0)
  else if b = 0xF4 then some (3, 0x80, 0x8F, 4)
  else none

/-- Reads on. `missing` bytes of a character are still to come, the first of them between
`lo` and `hi`; `bits` are those read. -/
def lossyFrom (missing lo hi bits : Nat) : List UInt8 → List Char
  | [] => if missing = 0 then [] else [replacement]
  | b :: rest =>
    let n := b.toNat
    if 0 < missing && lo ≤ n && n ≤ hi then
      let bits := bits * 64 + (n - 0x80)
      if missing = 1 then Char.ofNat bits :: lossyFrom 0 0 0 0 rest
      else lossyFrom (missing - 1) 0x80 0xBF bits rest
    else
      let cut := if missing = 0 then [] else [replacement]
      match lead? n with
      | some (0, _, _, c) => cut ++ Char.ofNat c :: lossyFrom 0 0 0 0 rest
      | some (k, lo, hi, c) => cut ++ lossyFrom k lo hi c rest
      | none => cut ++ replacement :: lossyFrom 0 0 0 0 rest

def lossy (bytes : ByteArray) : String := String.ofList (lossyFrom 0 0 0 0 bytes.toList)

end Outfitter.Text
