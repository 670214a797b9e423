/-! # Blank characters, trimming and lines

Blank means the Unicode property White_Space. Lines end at a line feed, which may
follow a carriage return.
-/

namespace Outfitter.Text

def isBlank (c : Char) : Bool :=
  let n := c.toNat
  (9 ≤ n && n ≤ 13) || n == 32 || n == 0x85 || n == 0xA0 || n == 0x1680 ||
    (0x2000 ≤ n && n ≤ 0x200A) || n == 0x2028 || n == 0x2029 || n == 0x202F ||
    n == 0x205F || n == 0x3000

def dropBlankEnd (cs : List Char) : List Char :=
  (cs.reverse.dropWhile isBlank).reverse

def trimEnd (s : String) : String :=
  String.ofList (dropBlankEnd s.toList)

def trim (s : String) : String :=
  String.ofList (dropBlankEnd (s.toList.dropWhile isBlank))

/-- The line before a line feed, without the carriage return that may end it. -/
def dropReturn (line : List Char) : List Char :=
  if line.getLast? = some '\r' then line.dropLast else line

/-- Turns pieces between line feeds into lines: nothing follows the last line feed. -/
def closeLines : List (List Char) → List (List Char)
  | [] => []
  | [last] => if last.isEmpty then [] else [last]
  | line :: rest => dropReturn line :: closeLines rest

def lines (s : String) : List String :=
  (closeLines (s.toList.splitOn '\n')).map String.ofList

end Outfitter.Text
