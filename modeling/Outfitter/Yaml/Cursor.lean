/-! # Reading positions in YAML

A cursor stands before the rest of a text and knows its line and column. Line breaks are
carriage returns, line feeds, both together, and three characters of Unicode.
-/

namespace Outfitter.Yaml

/-- Characters that a text may hold. -/
def isAllowed (c : Char) : Bool :=
  let n := c.toNat
  n == 0x09 || n == 0x0A || n == 0x0D || (0x20 ≤ n && n ≤ 0x7E) || n == 0x85 ||
    (0xA0 ≤ n && n ≤ 0xD7FF) || (0xE000 ≤ n && n ≤ 0xFFFD) || 0x10000 ≤ n

def isSpace (c : Char) : Bool := c == ' ' || c == '\t'

def isBreak (c : Char) : Bool :=
  c == '\r' || c == '\n' || c == '\u0085' || c == '\u2028' || c == '\u2029'

def isGap (c : Char) : Bool := isSpace c || isBreak c

/-- Characters of names of anchors, tag handles and directives. -/
def isWord (c : Char) : Bool := c.isAlphanum || c == '_' || c == '-'

/-- The rest of a text is empty or begins with a gap. -/
def endsWord : List Char → Bool
  | [] => true
  | c :: _ => isGap c

structure Cursor where
  rest : List Char
  index : Nat
  line : Nat
  column : Nat

namespace Cursor

def start (text : List Char) : Cursor := ⟨text, 0, 0, 0⟩

/-- Goes past `n` characters of the current line. -/
def skip (c : Cursor) (n : Nat) : Cursor := ⟨c.rest.drop n, c.index + n, c.line, c.column + n⟩

/-- Goes past the characters of `p`, none of which is a line break. -/
def skipWhile (c : Cursor) (p : Char → Bool) : Cursor := c.skip (c.rest.takeWhile p).length

/-- Goes past a line break, if there is one, and gives the text it counts as. -/
def breakLine (c : Cursor) : List Char × Cursor :=
  match c.rest with
  | '\r' :: '\n' :: rest => (['\n'], ⟨rest, c.index + 2, c.line + 1, 0⟩)
  | ch :: rest =>
    if ch == '\u2028' || ch == '\u2029' then ([ch], ⟨rest, c.index + 1, c.line + 1, 0⟩)
    else if isBreak ch then (['\n'], ⟨rest, c.index + 1, c.line + 1, 0⟩)
    else ([], c)
  | [] => ([], c)

def atBreak (c : Cursor) : Bool :=
  match c.rest with
  | ch :: _ => isBreak ch
  | [] => false

def atEnd (c : Cursor) : Bool := c.rest.isEmpty

/-- Goes past a comment, up to the end of its line. -/
def skipComment (c : Cursor) : Cursor :=
  match c.rest with
  | '#' :: _ => c.skipWhile (fun ch => !isBreak ch)
  | _ => c

/-- A line that begins a document or ends one. -/
def atMarker (c : Cursor) : Bool :=
  c.column == 0 &&
    match c.rest with
    | '-' :: '-' :: '-' :: rest | '.' :: '.' :: '.' :: rest => endsWord rest
    | _ => false

end Cursor

end Outfitter.Yaml
