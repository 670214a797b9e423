import Outfitter.Json.Number

/-! # Tokens of JSON

A text is cut into tokens character by character: each character moves a small machine
that holds the tokens so far and the token that is being read.
-/

namespace Outfitter.Json

inductive Token where
  | openBrace
  | closeBrace
  | openBracket
  | closeBracket
  | colon
  | comma
  | null
  | bool (b : Bool)
  | num (n : Number)
  | str (s : String)
  deriving DecidableEq, Repr

namespace Token

/-- The token that is being read; characters are held last first. -/
inductive Partial where
  | blank
  | word (cs : List Char)
  | number (cs : List Char)
  | string (cs : List Char)
  | escape (cs : List Char)
  /-- Hexadecimal digits of an escaped unit: how many are missing, and their value. -/
  | unit (cs : List Char) (high : Option Nat) (missing value : Nat)
  /-- The second half of a pair of units must follow. -/
  | pair (cs : List Char) (high : Nat)
  | pairEscape (cs : List Char) (high : Nat)

structure State where
  tokens : List Token
  current : Partial

def start : State := ⟨[], .blank⟩

def isBlank (c : Char) : Bool := c == ' ' || c == '\n' || c == '\t' || c == '\r'

def isNumberChar (c : Char) : Bool :=
  c.isDigit || c == '-' || c == '+' || c == '.' || c == 'e' || c == 'E'

def word? : List Char → Option Token
  | ['t', 'r', 'u', 'e'] => some (.bool true)
  | ['f', 'a', 'l', 's', 'e'] => some (.bool false)
  | ['n', 'u', 'l', 'l'] => some .null
  | _ => none

def mark? : Char → Option Token
  | '\x7b' => some .openBrace
  | '\x7d' => some .closeBrace
  | '[' => some .openBracket
  | ']' => some .closeBracket
  | ':' => some .colon
  | ',' => some .comma
  | _ => none

/-- A character between tokens. -/
def begin? (tokens : List Token) (c : Char) : Option State :=
  if isBlank c then some ⟨tokens, .blank⟩
  else if c == '"' then some ⟨tokens, .string []⟩
  else if c == '-' || c.isDigit then some ⟨tokens, .number [c]⟩
  else if c.isLower then some ⟨tokens, .word [c]⟩
  else (mark? c).map fun t => ⟨t :: tokens, .blank⟩

def hexValue? (c : Char) : Option Nat :=
  if c.isDigit then some (c.toNat - 48)
  else if 'a' ≤ c && c ≤ 'f' then some (c.toNat - 87)
  else if 'A' ≤ c && c ≤ 'F' then some (c.toNat - 55)
  else none

def simpleEscape? : Char → Option Char
  | '"' => some '"'
  | '\\' => some '\\'
  | '/' => some '/'
  | 'b' => some '\x08'
  | 'f' => some '\x0c'
  | 'n' => some '\n'
  | 'r' => some '\r'
  | 't' => some '\t'
  | _ => none

/-- A finished unit: a character, or the first half of a pair; a half alone is refused. -/
def unit? (cs : List Char) (high : Option Nat) (value : Nat) : Option Partial :=
  let isHigh := 0xD800 ≤ value && value ≤ 0xDBFF
  let isLow := 0xDC00 ≤ value && value ≤ 0xDFFF
  match high with
  | none =>
    if isHigh then some (.pair cs value)
    else if isLow then none
    else some (.string (Char.ofNat value :: cs))
  | some h =>
    if isLow then some (.string (Char.ofNat (0x10000 + (h - 0xD800) * 0x400 + (value - 0xDC00)) :: cs))
    else none

def feed? (s : State) (c : Char) : Option State :=
  match s.current with
  | .blank => begin? s.tokens c
  | .word cs =>
    if c.isLower then some ⟨s.tokens, .word (c :: cs)⟩
    else (word? cs.reverse).bind fun t => begin? (t :: s.tokens) c
  | .number cs =>
    if isNumberChar c then some ⟨s.tokens, .number (c :: cs)⟩
    else (Number.ofChars? cs.reverse).bind fun n => begin? (.num n :: s.tokens) c
  | .string cs =>
    if c == '"' then some ⟨.str (String.ofList cs.reverse) :: s.tokens, .blank⟩
    else if c == '\\' then some ⟨s.tokens, .escape cs⟩
    else if c.toNat < 32 then none
    else some ⟨s.tokens, .string (c :: cs)⟩
  | .escape cs =>
    if c == 'u' then some ⟨s.tokens, .unit cs none 4 0⟩
    else (simpleEscape? c).map fun e => ⟨s.tokens, .string (e :: cs)⟩
  | .unit cs high missing value =>
    (hexValue? c).bind fun d =>
      let value := value * 16 + d
      if missing ≤ 1 then (unit? cs high value).map fun p => ⟨s.tokens, p⟩
      else some ⟨s.tokens, .unit cs high (missing - 1) value⟩
  | .pair cs high => if c == '\\' then some ⟨s.tokens, .pairEscape cs high⟩ else none
  | .pairEscape cs high => if c == 'u' then some ⟨s.tokens, .unit cs (some high) 4 0⟩ else none

/-- The tokens read, if none is left open. -/
def finish? (s : State) : Option (List Token) :=
  match s.current with
  | .blank => some s.tokens.reverse
  | .word cs => (word? cs.reverse).map fun t => (t :: s.tokens).reverse
  | .number cs => (Number.ofChars? cs.reverse).map fun n => (.num n :: s.tokens).reverse
  | _ => none

def feedAll? : State → List Char → Option State
  | s, [] => some s
  | s, c :: cs => (feed? s c).bind fun s => feedAll? s cs

def scan? (cs : List Char) : Option (List Token) := (feedAll? start cs).bind finish?

end Token

end Outfitter.Json
