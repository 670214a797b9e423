import Outfitter.Json.Basic

/-! # Writing JSON

Two forms: compact, and pretty with two blanks per level. In both an empty container has
nothing between its brackets.
-/

namespace Outfitter.Json

def hexChar (n : Nat) : Char := if n < 10 then Char.ofNat (48 + n) else Char.ofNat (87 + n)

/-- Quotes, backslashes and control characters are escaped; all else is written as it is. -/
def escaped (c : Char) : List Char :=
  if c = '"' then ['\\', '"']
  else if c = '\\' then ['\\', '\\']
  else if c = '\n' then ['\\', 'n']
  else if c = '\r' then ['\\', 'r']
  else if c = '\t' then ['\\', 't']
  else if c = '\x08' then ['\\', 'b']
  else if c = '\x0c' then ['\\', 'f']
  else if c.toNat < 32 then ['\\', 'u', '0', '0', hexChar (c.toNat / 16), hexChar (c.toNat % 16)]
  else [c]

def quoted (s : String) : List Char := '"' :: s.toList.flatMap escaped ++ ['"']

def boolChars (b : Bool) : List Char :=
  if b then ['t', 'r', 'u', 'e'] else ['f', 'a', 'l', 's', 'e']

def nullChars : List Char := ['n', 'u', 'l', 'l']

mutual

/-- A value in compact form, before what follows it. -/
def compactOnto : Json → List Char → List Char
  | null, after => nullChars ++ after
  | bool b, after => boolChars b ++ after
  | num n, after => n.chars ++ after
  | str s, after => quoted s ++ after
  | arr [], after => '[' :: ']' :: after
  | arr (v :: rest), after => '[' :: v.compactOnto (compactItemsOnto rest (']' :: after))
  | obj [], after => '\x7b' :: '\x7d' :: after
  | obj ((k, v) :: rest), after =>
    '\x7b' :: quoted k ++ ':' :: v.compactOnto (compactMembersOnto rest ('\x7d' :: after))

def compactItemsOnto : List Json → List Char → List Char
  | [], after => after
  | v :: rest, after => ',' :: v.compactOnto (compactItemsOnto rest after)

def compactMembersOnto : List (String × Json) → List Char → List Char
  | [], after => after
  | (k, v) :: rest, after =>
    ',' :: quoted k ++ ':' :: v.compactOnto (compactMembersOnto rest after)

end

def compact (v : Json) : String := String.ofList (v.compactOnto [])

/-- A new line at a level. -/
def newline (level : Nat) : List Char := '\n' :: List.replicate (2 * level) ' '

mutual

/-- A value in pretty form at a level, before what follows it. -/
def prettyOnto (level : Nat) : Json → List Char → List Char
  | null, after => nullChars ++ after
  | bool b, after => boolChars b ++ after
  | num n, after => n.chars ++ after
  | str s, after => quoted s ++ after
  | arr [], after => '[' :: ']' :: after
  | arr (v :: rest), after =>
    '[' :: newline (level + 1) ++ v.prettyOnto (level + 1)
      (prettyItemsOnto (level + 1) rest (newline level ++ ']' :: after))
  | obj [], after => '\x7b' :: '\x7d' :: after
  | obj ((k, v) :: rest), after =>
    '\x7b' :: newline (level + 1) ++ quoted k ++ ':' :: ' ' :: v.prettyOnto (level + 1)
      (prettyMembersOnto (level + 1) rest (newline level ++ '\x7d' :: after))

def prettyItemsOnto (level : Nat) : List Json → List Char → List Char
  | [], after => after
  | v :: rest, after =>
    ',' :: newline level ++ v.prettyOnto level (prettyItemsOnto level rest after)

def prettyMembersOnto (level : Nat) : List (String × Json) → List Char → List Char
  | [], after => after
  | (k, v) :: rest, after =>
    ',' :: newline level ++ quoted k ++ ':' :: ' ' ::
      v.prettyOnto level (prettyMembersOnto level rest after)

end

def pretty (v : Json) : String := String.ofList (v.prettyOnto 0 [])

end Outfitter.Json
