import Outfitter.Json.Basic

/-! # JSON pointers

A pointer is empty or a sequence of tokens, each after a slash; `~1` stands for a slash in a
token and `~0` for a tilde.
-/

namespace Outfitter.Json

def unescapeToken : List Char → List Char
  | '~' :: '1' :: rest => '/' :: unescapeToken rest
  | '~' :: '0' :: rest => '~' :: unescapeToken rest
  | c :: rest => c :: unescapeToken rest
  | [] => []

/-- An index into an array: digits without a leading zero. -/
def index? (cs : List Char) : Option Nat :=
  if cs.isEmpty || !cs.all Char.isDigit || (cs.head? = some '0' && 1 < cs.length) then none
  else some (Number.ofDigits (Number.digitsOf cs))

def child? (v : Json) (token : List Char) : Option Json :=
  match v with
  | obj ms => Members.get? ms (String.ofList token)
  | arr items => (index? token).bind fun i => items[i]?
  | _ => none

def descend? : Json → List (List Char) → Option Json
  | v, [] => some v
  | v, token :: rest => (v.child? (unescapeToken token)).bind (descend? · rest)

/-- The value that a pointer leads to. -/
def pointer? (v : Json) (pointer : String) : Option Json :=
  match pointer.toList with
  | [] => some v
  | '/' :: cs => v.descend? (cs.splitOn '/')
  | _ => none

end Outfitter.Json
