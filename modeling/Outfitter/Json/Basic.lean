import Outfitter.Json.Number

/-! # JSON documents

Objects keep their members in the order in which their keys first appeared.
-/

namespace Outfitter

inductive Json where
  | null
  | bool (b : Bool)
  | num (n : Json.Number)
  | str (s : String)
  | arr (items : List Json)
  | obj (members : List (String × Json))
  deriving Repr, Inhabited

namespace Json

abbrev Members := List (String × Json)

namespace Members

def get? (ms : Members) (key : String) : Option Json := ms.lookup key

def contains (ms : Members) (key : String) : Bool := (ms.get? key).isSome

/-- Gives `key` a value: in its old place, or at the end. -/
def set : Members → String → Json → Members
  | [], key, v => [(key, v)]
  | (k, w) :: rest, key, v => if k = key then (k, v) :: rest else (k, w) :: set rest key v

end Members

def get? : Json → String → Option Json
  | obj ms, key => Members.get? ms key
  | _, _ => none

def str? : Json → Option String
  | str s => some s
  | _ => none

mutual

/-- The number of containers around the innermost value, the outermost one included. -/
def depth : Json → Nat
  | arr items => depthList items + 1
  | obj members => depthMembers members + 1
  | _ => 0

def depthList : List Json → Nat
  | [] => 0
  | v :: rest => max v.depth (depthList rest)

def depthMembers : List (String × Json) → Nat
  | [] => 0
  | (_, v) :: rest => max v.depth (depthMembers rest)

end

end Json

end Outfitter
