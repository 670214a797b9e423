import Outfitter.Json.Basic
import Outfitter.Json.Token

/-! # Reading JSON

Tokens move a machine with a stack of the containers that are open. At most `limit`
containers may be open at once.
-/

namespace Outfitter.Json

/-- An open container: the items or members that are complete, items last first. -/
inductive Frame where
  | arr (items : List Json)
  | obj (members : Members) (key : String)

/-- What may come next. -/
inductive Expect where
  /-- A value. -/
  | value (stack : List Frame)
  /-- The first item of an array, or its end. -/
  | item (stack : List Frame)
  /-- A key; the end of the object only if it is empty. -/
  | key (members : Members) (empty : Bool) (stack : List Frame)
  | colon (members : Members) (key : String) (stack : List Frame)
  /-- A comma or the end of the innermost container, after a value. -/
  | next (v : Json) (stack : List Frame)

namespace Reader

/-- A token that begins a value. -/
def beginValue? (limit : Nat) (stack : List Frame) : Token → Option Expect
  | .null => some (.next .null stack)
  | .bool b => some (.next (.bool b) stack)
  | .num n => some (.next (.num n) stack)
  | .str s => some (.next (.str s) stack)
  | .openBracket => if stack.length < limit then some (.item stack) else none
  | .openBrace => if stack.length < limit then some (.key [] true stack) else none
  | _ => none

def feed? (limit : Nat) : Expect → Token → Option Expect
  | .value stack, t => beginValue? limit stack t
  | .item stack, .closeBracket => some (.next (.arr []) stack)
  | .item stack, t => beginValue? limit (.arr [] :: stack) t
  | .key ms _ stack, .str k => some (.colon ms k stack)
  | .key ms true stack, .closeBrace => some (.next (.obj ms) stack)
  | .key .., _ => none
  | .colon ms k stack, .colon => some (.value (.obj ms k :: stack))
  | .colon .., _ => none
  | .next v (.arr items :: stack), .comma => some (.value (.arr (v :: items) :: stack))
  | .next v (.arr items :: stack), .closeBracket => some (.next (.arr (v :: items).reverse) stack)
  | .next v (.obj ms k :: stack), .comma => some (.key (ms.set k v) false stack)
  | .next v (.obj ms k :: stack), .closeBrace => some (.next (.obj (ms.set k v)) stack)
  | .next .., _ => none

def feedAll? (limit : Nat) : Expect → List Token → Option Expect
  | e, [] => some e
  | e, t :: ts => (feed? limit e t).bind fun e => feedAll? limit e ts

def finish? : Expect → Option Json
  | .next v [] => some v
  | _ => none

end Reader

/-- The value that tokens stand for, with at most `limit` containers around any part. -/
def ofTokens? (limit : Nat) (ts : List Token) : Option Json :=
  (Reader.feedAll? limit (.value []) ts).bind Reader.finish?

/-- The deepest nesting that documents may have. -/
def maxDepth : Nat := 127

def readWithin? (limit : Nat) (text : String) : Option Json :=
  (Token.scan? text.toList).bind (ofTokens? limit)

def read? (text : String) : Option Json := readWithin? maxDepth text

end Outfitter.Json
