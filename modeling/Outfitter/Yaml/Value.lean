import Outfitter.Yaml.Node

/-! # Values in YAML

Scalars are read as truth values, numbers or texts, and mappings as records with named
fields. A place where nothing is written is an empty mapping or an empty sequence.
-/

namespace Outfitter.Yaml

/-! ## Values -/

def Node.bool? : Node → Option Bool
  | .scalar style tag text =>
    if style = .plain || (style = .literal && tag = some "tag:yaml.org,2002:bool") then
      if ["true", "True", "TRUE"].contains text then some true
      else if ["false", "False", "FALSE"].contains text then some false
      else none
    else none
  | _ => none

/-- A digit of a base up to 16. -/
def digit? (base : Nat) (c : Char) : Option Nat := (hexDigit? c).filter (· < base)

/-- A number that fits in 64 bits. -/
def digits? (base : Nat) (cs : List Char) : Option Nat :=
  if cs.isEmpty then none
  else (cs.foldlM (fun n c => (digit? base c).map (n * base + ·)) 0).filter (· < 0x10000000000000000)

/-- An integer: decimal without leading zeros, or with a base; a plus may stand before it. -/
def natOfText? (text : String) : Option Nat :=
  let cs := text.toList
  let cs := if cs.head? = some '+' then cs.tail else cs
  match cs with
  | '0' :: 'x' :: ds => digits? 16 ds
  | '0' :: 'o' :: ds => digits? 8 ds
  | '0' :: 'b' :: ds => digits? 2 ds
  | ['0'] => some 0
  | '0' :: _ => none
  | ds => digits? 10 ds

def Node.nat? : Node → Option Nat
  | .scalar style tag text =>
    if style = .plain || (style = .literal && tag = some "tag:yaml.org,2002:int") then
      natOfText? text
    else none
  | _ => none

def Node.string? : Node → Option String
  | .scalar _ _ text => some text
  | _ => none

/-- The pairs of a mapping, none where nothing is written. -/
def Node.pairs? : Node → Option (List (Node × Node))
  | .mapping ps => some ps
  | .scalar .plain _ "" => some []
  | _ => none

/-- The items of a sequence, none where nothing is written. -/
def Node.items? : Node → Option (List Node)
  | .sequence ns => some ns
  | .scalar .plain _ "" => some []
  | _ => none

def Document.strings? (d : Document) (n : Node) : Option (List String) :=
  n.items?.bind (·.mapM fun item => (d.resolve item).bind Node.string?)

/-! ## Fields -/

/-- How a field of a record is read from its node. -/
structure Slot (α : Type) where
  name : String
  set? : α → Node → Option α

/-- Reads the fields of a record from pairs. `seen` has the names of those read before. -/
def Document.record? {α : Type} (d : Document) (fields : List (Slot α)) :
    List String → α → List (Node × Node) → Option α
  | _, a, [] => some a
  | seen, a, (key, value) :: rest =>
    ((d.resolve key).bind Node.string?).bind fun name =>
      match fields.find? (·.name = name) with
      | none => d.record? fields seen a rest
      | some f =>
        if seen.contains name then none
        else
          ((d.resolve value).bind (f.set? a)).bind fun a =>
            d.record? fields (name :: seen) a rest

end Outfitter.Yaml
