import Outfitter.Yaml.Token

/-! # Nodes of YAML

The tokens of a text make up one document: a tree of scalars, sequences and mappings in
which an alias stands for the node whose anchor it names.
-/

namespace Outfitter.Yaml

inductive Node where
  | scalar (style : Style) (tag : Option String) (text : String)
  | sequence (items : List Node)
  | mapping (pairs : List (Node × Node))
  | alias (number : Nat)
  deriving Repr

/-- The node of a place where nothing is written. -/
def Node.nothing (tag : Option String) : Node := .scalar .plain tag ""

/-- A document has a top node and the nodes of its anchors by number, the last one first. -/
structure Document where
  top : Node
  anchored : List (Nat × Node)
  deriving Repr

/-- A node that is no alias: an alias is followed once. -/
def Document.resolve (d : Document) : Node → Option Node
  | .alias n => d.anchored.lookup n
  | node => some node

/-- What is left to read, the expansions of tag handles, and the anchors so far: the numbers
of their names and their nodes. -/
structure Composer where
  tokens : List Token
  handles : List (String × String)
  names : List (String × Nat)
  anchored : List (Nat × Node)

abbrev Compose := StateT Composer Option

namespace Compose

def peek : Compose (Option Token) := fun s => some (s.tokens.head?, s)

def advance : Compose Unit := fun s => some ((), { s with tokens := s.tokens.tail })

def fail {α : Type} : Compose α := fun _ => none

/-- Takes the next token if it is `t`. -/
def accept (t : Token) : Compose Bool := fun s =>
  if s.tokens.head? = some t then some (true, { s with tokens := s.tokens.tail })
  else some (false, s)

def isNext (ts : List Token) : Compose Bool := fun s =>
  some (s.tokens.head?.any (ts.contains ·), s)

/-- Gives a name the number of names before it. -/
def declare (name : Option String) : Compose (Option Nat) := fun s =>
  match name with
  | none => some (none, s)
  | some n =>
    let number := s.names.length
    some (some number, { s with names := (n, number) :: s.names.filter (·.1 ≠ n) })

/-- Keeps the node of an anchor. -/
def define (number : Option Nat) (node : Node) : Compose Node := fun s =>
  match number with
  | none => some (node, s)
  | some n => some (node, { s with anchored := (n, node) :: s.anchored })

def expand? (handles : List (String × String)) (handle suffix : String) : Option String :=
  if handle.isEmpty then some suffix else (handles.lookup handle).map (· ++ suffix)

def tagText (parts : Option (String × String)) : Compose (Option String) := fun s =>
  match parts with
  | none => some (none, s)
  | some (handle, suffix) => (expand? s.handles handle suffix).map fun t => (some t, s)

/-- The anchor and the tag before a node, in any order. -/
def properties : Compose (Option String × Option (String × String)) := do
  match ← peek with
  | some (.anchor a) =>
    advance
    match ← peek with
    | some (.tag h t) => advance; return (some a, some (h, t))
    | _ => return (some a, none)
  | some (.tag h t) =>
    advance
    match ← peek with
    | some (.anchor a) => advance; return (some a, some (h, t))
    | _ => return (none, some (h, t))
  | _ => return (none, none)

mutual

/-- Reads a node. `block` allows block collections; `loose` allows a sequence whose entries are
not indented. -/
def node (block loose : Bool) : Nat → Compose Node
  | 0 => fail
  | fuel + 1 => do
    match ← peek with
    | some (.alias name) =>
      advance
      match (← get).names.lookup name with
      | some n => return .alias n
      | none => fail
    | _ =>
      let (anchor, parts) ← properties
      let tag ← tagText parts
      let number ← declare anchor
      let absent : Compose Node :=
        if anchor.isSome || parts.isSome then pure (.nothing tag) else fail
      let content ← match ← peek with
        | some (.scalar style text) => do
          advance
          pure (Node.scalar style tag text)
        | some .flowSequenceStart => do
          advance
          pure (.sequence (← flowItems true fuel))
        | some .flowMappingStart => do
          advance
          pure (.mapping (← flowPairs true fuel))
        | some .entry => do
          if loose then pure (.sequence (← looseItems fuel)) else absent
        | some .sequenceStart => do
          if block then
            advance
            pure (.sequence (← blockItems fuel))
          else absent
        | some .mappingStart => do
          if block then
            advance
            pure (.mapping (← blockPairs fuel))
          else absent
        | _ => absent
      define number content

/-- Reads a node unless one of the given tokens stands in its place. -/
def nodeUnless (stops : List Token) (block loose : Bool) : Nat → Compose Node
  | 0 => fail
  | fuel + 1 => do
    if ← isNext stops then return .nothing none else node block loose fuel

def blockItems : Nat → Compose (List Node)
  | 0 => fail
  | fuel + 1 => do
    if ← accept .entry then
      let item ← nodeUnless [.entry, .blockEnd] true false fuel
      return item :: (← blockItems fuel)
    else if ← accept .blockEnd then return []
    else fail

def looseItems : Nat → Compose (List Node)
  | 0 => fail
  | fuel + 1 => do
    if ← accept .entry then
      let item ← nodeUnless [.entry, .key, .value, .blockEnd] true false fuel
      return item :: (← looseItems fuel)
    else return []

def blockPairs : Nat → Compose (List (Node × Node))
  | 0 => fail
  | fuel + 1 => do
    if ← accept .key then
      let key ← nodeUnless [.key, .value, .blockEnd] true true fuel
      let value ← blockValue fuel
      return (key, value) :: (← blockPairs fuel)
    else if ← accept .blockEnd then return []
    else fail

def blockValue : Nat → Compose Node
  | 0 => fail
  | fuel + 1 => do
    if ← accept .value then nodeUnless [.key, .value, .blockEnd] true true fuel
    else return .nothing none

def flowItems (first : Bool) : Nat → Compose (List Node)
  | 0 => fail
  | fuel + 1 => do
    if ← accept .flowSequenceEnd then return []
    if !first then
      if !(← accept .comma) then fail
    if ← accept .key then
      let key ← flowItemKey fuel
      let value ← flowValue .flowSequenceEnd fuel
      return .mapping [(key, value)] :: (← flowItems false fuel)
    else if ← accept .flowSequenceEnd then return []
    else
      let item ← node false false fuel
      return item :: (← flowItems false fuel)

/-- The key of a single pair in a sequence. Where it is missing the token in its place is
passed over. -/
def flowItemKey : Nat → Compose Node
  | 0 => fail
  | fuel + 1 => do
    if ← isNext [.value, .comma, .flowSequenceEnd] then
      advance
      return .nothing none
    else node false false fuel

def flowValue (closing : Token) : Nat → Compose Node
  | 0 => fail
  | fuel + 1 => do
    if ← accept .value then nodeUnless [.comma, closing] false false fuel
    else return .nothing none

def flowPairs (first : Bool) : Nat → Compose (List (Node × Node))
  | 0 => fail
  | fuel + 1 => do
    if ← accept .flowMappingEnd then return []
    if !first then
      if !(← accept .comma) then fail
    if ← accept .key then
      let key ← nodeUnless [.value, .comma, .flowMappingEnd] false false fuel
      let value ← flowValue .flowMappingEnd fuel
      return (key, value) :: (← flowPairs false fuel)
    else if ← accept .flowMappingEnd then return []
    else
      let key ← node false false fuel
      return (key, .nothing none) :: (← flowPairs false fuel)

end

/-! ## Documents -/

def standardHandles : List (String × String) := [("!", "!"), ("!!", "tag:yaml.org,2002:")]

/-- Reads directives: at most one version, and each handle once. -/
def directives : Nat → Bool → List (String × String) → Compose (Bool × List (String × String))
  | 0, _, _ => fail
  | fuel + 1, versioned, handles => do
    match ← peek with
    | some (.version major minor) =>
      if versioned || major ≠ 1 || (minor ≠ 1 && minor ≠ 2) then fail
      else
        advance
        directives fuel true handles
    | some (.handle h e) =>
      if (handles.lookup h).isSome then fail
      else
        advance
        directives fuel versioned (handles ++ [(h, e)])
    | _ => return (versioned, handles)

def skipEnds : Nat → Compose Unit
  | 0 => return
  | fuel + 1 => do
    if ← accept .documentEnd then skipEnds fuel

/-- Reads the only document of a text. -/
def document (fuel : Nat) : Compose Node := do
  if (← peek).isNone then return .nothing none
  let (versioned, handles) ← directives fuel false []
  modify fun s => { s with handles := handles ++ standardHandles }
  let explicit ← accept .documentStart
  if !explicit && (versioned || !handles.isEmpty) then fail
  let top ← match ← peek with
    | some .documentStart | some .documentEnd | some (.version ..) | some (.handle ..) | none => do
      if explicit then pure (Node.nothing none) else fail
    | _ => node true false fuel
  skipEnds fuel
  if (← peek).isSome then fail
  return top

end Compose

/-- The document of some tokens. Its depth of nesting is bounded by their number. -/
def Document.ofTokens? (ts : List Token) : Option Document :=
  (Compose.document (4 * ts.length + 8) ⟨ts, [], [], []⟩).map fun (top, s) => ⟨top, s.anchored⟩

def Document.read? (text : String) : Option Document := (tokens? text).bind Document.ofTokens?

end Outfitter.Yaml
