import Outfitter.Glob.Pattern

/-! # Reading patterns

Patterns are read from left to right. An open brace puts the sequence read so far aside
until its closing brace; a double star counts as directories only where it fills a segment.
-/

namespace Outfitter.Glob

/-- A class that is being read: its ranges so far, last first. -/
structure OpenClass where
  negated : Bool
  ranges : List (Char × Char)
  first : Bool
  /-- A dash after a character waits for the other end of its range. -/
  dash : Bool

namespace OpenClass

def start (negated : Bool) : OpenClass := ⟨negated, [], true, false⟩

/-- Closes a range at `c`, unless that reverses it. -/
def extend? (k : OpenClass) (c : Char) : Option OpenClass :=
  match k.ranges with
  | (lo, _) :: rest => if c < lo then none else some ⟨k.negated, (lo, c) :: rest, false, false⟩
  | [] => none

def push (k : OpenClass) (c : Char) : OpenClass := ⟨k.negated, (c, c) :: k.ranges, false, false⟩

def dashed (k : OpenClass) : Option OpenClass :=
  if k.first then some (k.push '-')
  else if k.dash then k.extend? '-'
  else some ⟨k.negated, k.ranges, false, true⟩

def add (k : OpenClass) (c : Char) : Option OpenClass :=
  if k.dash then k.extend? c else some (k.push c)

/-- A dash that no character follows stands for itself. -/
def close (k : OpenClass) : Item :=
  let ranges := if k.dash then ('-', '-') :: k.ranges else k.ranges
  .cls k.negated ranges.reverse

end OpenClass

/-- A brace that is still open: the sequence before it and its finished branches, each
last first. -/
structure OpenChoice where
  before : List Item
  branches : List (List Item)

/-- Where reading stands: open braces from the inside out, the current sequence last first,
and the character before. -/
structure Reading where
  outer : List OpenChoice
  current : List Item
  prev : Option Char

namespace Reading

def start : Reading := ⟨[], [], none⟩

def push (r : Reading) (i : Item) (c : Char) : Reading := ⟨r.outer, i :: r.current, some c⟩

def openBrace (r : Reading) : Reading := ⟨⟨r.current, []⟩ :: r.outer, [], some '\x7b'⟩

def closeBrace (r : Reading) : Option Reading :=
  match r.outer with
  | [] => none
  | c :: outer =>
    let branches := (r.current.reverse :: c.branches).reverse
    some ⟨outer, .choice branches :: c.before, some '\x7d'⟩

/-- A comma parts branches inside braces and stands for itself elsewhere. -/
def comma (r : Reading) : Reading :=
  match r.outer with
  | [] => r.push (.literal ',') ','
  | c :: outer => ⟨⟨c.before, r.current.reverse :: c.branches⟩ :: outer, [], some ','⟩

def stars (r : Reading) : Reading := ⟨r.outer, .star :: .star :: r.current, some '*'⟩

/-- The double star takes the place of the item before it, which is its slash. -/
def fold (r : Reading) (i : Item) (last : Char) : Reading :=
  match r.current with
  | .leading :: _ | .trailing :: _ => ⟨r.outer, r.current, some last⟩
  | _ :: rest => ⟨r.outer, i :: rest, some last⟩
  | [] => ⟨r.outer, [i], some last⟩

/-- What comes before a double star lets it fill a segment. -/
def opensSegment (r : Reading) : Bool :=
  r.prev == some '/' ||
    (!r.outer.isEmpty && (r.prev == some ',' || r.prev == some '\x7b'))

end Reading

/-- Reads on; `cls` is the class that is open, if one is. Nothing is returned for a class or
a brace that stays open, a stray closing brace, a reversed range and a final backslash. -/
def readFrom (r : Reading) : Option OpenClass → List Char → Option (List Item)
  | none, [] => if r.outer.isEmpty then some r.current.reverse else none
  | some _, [] => none
  | some k, ']' :: rest =>
    if k.first then readFrom r (some (k.push ']')) rest
    else readFrom (r.push k.close ']') none rest
  | some k, '-' :: rest => k.dashed.bind fun k => readFrom r (some k) rest
  | some k, c :: rest => (k.add c).bind fun k => readFrom r (some k) rest
  | none, '?' :: rest => readFrom (r.push .any '?') none rest
  | none, '[' :: '!' :: rest => readFrom r (some (.start true)) rest
  | none, '[' :: '^' :: rest => readFrom r (some (.start true)) rest
  | none, '[' :: rest => readFrom r (some (.start false)) rest
  | none, '\x7b' :: rest => readFrom r.openBrace none rest
  | none, '\x7d' :: rest => r.closeBrace.bind fun r => readFrom r none rest
  | none, ',' :: rest => readFrom r.comma none rest
  | none, '\\' :: c :: rest => readFrom (r.push (.literal c) c) none rest
  | none, '\\' :: [] => none
  | none, '*' :: '*' :: rest =>
    if r.current.isEmpty then
      match rest with
      | [] => readFrom (r.push .leading '*') none []
      | '/' :: rest => readFrom (r.push .leading '/') none rest
      | c :: rest => readFrom r.stars none (c :: rest)
    else if r.opensSegment then
      match rest with
      | [] => readFrom (r.fold .trailing '*') none []
      | '/' :: rest => readFrom (r.fold .between '/') none rest
      | c :: rest =>
        if !r.outer.isEmpty && (c == ',' || c == '\x7d') then
          readFrom (r.fold .trailing '*') none (c :: rest)
        else readFrom r.stars none (c :: rest)
    else readFrom r.stars none rest
  | none, '*' :: rest => readFrom (r.push .star '*') none rest
  | none, c :: rest => readFrom (r.push (.literal c) c) none rest

def read? (text : String) : Option (List Item) := readFrom .start none text.toList

end Outfitter.Glob
