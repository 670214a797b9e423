import Outfitter.Path

/-! # File trees

A tree is a node: a file, a symbolic link or a directory of named nodes. Places in a tree
are lists of names from the top down.
-/

namespace Outfitter

/-- A modification time. A fresh stamp was set by the run that is going on, and is newer
than every stamp from before it. -/
structure Stamp where
  seconds : Int
  fresh : Bool
  deriving DecidableEq, Repr

namespace Stamp

/-- The stamp is no newer than another. -/
def le (a b : Stamp) : Bool := if a.fresh = b.fresh then a.seconds ≤ b.seconds else b.fresh

/-- The stamp once the run is over. -/
def settled (a : Stamp) : Stamp := ⟨a.seconds, false⟩

end Stamp

inductive Node where
  | file (content : ByteArray) (mode : Nat) (stamp : Stamp)
  | link (target : Path)
  | dir (stamp : Stamp) (entries : List (String × Node))
  deriving Inhabited

abbrev Entries := List (String × Node)

namespace Entries

/-- Puts a node under a name: in its place, or before all others. -/
def put (es : Entries) (name : String) (n : Node) : Entries :=
  if (es.lookup name).isSome then es.map fun e => if e.1 = name then (name, n) else e
  else (name, n) :: es

def erase (es : Entries) (name : String) : Entries := es.filter fun e => e.1 ≠ name

def set (es : Entries) (name : String) : Option Node → Entries
  | some n => put es name n
  | none => erase es name

end Entries

namespace Node

def isDir : Node → Bool
  | dir .. => true
  | _ => false

def isFile : Node → Bool
  | file .. => true
  | _ => false

/-- The node at a place. -/
def at? : Node → List String → Option Node
  | n, [] => some n
  | dir _ es, name :: rest => (es.lookup name).bind (at? · rest)
  | _, _ :: _ => none

/-- Changes what stands at a place whose directory exists; `touch` is a new stamp for that
directory. -/
def alter (touch : Option Stamp) (f : Option Node → Option Node) : Node → List String → Node
  | dir t es, [name] => dir (touch.getD t) (Entries.set es name (f (es.lookup name)))
  | dir t es, name :: rest =>
    match es.lookup name with
    | some n => dir t (Entries.put es name (alter touch f n rest))
    | none => dir t es
  | n, _ => n

/-- Changes the node at a place, but not the directory that holds it. -/
def update (n : Node) (place : List String) (f : Node → Node) : Node :=
  n.alter none (Option.map f) place

/-- Makes `new` the entry at a place. -/
def put (n : Node) (place : List String) (now : Stamp) (new : Node) : Node :=
  n.alter (some now) (fun _ => some new) place

def erase (n : Node) (place : List String) (now : Stamp) : Node :=
  n.alter (some now) (fun _ => none) place

mutual

/-- The tree once the run is over. -/
def settled : Node → Node
  | file content mode stamp => file content mode stamp.settled
  | link target => link target
  | dir stamp entries => dir stamp.settled (settledEntries entries)

def settledEntries : List (String × Node) → List (String × Node)
  | [] => []
  | (name, n) :: rest => (name, n.settled) :: settledEntries rest

end

end Node

end Outfitter
