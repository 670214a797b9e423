import Outfitter.Action

/-! # Walks through a tree

A walk meets a directory before what it holds, and folds a visitor over everything it meets;
the visitor may change the disk while the walk goes on. A directory is listed when the walk
turns to it: before the directory itself is visited if the walk is sorted, after that if it
is not.
-/

namespace Outfitter.Walk

open Outfitter.Action

inductive Kind where
  | file
  | dir
  | link
  deriving DecidableEq, Repr

def kindOf : Node → Kind
  | .file .. => .file
  | .link _ => .link
  | .dir .. => .dir

/-- Something that a walk meets. -/
structure Item where
  path : Path
  /-- The names from the start of the walk down to it. -/
  below : List String
  kind : Kind

/-- The place of an item below the start of the walk. -/
def Item.relative (i : Item) : Path :=
  match i.below with
  | [] => ⟨[""]⟩
  | names => ⟨names⟩

structure Options where
  /-- Links are passed as what they lead to. -/
  follow : Bool
  /-- Entries are met in the order of their names, not with the newest first. -/
  sorted : Bool

variable {σ : Type}

/-- Takes in an item, or a fault that stood in its place. -/
abbrev Visitor (σ : Type) := σ → Except Fault Item → Action σ

/-- The entries of a directory in the order in which they are met. -/
def listing (o : Options) (p : Path) : Action (Except Fault (List (String × Kind))) :=
  ask fun d =>
    match d.list p with
    | .ok es =>
      let found := es.map fun e => (e.1, kindOf e.2)
      .ok (if o.sorted then found.mergeSort (fun a b => !(b.1 < a.1)) else found)
    | .error e => .error e

/-- Visits something and what lies below it. `around` holds the places of the directories
that the walk is in; `room` bounds the depth, as the length of a path does. -/
def foldFrom (o : Options) (visit : Visitor σ) (room : Nat) (around : List (List String))
    (s : σ) (item : Item) : Action σ :=
  match item.kind, room with
  | .dir, 0 => do
    let s ← visit s (.ok item)
    visit s (.error .tooLong)
  | .dir, room + 1 => do
    let early ← listing o item.path
    let here ← ask (·.find item.path)
    let around := match here with
      | .ok (place, _) => place :: around
      | .error _ => around
    let s ← visit s (.ok item)
    match ← (if o.sorted then pure early else listing o item.path) with
    | .error e => visit s (.error e)
    | .ok entries =>
      entries.foldlM (fun s (name, kind) => do
        let path := item.path / name
        let below := item.below ++ [name]
        if kind = .link && o.follow then
          match ← ask (·.find path) with
          | .error e => visit s (.error e)
          | .ok (place, n) =>
            if n.isDir && around.contains place then visit s (.error .linkLoop)
            else foldFrom o visit room around s ⟨path, below, kindOf n⟩
        else foldFrom o visit room around s ⟨path, below, kind⟩) s
  | _, _ => visit s (.ok item)

/-- No path is longer, so no walk goes deeper. -/
def maxDepth : Nat := Disk.pathLimit + 1

/-- Walks through all below `start`, which may be a link. -/
def fold (o : Options) (visit : Visitor σ) (s : σ) (start : Path) : Action σ := do
  match ← ask (·.find start) with
  | .error e => visit s (.error e)
  | .ok (_, n) => foldFrom o visit maxDepth [] s ⟨start, [], kindOf n⟩

end Outfitter.Walk
