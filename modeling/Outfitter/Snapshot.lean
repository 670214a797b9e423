import Outfitter.Calendar
import Outfitter.Files
import Outfitter.Walk

/-! # Snapshots

A snapshot is a copy of the assets of a project in a directory named by the time. Old
snapshots are pruned by their modification times. A single document is backed up beside
itself.
-/

namespace Outfitter.Snapshot

open Outfitter.Action

/-- Takes one item of a walk over to the same place below `target`, and counts files. -/
def copyItem (target : Path) (count : Nat) : Except Fault Walk.Item → Action Nat
  | .error e => fail (.io e)
  | .ok item => do
    let place := target.join item.relative
    match item.kind with
    | .dir => do
      Files.makeDirs place
      return count
    | .file => do
      Files.copy item.path place
      return count + 1
    | .link => return count

/-- Copies a tree into `target`, through links, and gives the number of files. -/
def copyTree (source target : Path) : Action Nat := do
  Files.makeDirs target
  Walk.fold ⟨true, false⟩ (copyItem target) 0 source

/-- The name of a snapshot that is taken now. -/
def name : Action String := ask fun d => Calendar.timestamp d.clock

/-- Takes a snapshot in place of one that has its name, and gives its place. A project
without assets has the place, but nothing in it. -/
def take (root : Path) : Action Path := do
  let dir := Layout.snapshots root / (← name)
  let assets := Layout.assetsDir root
  Files.makeDirs (Layout.snapshots root)
  if ← ask (·.isDir assets) then
    if ← ask (·.isThere dir) then change (·.removeTree dir)
    let _ ← copyTree assets dir
  return dir

/-- The directories among some entries with their stamps, the newest first. -/
def newestFirst (es : Entries) : List (Stamp × String) :=
  let dirs := es.filterMap fun
    | (name, .dir stamp _) => some (stamp, name)
    | _ => none
  dirs.mergeSort fun a b => b.1.le a.1

/-- Removes trees one after the other and gives those that are gone. -/
def removeAll : List Path → Action (List Path)
  | [] => return []
  | p :: rest => do
    change (·.removeTree p)
    return p :: (← removeAll rest)

/-- Removes all but the newest snapshots and gives the removed ones. -/
def prune (root : Path) (keep : Nat) : Action (List Path) := do
  let dir := Layout.snapshots root
  if ← ask (·.isDir dir) then
    let es ← fetch (·.list dir)
    removeAll (((newestFirst es).drop keep).map fun s => dir / s.2)
  else return []

/-- Copies a document to a sibling named by the time, and gives that. -/
def backUp (file : Path) : Action Path := do
  let copied := file.withFileName (file.fileName?.getD "settings.json" ++ ".backup." ++ (← name))
  change (·.copy file copied)
  return copied

end Outfitter.Snapshot
