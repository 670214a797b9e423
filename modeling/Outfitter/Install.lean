import Outfitter.Bundle
import Outfitter.Files
import Outfitter.Inventory
import Outfitter.Manifest

/-! # Installation

Each file of a bundle is copied to its place in a project unless the place is the user's
and taken. A file that cannot be copied does not stop the others.
-/

namespace Outfitter.Install

open Outfitter.Action

structure Report where
  copied : List String
  kept : List String
  failed : List (String × Error)

/-- A file that is there is kept; `taken` says whether something is there. -/
def keeps (m : Manifest) (bundled destination : String) (taken : Bool) : Bool :=
  match m.policy? bundled with
  | some .skip => true
  | some .overwrite => false
  | some .mergeOnly => taken
  | none => taken && Inventory.isUserOwned destination

/-- Copies one file of a bundle to a place. -/
def copyOne (b : Bundle) (bundled destination : String) (place : Path) : Action Unit := do
  let bytes ← b.read bundled
  Files.replace place bytes
  if Inventory.isShellScript destination then Files.makeExecutable place

/-- Installs one file of a bundle and adds what happened to a report. -/
def installOne (b : Bundle) (m : Manifest) (root : Path) (r : Report) (bundled : String) :
    Action Report := do
  let destination := Inventory.destination bundled
  let place := root / destination
  if keeps m bundled destination (← ask (·.isThere place)) then
    return { r with kept := r.kept ++ [destination] }
  match ← attempt (copyOne b bundled destination place) with
  | .ok () => return { r with copied := r.copied ++ [destination] }
  | .error e => return { r with failed := r.failed ++ [(destination, e)] }

/-- Installs a bundle in a project. -/
def run (b : Bundle) (m : Manifest) (root : Path) : Action Report := do
  (← b.files).foldlM (installOne b m root) ⟨[], [], []⟩

/-- Removes those retired files that are files, and gives their names. -/
def removeFiles : List (String × Path) → Action (List String)
  | [] => return []
  | (name, place) :: rest => do
    if ← ask (·.isFile place) then
      change (·.removeFile place)
      return name :: (← removeFiles rest)
    else removeFiles rest

def removeRetired (root : Path) : Action (List String) := removeFiles (Inventory.retiredIn root)

end Outfitter.Install
