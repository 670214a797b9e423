import Outfitter.Walk

/-! # Bundles

A bundle is a set of files to install: those of a directory, or files that are held.
-/

namespace Outfitter

inductive Bundle where
  | dir (root : Path)
  /-- A list of names, which is taken as it is, and the contents of files. -/
  | held (names : List String) (contents : List (String × ByteArray))

namespace Bundle

open Outfitter.Action

/-- Adds the place of a regular file. -/
def collect (found : List String) : Except Fault Walk.Item → Action (List String)
  | .error e => fail (.io e)
  | .ok item =>
    if item.kind = .file && !item.below.isEmpty then
      return Path.slashed item.relative.text :: found
    else return found

/-- The names of the files; those of a directory are sorted. -/
def files : Bundle → Action (List String)
  | held names _ => return names
  | dir root => do
    if ← ask (·.isDir root) then
      let found ← Walk.fold ⟨false, false⟩ collect [] root
      return found.mergeSort (fun a b => !(b < a))
    else fail (.sourceNotFound root)

def read (b : Bundle) (name : String) : Action ByteArray :=
  match b with
  | held _ contents =>
    match contents.lookup name with
    | some bytes => return bytes
    | none => fail (.assetNotFound name)
  | dir root => do
    let file := root / name
    if ← ask (·.isFile file) then fetch (·.readBytes file)
    else fail (.assetNotFound name)

end Bundle

end Outfitter
