import Outfitter.Action
import Outfitter.Layout
import Outfitter.Text.Blank

/-! # Files

Operations on files that take more than one step.
-/

namespace Outfitter.Files

open Outfitter.Action

/-- Makes a directory whose surroundings are there. -/
def makeLast (p : Path) : Action Unit := do
  match ← attempt (change (·.makeDir p)) with
  | .ok () => pure ()
  | .error e => if ← ask (·.isDir p) then pure () else fail e

/-- Makes the first of some directories, nested from the inside out, and those around it
that are missing. A directory in use is not looked for. -/
def makeDirsFrom : List Path → Action Unit
  | [] => fail (.io (.custom false "failed to create whole tree"))
  | p :: around =>
    if p.isBare && p.byteSize ≤ Disk.pathLimit then pure ()
    else do
      match ← attempt (change (·.makeDir p)) with
      | .ok () => pure ()
      | .error (.io .notFound) =>
        makeDirsFrom around
        makeLast p
      | .error e => if ← ask (·.isDir p) then pure () else fail e

/-- Makes a directory and those around it; one that is there is left alone. -/
def makeDirs (p : Path) : Action Unit := makeDirsFrom p.ancestors

def makeParents (p : Path) : Action Unit :=
  match p.parent? with
  | some dir => makeDirs dir
  | none => pure ()

/-- Replaces a file as a whole, with the mode of a new file, and makes its directory. -/
def replace (p : Path) (bytes : ByteArray) : Action Unit := do
  makeParents p
  fun d =>
    match d.replace p bytes with
    | (.ok (), d) => (.ok (), d)
    | (.error e, d) => (.error (.io e), d)

/-- Copies content, mode and modification time of a file. -/
def copy (source target : Path) : Action Unit := do
  makeParents target
  change (·.copy source target)
  let stamp ← fetch (·.modified source)
  change (·.setModified target stamp)

/-- Turns on the execute bits for owner, group and others. -/
def makeExecutable (p : Path) : Action Unit := change (·.changeMode p (· ||| 0o111))

/-- The text that adds a line, under a comment, to a file that holds `text`. -/
def addedLine (text entry : String) (comment : Option String) : String :=
  let gap := if text.isEmpty || text.toList.getLast? = some '\n' then "" else "\n"
  match comment with
  | some c =>
    if text.isEmpty then "# " ++ c ++ "\n" ++ entry ++ "\n"
    else gap ++ "\n# " ++ c ++ "\n" ++ entry ++ "\n"
  | none => gap ++ entry ++ "\n"

/-- Adds a line to the ignore file of a project unless it is there; says whether it did. -/
def ensureIgnored (root : Path) (entry : String) (comment : Option String) : Action Bool := do
  let file := Layout.ignoreFile root
  let text ← if ← ask (·.isThere file) then fetch (·.readText file) else pure ""
  if (Text.lines text).any (fun line => Text.trimEnd line = entry) then return false
  change (·.append file (addedLine text entry comment).toUTF8)
  return true

end Outfitter.Files
