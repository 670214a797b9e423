import Outfitter.Files
import Outfitter.Inventory
import Outfitter.Manifest
import Outfitter.Walk

/-! # Packaging

A bundle is made from a source tree by copying the files that a manifest includes, and
audited against lists of paths that it must and must not have.
-/

namespace Outfitter.Packaging

open Outfitter.Action

/-- Copies a file to a bundle; shell scripts become executable. -/
def copyAsset (source target : Path) (name : String) : Action Unit := do
  Files.copy source target
  if Inventory.isShellScript name then Files.makeExecutable target

/-- Copies an included file; what cannot be read or copied is passed over. -/
def packItem (m : Manifest) (target : Path) (count : Nat) : Except Fault Walk.Item → Action Nat
  | .error _ => return count
  | .ok item => do
    let name := Path.slashed item.relative.text
    if item.kind = .file && !item.below.isEmpty && m.includes name then
      match ← attempt (copyAsset item.path (target / name) name) with
      | .ok () => return count + 1
      | .error _ => return count
    else return count

/-- Copies the included files of a source tree to a target and gives their number. -/
def generate (source target : Path) (m : Manifest) : Action Nat := do
  if ← ask (·.isDir source) then Walk.fold ⟨false, true⟩ (packItem m target) 0 source
  else fail (.sourceNotFound source)

/-- Makes a bundle of what ships. -/
def generateCurated (source target : Path) : Action Nat := do
  if ← ask (·.isThere source) then
    Files.makeDirs target
    generate source target .curated
  else fail (.sourceNotFound source)

/-! ## Audit -/

def required : List String :=
  [ ".claude/commands/00_plan.md"
  , ".claude/commands/01_confirm.md"
  , ".claude/commands/02_execute.md"
  , ".claude/commands/03_close.md"
  , ".claude/commands/CONTEXT.md"
  , ".claude/agents/CONTEXT.md"
  , ".claude/skills/tdd/SKILL.md"
  , ".claude/skills/ralph-loop/SKILL.md"
  , ".claude/guides/CONTEXT.md"
  , ".claude/rules/core/workflow.md"
  , ".claude/settings.json" ]

/-- Forbidden paths; one that ends in a slash is a directory. -/
def forbidden : List String :=
  [ ".claude/commands/999_publish.md"
  , ".claude/skills/external/"
  , ".claude/.external-skills-version"
  , ".pilot/plan/" ]

inductive Violation where
  | missingRequired (path : String)
  | forbiddenDirectory (path : String)
  | forbiddenFile (path : String)
  deriving DecidableEq, Repr

def Violation.text : Violation → String
  | missingRequired p => "Missing required path: " ++ p
  | forbiddenDirectory p => "Forbidden directory present: " ++ p
  | forbiddenFile p => "Forbidden file present: " ++ p

/-- The directory that a path with a final slash names. -/
def directory? (path : String) : Option String :=
  if path.toList.getLast? = some '/' then some (String.ofList path.toList.dropLast) else none

def checkRequired (dir : Path) (d : Disk) (path : String) : Option Violation :=
  if d.isThere (dir / path) then none else some (.missingRequired path)

def checkForbidden (dir : Path) (d : Disk) (path : String) : Option Violation :=
  match directory? path with
  | some name => if d.isDir (dir / name) then some (.forbiddenDirectory path) else none
  | none => if d.isThere (dir / path) then some (.forbiddenFile path) else none

def auditAgainst (dir : Path) (required forbidden : List String) (d : Disk) : List Violation :=
  required.filterMap (checkRequired dir d) ++ forbidden.filterMap (checkForbidden dir d)

def audit (dir : Path) (d : Disk) : List Violation := auditAgainst dir required forbidden d

end Outfitter.Packaging
