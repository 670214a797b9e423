import Outfitter.Guide
import Outfitter.Install
import Outfitter.Release
import Outfitter.Settings

/-! # Updates

An update looks up the published release, upgrades the package if there is a newer one, and
brings the files of the project up to date: by installing the bundle over them, or by
writing a guide for a merge by hand.
-/

namespace Outfitter

inductive Strategy where
  | auto
  | manual
  deriving DecidableEq, Repr

namespace Strategy

def text : Strategy → String
  | auto => "auto"
  | manual => "manual"

def ofText (s : String) : Except String Strategy :=
  if s = "auto" then .ok auto
  else if s = "manual" then .ok manual
  else .error ("unknown merge strategy '" ++ s ++ "' (expected auto or manual)")

end Strategy

namespace Update

open Outfitter.Action

/-- The comment above the line that keeps plans out of version control. -/
def ignoreComment : String := "claude-pilot plan tracking (worktree support)"

structure Options where
  strategy : Strategy := .auto
  skipUpgrade : Bool := false
  checkOnly : Bool := false
  /-- How many snapshots are kept. -/
  keep : Nat := 5

/-- What is installed: a bundle with the manifest and the version that it goes by. -/
structure Kit where
  bundle : Bundle
  manifest : Manifest
  version : String

inductive Status where
  | alreadyCurrent
  | updated
  | failed
  deriving DecidableEq, Repr

structure Report where
  status : Status := .alreadyCurrent
  installed : String
  published : Option String
  /-- The package was upgraded. -/
  upgraded : Bool := false
  /-- The version of the project before the update. -/
  before : String := Release.noVersion
  /-- The version that the project has, or would have, after it. -/
  target : String
  backup : Option Path := none
  files : Option Install.Report := none
  guide : Option Path := none

namespace Report

/-- Another release than the installed one is published. -/
def upgradeAvailable (r : Report) : Bool := r.published.any (· ≠ r.installed)

/-- The version that a project should have. -/
def latest (r : Report) : String := r.published.getD r.installed

/-- The package is to be upgraded. -/
def wantsUpgrade (r : Report) (o : Options) : Bool :=
  r.upgradeAvailable && !o.skipUpgrade && !o.checkOnly

end Report

/-- The report before anything is done. -/
def begin (k : Kit) (lookup : Except Error String) : Report :=
  { installed := k.version, published := Release.published? lookup, target := k.version }

/-- The snapshot before an update, which goes on without one. -/
def snapshot (root : Path) : StateM Disk (Option Path) := do
  match ← (Snapshot.take root).outcome with
  | .ok dir => return some dir
  | .error _ => return none

/-! ## The two ways -/

/-- What follows the installation of files. Each part may fail alone. -/
def tidy (root : Path) (keep : Nat) : StateM Disk Unit := do
  let _ ← (Install.removeRetired root).outcome
  let _ ← (Settings.mergeStatusLine root).outcome
  let _ ← (Settings.mergeHooks root).outcome
  let _ ← (Files.ensureIgnored root Layout.ignoredPlans (some ignoreComment)).outcome
  let _ ← (Snapshot.prune root keep).outcome
  return ()

/-- Installs the bundle over the files of a project. -/
def auto (k : Kit) (root : Path) (keep : Nat) (r : Report) : StateM Disk Report := do
  let r := { r with backup := ← snapshot root }
  match ← (Install.run k.bundle k.manifest root).outcome with
  | .error _ => return { r with status := .failed }
  | .ok files =>
    let r := { r with files := some files }
    tidy root keep
    match ← (Release.save root k.version).outcome with
    | .error _ => return { r with status := .failed }
    | .ok () => return { r with status := .updated, target := k.version }

/-- Writes the guide that names a snapshot, and gives its place. -/
def writeGuide (root : Path) (version : String) (snapshot : Path) : Action Path := do
  let name := snapshot.fileName?.getD "<timestamp>"
  let generated ← ask fun d => Calendar.dateTime d.clock
  Files.replace (Layout.guide root) (Guide.render version name generated).toUTF8
  return Layout.guide root

/-- Leaves the files of a project alone and writes a guide. -/
def manual (k : Kit) (root : Path) (r : Report) : StateM Disk Report := do
  let backup ← snapshot root
  let dir := backup.getD (Layout.snapshots root / "<timestamp>")
  match ← (writeGuide root k.version dir).outcome with
  | .error _ => return { r with backup, status := .failed }
  | .ok guide => return { r with backup, guide := some guide, status := .updated }

/-! ## The whole -/

/-- Brings the files of a project up to date, if they are not. -/
def files (k : Kit) (root : Path) (o : Options) (r : Report) : StateM Disk Report := do
  let current := Release.current root (← get)
  let r := { r with before := current }
  if current = r.latest then return r
  match o.strategy with
  | .auto => auto k root o.keep r
  | .manual => manual k root r

/-- Runs an update. `lookup` is what the registry told, `upgrade` how an upgrade of the package
would end. -/
def run (k : Kit) (root : Path) (o : Options) (lookup : Except Error String)
    (upgrade : Except Error Unit) : StateM Disk Report := do
  let r := begin k lookup
  if o.checkOnly then return { r with before := Release.current root (← get) }
  let upgraded := r.wantsUpgrade o && upgrade.isOk
  files k root o { r with upgraded }

end Update

end Outfitter
