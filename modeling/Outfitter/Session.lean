import Outfitter.Command
import Outfitter.Embedded
import Outfitter.Packaging
import Outfitter.Servers

/-! # Sessions

A session runs a command: it acts on the disk, prints lines and may fail, which says what
was being done and why it failed.
-/

namespace Outfitter

/-- Why a command failed: what it was doing, and the error behind it. -/
structure Failure where
  text : String
  cause : Option Error := none

def Failure.message (f : Failure) : String :=
  match f.cause with
  | some e => f.text ++ ": " ++ e.message
  | none => f.text

/-- What a session leaves: the disk and the lines that it has printed, the last one first. -/
structure Scene where
  disk : Disk
  printed : List String

abbrev Session := ExceptT Failure (StateM Scene)

namespace Session

def say (line : String) : Session Unit := fun s => (.ok (), { s with printed := line :: s.printed })

def sayAll (lines : List String) : Session Unit := lines.forM say

def fail {α : Type} (text : String) : Session α := fun s => (.error { text }, s)

/-- Does something to the disk. -/
def act {α : Type} (x : StateM Disk α) : Session α := fun s =>
  let (a, d) := x s.disk
  (.ok a, { s with disk := d })

/-- Runs an action; `text` says what it does when it fails. -/
def doing {α : Type} (text : String) (x : Action α) : Session α := do
  match ← act x.outcome with
  | .ok a => return a
  | .error e => fun s => (.error { text, cause := some e }, s)

def ask {α : Type} (f : Disk → α) : Session α := fun s => (.ok (f s.disk), s)

/-- The configuration of a project, with the page of the latest release from the command
line. -/
def config (root : Path) (releaseUrl : Option String) : Session Config := do
  let c ← doing "failed to load .claude/pilot.yaml" (Config.load root)
  return { c with update.releaseUrl := releaseUrl.getD c.update.releaseUrl }

/-! ## Installation -/

def outcomeLines (part : String) : Settings.Outcome → List String
  | .created => ["  created:   .claude/settings.json (" ++ part ++ ")"]
  | .added => ["  added:     " ++ part ++ " to .claude/settings.json"]
  | .qualified n => ["  updated:   " ++ toString n ++ " " ++ part ++ " path(s)"]
  | .unchanged | .skipped => []

def reportLines (r : Install.Report) : List String :=
  ("  installed: " ++ toString r.copied.length ++ " files") ::
    r.kept.map (fun p => "  kept:      " ++ p) ++
    r.failed.map (fun (p, e) => "  failed:    " ++ p ++ " (" ++ e.message ++ ")")

def init (k : Update.Kit) (e : Command.Surroundings) (root : Path) (skipCodex : Bool) :
    Session Unit := do
  let c ← config root none
  say ("Initializing claude-pilot in: " ++ root.text)
  let report ← doing "failed to install bundled assets" (Install.run k.bundle k.manifest root)
  sayAll (reportLines report)
  let statusLine ← doing "failed to configure statusLine" (Settings.mergeStatusLine root)
  sayAll (outcomeLines "statusLine" statusLine)
  let hooks ← doing "failed to configure hooks" (Settings.mergeHooks root)
  sayAll (outcomeLines "hooks" hooks)
  let ignored ← doing "failed to update .gitignore"
    (Files.ensureIgnored root Layout.ignoredPlans (some Update.ignoreComment))
  if ignored then say ("  added:     " ++ Layout.ignoredPlans ++ " to .gitignore")
  if !skipCodex then
    match ← act (Servers.setUp root e.home e.tools c.codex).outcome with
    | .ok .configured => say "  codex:     MCP server added to .mcp.json"
    | _ => pure ()
  doing "failed to write version stamp" (Release.save root k.version)
  if !report.failed.isEmpty then
    fail (toString report.failed.length ++ " file(s) could not be installed")
  sayAll ["", "claude-pilot v" ++ k.version ++ " installed."]

/-! ## Updates -/

def checkLines (r : Update.Report) (upgradeCommand : List String) : List String :=
  match r.published with
  | some p =>
    if r.upgradeAvailable then
      [ "Update available: v" ++ r.installed ++ " -> v" ++ p
      , "  run: " ++ " ".intercalate upgradeCommand ]
    else ["claude-pilot v" ++ r.installed ++ " is the latest release."]
  | none => ["claude-pilot v" ++ r.installed ++ " (latest release unknown)"]

def fileLines (r : Install.Report) : List String :=
  ("Updated: " ++ toString r.copied.length ++ " files") ::
    if r.failed.isEmpty then [] else ["Failed:  " ++ toString r.failed.length ++ " files"]

def nextLines (r : Update.Report) : List String :=
  match r.guide with
  | some guide =>
    [ "Manual merge guide: " ++ guide.text
    , ""
    , "Next steps:"
    , "  1. Review the backup and merge guide"
    , "  2. Merge the changes"
    , "  3. Stamp the version: echo '" ++ r.target ++ "' > .claude/.pilot-version" ]
  | none => ["claude-pilot updated: v" ++ r.before ++ " -> v" ++ r.target]

def updatedLines (r : Update.Report) : List String :=
  (match r.files with
    | some files => fileLines files
    | none => []) ++
  (match r.backup with
    | some dir => ["Backup:  " ++ dir.text]
    | none => []) ++
  nextLines r

/-- What the registry of a configuration tells about the latest release. -/
def lookUp (registry : String → Release.Reply) (c : Config.Update) : Except Error String :=
  Release.latest (registry c.releaseUrl) c.versionPointer

def update (k : Update.Kit) (e : Command.Surroundings) (registry : String → Release.Reply)
    (root : Path) (releaseUrl : Option String) (strategy : Strategy)
    (skipUpgrade checkOnly : Bool) : Session Unit := do
  let c ← config root releaseUrl
  let o : Update.Options := ⟨strategy, skipUpgrade, checkOnly, c.update.keep⟩
  let upgrade := e.tools.upgrade c.update.upgradeCommand
  let r ← act (Update.run k root o (lookUp registry c.update) upgrade)
  if checkOnly then sayAll (checkLines r c.update.upgradeCommand)
  else
    if r.upgraded then
      say "Package upgraded. Re-run `claude-pilot update` to apply the new assets."
    match r.status with
    | .alreadyCurrent => say ("Already up to date (v" ++ r.before ++ ").")
    | .updated => sayAll (updatedLines r)
    | .failed => fail "update failed, see messages above"

def version (k : Update.Kit) (registry : String → Release.Reply) (root : Path)
    (releaseUrl : Option String) : Session Unit := do
  let c ← config root releaseUrl
  let current ← ask (Release.current root)
  let latest := Release.latestOr (lookUp registry c.update) k.version
  sayAll
    [ "installed: " ++ k.version
    , "project:   " ++ current
    , "latest:    " ++ latest ]
  if current ≠ latest then sayAll ["", "Run `claude-pilot update` to update this project."]

/-! ## Assets -/

def generate (project out : Path) : Session Unit := do
  let count ← doing ("failed to generate assets from " ++ project.text)
    (Packaging.generateCurated project out)
  say ("Generated " ++ toString count ++ " files into " ++ out.text)

def verify (dir : Path) : Session Unit := do
  match ← ask (Packaging.audit dir) with
  | [] => say ("Bundle OK: " ++ dir.text)
  | violations =>
    sayAll (violations.map fun v => "  " ++ v.text)
    fail (toString violations.length ++ " violation(s) in " ++ dir.text)

def list (k : Update.Kit) : Session Unit := do
  match ← act k.bundle.files.outcome with
  | .ok names => sayAll names
  | .error e => fail e.message

/-! ## The program -/

/-- Runs a command, with the kit that the program brings along. -/
def run (k : Update.Kit) (e : Command.Surroundings) (registry : String → Release.Reply)
    (i : Command.Invocation) : Session Unit := do
  let here ← ask fun d => Path.ofText ("/" ++ "/".intercalate d.cwd)
  let root ← match i.root with
    | some p => pure p
    | none => ask (Command.findRoot here (some e.home))
  match i.command with
  | .init skipCodex => init k e root skipCodex
  | .update strategy skipUpgrade checkOnly =>
    update k e registry root i.releaseUrl strategy skipUpgrade checkOnly
  | .version => version k registry root i.releaseUrl
  | .generate project out => generate project out
  | .verify dir => verify dir
  | .list => list k

/-- How a run of the program ended. -/
structure Ended where
  status : Nat
  printed : List String
  failure : Option Failure

def helpLine : String :=
  "Install and update curated Claude Code commands, skills and hooks in a project"

/-- Runs the program with the given arguments on a disk. -/
def execute (e : Command.Surroundings) (registry : String → Release.Reply) (args : List String)
    (d : Disk) : Ended × Disk :=
  match Command.read e args with
  | .error (.version name) => (⟨0, [name ++ " " ++ Embedded.version], none⟩, d)
  | .error .help => (⟨0, [helpLine], none⟩, d)
  | .error .misuse => (⟨2, [], none⟩, d)
  | .ok i =>
    match run Embedded.kit e registry i ⟨d, []⟩ with
    | (.ok (), s) => (⟨0, s.printed.reverse, none⟩, s.disk)
    | (.error f, s) => (⟨1, s.printed.reverse, some f⟩, s.disk)

end Session

end Outfitter
