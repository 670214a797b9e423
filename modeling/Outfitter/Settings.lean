import Outfitter.Json.Reader
import Outfitter.Json.Writer
import Outfitter.Snapshot

/-! # Settings

The settings of a project are a JSON object. A new version is written to a sibling, read
back, and put in place as a whole. Two merges add what is missing and qualify the paths of
hooks; keys that they do not own keep their values and places.
-/

namespace Outfitter.Settings

open Outfitter.Action

abbrev Document := Json.Members

/-! ## Documents -/

/-- Why a text is not a document. -/
def notJson : String := "not a JSON text"

def parse (file : Path) (text : String) : Except Error Document :=
  match Json.read? text with
  | none => .error (.invalidJson file notJson)
  | some (.obj ms) => .ok ms
  | some _ => .error (.notAnObject file)

def read (file : Path) : Action Document := do
  let text ← fetch (·.readText file)
  match parse file text with
  | .ok doc => return doc
  | .error e => fail e

/-- The text of a document: pretty, and ended by a line feed. -/
def render (doc : Document) : String := (Json.obj doc).pretty ++ "\n"

/-- Writes a document beside its file, reads it back and puts it in place. -/
def stage (file staging : Path) (doc : Document) : Action Unit := do
  change (·.write staging (render doc).toUTF8)
  let written ← fetch (·.readText staging)
  if (Json.read? written).isNone then fail (.validationFailed staging (some notJson))
  else change (·.rename staging file)

/-- Removes a staged file. -/
def clear (staging : Path) : Action Unit := do
  if ← ask (·.isFile staging) then ignore (change (·.removeFile staging))

/-- Copies a backup over its file. -/
def putBack (file : Path) : Option Path → Action Unit
  | some b => do if ← ask (·.isFile b) then ignore (change (·.copy b file))
  | none => pure ()

/-- Clears up after a failure: no staged file stays, and the backup comes back. -/
def restore (file staging : Path) (backup : Option Path) : Action Unit := do
  clear staging
  putBack file backup

/-- Writes a document; on failure the file is as it was, or as `backup` has it. -/
def write (file : Path) (doc : Document) (backup : Option Path) : Action Unit := do
  let staging := Layout.staging file
  match ← attempt (stage file staging doc) with
  | .ok () => return ()
  | .error e =>
    restore file staging backup
    fail e

/-! ## Defaults -/

/-- The variable that holds the directory of a project. -/
def projectVariable : String := "$CLAUDE_PROJECT_DIR"

/-- The quoted variable before a path. -/
def projectPrefix : String := "\"$CLAUDE_PROJECT_DIR\"/"

def statusLineKey : String := "statusLine"

def hooksKey : String := "hooks"

def command (text : String) : Json := .obj [("type", .str "command"), ("command", .str text)]

def hookScript (script : String) : Json :=
  command (projectPrefix ++ ".claude/scripts/hooks/" ++ script)

def defaultStatusLine : Json := command (projectPrefix ++ ".claude/scripts/statusline.sh")

def defaultHooks : Json :=
  .obj
    [ ("PreToolUse", .arr
        [ .obj [ ("matcher", .str "Edit|Write")
               , ("hooks", .arr [hookScript "typecheck.sh", hookScript "lint.sh"]) ]
        , .obj [ ("matcher", .str "Bash")
               , ("hooks", .arr [hookScript "branch-guard.sh"]) ] ])
    , ("PostToolUse", .arr
        [ .obj [ ("matcher", .str "Edit|Write")
               , ("hooks", .arr [hookScript "typecheck.sh"]) ] ])
    , ("Stop", .arr [ .obj [("hooks", .arr [hookScript "check-todos.sh"])] ]) ]

/-! ## Qualified hooks -/

def startsWith (start text : String) : Bool := start.toList.isPrefixOf text.toList

/-- `part` stands somewhere in a text. -/
def isInfix (part : List Char) : List Char → Bool
  | [] => part.isEmpty
  | c :: rest => part.isPrefixOf (c :: rest) || isInfix part rest

def occursIn (part text : String) : Bool := isInfix part.toList text.toList

/-- A command that names a script of the project relative to it gets the variable. -/
def qualify? (c : String) : Option String :=
  if occursIn projectVariable c || !startsWith ".claude/" c then none
  else some (projectPrefix ++ c)

/-- Maps some values and adds up the changes in them. -/
def sumMap {α : Type} (f : α → α × Nat) (xs : List α) : List α × Nat :=
  (xs.map fun x => (f x).1, xs.foldr (fun x n => (f x).2 + n) 0)

/-- Maps the value of one key. -/
def atKey (key : String) (f : Json → Json × Nat) : Json → Json × Nat
  | .obj ms =>
    let r := sumMap (fun (k, v) => if k = key then let (w, n) := f v; ((k, w), n) else ((k, v), 0)) ms
    (.obj r.1, r.2)
  | v => (v, 0)

/-- Maps each item of an array. -/
def atItems (f : Json → Json × Nat) : Json → Json × Nat
  | .arr items => let r := sumMap f items; (.arr r.1, r.2)
  | v => (v, 0)

/-- Maps the value of each key of an object. -/
def atValues (f : Json → Json × Nat) : Json → Json × Nat
  | .obj ms => let r := sumMap (fun (k, v) => let (w, n) := f v; ((k, w), n)) ms; (.obj r.1, r.2)
  | v => (v, 0)

def qualifyString : Json → Json × Nat
  | .str c =>
    match qualify? c with
    | some q => (.str q, 1)
    | none => (.str c, 0)
  | v => (v, 0)

/-- Qualifies the commands of all hooks and counts those that changed. -/
def qualifyHooks : Json → Json × Nat :=
  atValues (atItems (atKey "hooks" (atItems (atKey "command" qualifyString))))

/-! ## Merges -/

inductive Outcome where
  | created
  | added
  | qualified (count : Nat)
  | unchanged
  | skipped
  deriving DecidableEq, Repr

/-- Backs a file up; a merge goes on without. -/
def tryBackUp (file : Path) : Action (Option Path) := do
  match ← attempt (Snapshot.backUp file) with
  | .ok p => return some p
  | .error _ => return none

/-- Writes a changed document after backing up the old one. -/
def saveOver (file : Path) (doc : Document) : Action Unit := do
  let backup ← tryBackUp file
  write file doc backup

/-- Adds the status line unless there is one. -/
def mergeStatusLine (root : Path) : Action Outcome := do
  let file := Layout.settings root
  Files.makeDirs (Layout.assetsDir root)
  if ← ask (·.isThere file) then
    let doc ← read file
    if doc.contains statusLineKey then return .unchanged
    saveOver file (doc.set statusLineKey defaultStatusLine)
    return .added
  else
    write file [(statusLineKey, defaultStatusLine)] none
    return .created

/-- Adds the default hooks if there are none, and qualifies the commands of those there are. -/
def mergeHooks (root : Path) : Action Outcome := do
  let file := Layout.settings root
  if ← ask (·.isThere file) then
    let doc ← read file
    match doc.get? hooksKey with
    | none =>
      saveOver file (doc.set hooksKey defaultHooks)
      return .added
    | some hooks =>
      match qualifyHooks hooks with
      | (_, 0) => return .unchanged
      | (hooks, n) =>
        saveOver file (doc.set hooksKey hooks)
        return .qualified n
  else return .skipped

end Outfitter.Settings
