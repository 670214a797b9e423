import Outfitter.Action
import Outfitter.Layout
import Outfitter.Text.Blank
import Outfitter.Yaml.Value

/-! # Configuration

A project may have a configuration in YAML. Every field has a default; a field that is not
known is passed over, and one that is given twice is an error.
-/

namespace Outfitter

namespace Config

def package : String := "claude-pilot"

structure Update where
  /-- The page that tells the latest release. -/
  releaseUrl : String := "https://crates.io/api/v1/crates/" ++ package
  /-- Where the version stands in it, as a JSON pointer. -/
  versionPointer : String := "/crate/max_version"
  timeoutSeconds : Nat := 5
  /-- How many snapshots are kept. -/
  keep : Nat := 5
  upgradeCommand : List String := ["cargo", "install", "--locked", "--force", package]
  deriving DecidableEq, Repr

structure Codex where
  enabled : Bool := true
  model : String := "gpt-5.2"
  deriving DecidableEq, Repr

end Config

structure Config where
  update : Config.Update := {}
  codex : Config.Codex := {}
  deriving DecidableEq, Repr

namespace Config

open Yaml

def updateFields (d : Document) : List (Slot Update) :=
  [ ⟨"release_url", fun u n => n.string?.map ({ u with releaseUrl := · })⟩
  , ⟨"version_pointer", fun u n => n.string?.map ({ u with versionPointer := · })⟩
  , ⟨"timeout_secs", fun u n => n.nat?.map ({ u with timeoutSeconds := · })⟩
  , ⟨"backup_keep", fun u n => n.nat?.map ({ u with keep := · })⟩
  , ⟨"upgrade_command", fun u n => (d.strings? n).map ({ u with upgradeCommand := · })⟩ ]

def codexFields : List (Slot Codex) :=
  [ ⟨"enabled", fun c n => n.bool?.map ({ c with enabled := · })⟩
  , ⟨"model", fun c n => n.string?.map ({ c with model := · })⟩ ]

def fields (d : Document) : List (Slot Config) :=
  [ ⟨"update", fun c n =>
      (n.pairs?.bind (d.record? (updateFields d) [] {})).map ({ c with update := · })⟩
  , ⟨"codex", fun c n =>
      (n.pairs?.bind (d.record? codexFields [] {})).map ({ c with codex := · })⟩ ]

/-- The configuration in a document. -/
def ofDocument? (d : Document) : Option Config :=
  d.top.pairs?.bind (d.record? (fields d) [] {})

/-- The configuration in a text; a blank text has the defaults. -/
def read? (text : String) : Option Config :=
  if (Text.trim text).isEmpty then some {} else (Document.read? text).bind ofDocument?

/-- The configuration of a project. -/
def load (root : Path) : Action Config := do
  let file := Layout.config root
  if ← Action.ask (·.isThere file) then
    match read? (← Action.fetch (·.readText file)) with
    | some c => return c
    | none => Action.fail (.yaml "malformed configuration")
  else return {}

end Config

end Outfitter
