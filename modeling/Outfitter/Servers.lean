import Outfitter.Config
import Outfitter.Settings
import Outfitter.Toolbox

/-! # Servers of a project

The command line program `codex` is registered as a server in the document of the project's
servers, if it is installed and its user is logged in.
-/

namespace Outfitter.Servers

open Outfitter.Action

def program : String := "codex"

def serversKey : String := "mcpServers"

/-- The entry of the server for a model. -/
def entry (model : String) : Json :=
  .obj
    [ ("type", .str "stdio")
    , ("command", .str program)
    , ("args", .arr [.str "-m", .str model, .str "mcp-server"]) ]

/-- The user of a home directory is logged in. -/
def isLoggedIn (home : Path) (d : Disk) : Bool :=
  match d.readText (home / ".codex/auth.json") with
  | .error _ => false
  | .ok text =>
    ((Json.read? text).bind fun v =>
      (v.get? "tokens").bind fun tokens => tokens.get? "access_token").isSome

/-- A document with the server registered for a model; nothing if the servers of the
document are no object. -/
def registered? (doc : Settings.Document) (model : String) : Option Settings.Document :=
  match (doc.get? serversKey).getD (.obj []) with
  | .obj servers => some (doc.set serversKey (.obj (Json.Members.set servers program (entry model))))
  | _ => none

/-- Registers the server for a model. -/
def register (root : Path) (model : String) : Action Unit := do
  let file := Layout.servers root
  let doc ← if ← ask (·.isThere file) then Settings.read file else pure []
  match registered? doc model with
  | none => fail (.notAnObject file)
  | some doc => Files.replace file (Settings.render doc).toUTF8

inductive Setup where
  | configured
  | disabled
  | notInstalled
  | notLoggedIn
  deriving DecidableEq, Repr

/-- Registers the server if it is wanted and can be used. -/
def setUp (root home : Path) (tools : Toolbox) (c : Config.Codex) : Action Setup := do
  if !c.enabled then return .disabled
  if !tools.has program then return .notInstalled
  if !(← ask (isLoggedIn home)) then return .notLoggedIn
  register root c.model
  return .configured

end Outfitter.Servers
