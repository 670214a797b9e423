import Outfitter.Files
import Outfitter.Json.Pointer
import Outfitter.Json.Reader

/-! # Releases

The version of a project is the text of its stamp. The latest release is looked up in the
answer of a registry, at a place given by a JSON pointer.
-/

namespace Outfitter.Release

open Outfitter.Action

/-- The version of a project without a stamp. -/
def noVersion : String := "none"

/-- The version in the text of a stamp. -/
def versionIn (text : String) : String :=
  let v := Text.trim text
  if v.isEmpty then noVersion else v

/-- The version of a project. -/
def current (root : Path) (d : Disk) : String :=
  match d.readText (Layout.stamp root) with
  | .ok text => versionIn text
  | .error _ => noVersion

def save (root : Path) (version : String) : Action Unit :=
  Files.replace (Layout.stamp root) version.toUTF8

/-- What a registry answers to a request. -/
inductive Reply where
  | unreachable (reason : String)
  | answer (status : Nat) (body : ByteArray)

/-- The body of a reply as JSON. -/
def Reply.json : Reply → Except Error Json
  | .unreachable reason => .error (.network reason)
  | .answer status body =>
    if 400 ≤ status then .error (.network ("HTTP status " ++ toString status))
    else
      match (String.fromUTF8? body).bind Json.read? with
      | some v => .ok v
      | none => .error (.network "error decoding response body")

/-- The version that a reply has at a pointer. -/
def latest (reply : Reply) (pointer : String) : Except Error String :=
  match reply.json with
  | .error e => .error e
  | .ok v =>
    match (v.pointer? pointer).bind Json.str? with
    | some version => .ok version
    | none => .error (.missingVersion pointer)

/-- The published version, if the lookup gave one. -/
def published? (lookup : Except Error String) : Option String :=
  match lookup with
  | .ok v => some v
  | .error _ => none

/-- The published version, or the one to fall back on. -/
def latestOr (lookup : Except Error String) (fallback : String) : String :=
  (published? lookup).getD fallback

def needsUpdate (root : Path) (lookup : Except Error String) (fallback : String) (d : Disk) : Bool :=
  current root d ≠ latestOr lookup fallback

end Outfitter.Release
