import Outfitter.Path

/-! # Errors

A fault is what the system reports about a file; an error is why an operation of this
library failed. Each error has one text and belongs to one of four coarse kinds.
-/

namespace Outfitter

/-- A failure reported by the file system. -/
inductive Fault where
  | notFound
  | permissionDenied
  | alreadyExists
  | notADirectory
  | isADirectory
  | directoryNotEmpty
  | tooLong
  | linkLoop
  | notRegular
  | notText
  | zeroByte
  | custom (missing : Bool) (text : String)
  deriving DecidableEq, Repr

namespace Fault

def text : Fault → String
  | notFound => "No such file or directory (os error 2)"
  | permissionDenied => "Permission denied (os error 13)"
  | alreadyExists => "File exists (os error 17)"
  | notADirectory => "Not a directory (os error 20)"
  | isADirectory => "Is a directory (os error 21)"
  | directoryNotEmpty => "Directory not empty (os error 39)"
  | tooLong => "File name too long (os error 36)"
  | linkLoop => "Too many levels of symbolic links (os error 40)"
  | notRegular => "the source path is neither a regular file nor a symlink to a regular file"
  | notText => "stream did not contain valid UTF-8"
  | zeroByte => "file name contained an unexpected NUL byte"
  | custom _ text => text

/-- The fault says that something is missing. -/
def isMissing : Fault → Bool
  | notFound => true
  | custom missing _ => missing
  | _ => false

end Fault

inductive Error where
  | sourceNotFound (dir : Path)
  | assetNotFound (name : String)
  | invalidJson (file : Path) (reason : String)
  | notAnObject (file : Path)
  /-- A document that was written cannot be read back. -/
  | validationFailed (file : Path) (reason : Option String)
  | network (reason : String)
  | missingVersion (pointer : String)
  | executableNotFound (name : String)
  | upgradeFailed (reason : String)
  | homeNotFound
  | io (fault : Fault)
  | yaml (reason : String)
  | json (reason : String)
  deriving DecidableEq, Repr

namespace Error

/-- What failed, without the reason that a reader or a service gave. -/
def summary : Error → String
  | sourceNotFound dir => "source directory not found: " ++ dir.text
  | assetNotFound name => "asset not found in bundle: " ++ name
  | invalidJson file _ => "invalid JSON in " ++ file.text
  | notAnObject file => file.text ++ " must contain a JSON object at the top level"
  | validationFailed file _ => "written file failed validation: " ++ file.text
  | network _ => "release lookup failed"
  | missingVersion pointer => "release response has no version at '" ++ pointer ++ "'"
  | executableNotFound name => "executable not found on PATH: " ++ name
  | upgradeFailed reason => "upgrade command failed: " ++ reason
  | homeNotFound => "home directory not found: set HOME environment variable"
  | io fault => fault.text
  | yaml reason => reason
  | json reason => reason

def reason? : Error → Option String
  | invalidJson _ reason => some reason
  | validationFailed _ reason => reason
  | network reason => some reason
  | _ => none

def message (e : Error) : String :=
  match e.reason? with
  | some reason => e.summary ++ ": " ++ reason
  | none => e.summary

/-- Coarse kinds, for callers that only ask whether to go on. -/
inductive Kind where
  | notFound
  | invalidFormat
  | ioFailure
  | networkFailure
  deriving DecidableEq, Repr

def kind : Error → Kind
  | sourceNotFound _ | assetNotFound _ | executableNotFound _ | homeNotFound => .notFound
  | invalidJson .. | notAnObject _ | validationFailed .. | missingVersion _ | yaml _ | json _ =>
    .invalidFormat
  | network _ => .networkFailure
  | io fault => if fault.isMissing then .notFound else .ioFailure
  | upgradeFailed _ => .ioFailure

end Error

end Outfitter
