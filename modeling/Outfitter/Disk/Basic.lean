import Outfitter.Disk.Node
import Outfitter.Error

/-! # The disk

A disk is a tree, a clock and the directory from which relative paths are read. Paths are
followed through symbolic links; what a path leads to is a node that is there, or a vacant
name in a directory that is there.
-/

namespace Outfitter

structure Disk where
  top : Node
  cwd : List String
  clock : Nat

/-- Where a path leads. -/
inductive Spot where
  | there (place : List String) (node : Node)
  | vacant (dir : List String) (name : String)

namespace Disk

/-- The longest path, in bytes. -/
def pathLimit : Nat := 4095

/-- The longest name, in bytes. -/
def nameLimit : Nat := 255

/-- The most symbolic links that a path may pass. -/
def linkLimit : Nat := 40

/-- Follows names from a node at a place, which is given from its end upwards. A link that
is followed goes on by `jump`; a final link is followed only if `follow` says so. -/
def descend (top : Node) (follow : Bool)
    (jump : List String → Node → List String → Except Fault Spot) :
    List String → Node → List String → Except Fault Spot
  | here, n, [] => .ok (.there here.reverse n)
  | here, .dir t es, name :: rest =>
    if name = ".." then
      match top.at? here.tail.reverse with
      | some n => descend top follow jump here.tail n rest
      | none => .error .notFound
    else if nameLimit < name.utf8ByteSize then .error .tooLong
    else
      match es.lookup name with
      | none => if rest.isEmpty then .ok (.vacant here.reverse name) else .error .notFound
      | some (.link target) =>
        if rest.isEmpty && !follow then .ok (.there (name :: here).reverse (.link target))
        else if target.isAbsolute then jump [] top (target.names ++ rest)
        else jump here (.dir t es) (target.names ++ rest)
      | some n => descend top follow jump (name :: here) n rest
  | _, _, _ :: _ => .error .notADirectory

/-- Follows names through at most `links` links. -/
def trace (top : Node) (follow : Bool) :
    Nat → List String → Node → List String → Except Fault Spot
  | 0 => descend top follow fun _ _ _ => .error .linkLoop
  | links + 1 => descend top follow (trace top follow links)

/-- The directory that the steps of a path are taken from: the top, or one above the working
directory. A path that goes up reaches it also from a working directory that is gone. -/
def base (d : Disk) (p : Path) : List String :=
  if p.isAbsolute then [] else d.cwd.take (d.cwd.length - p.rise)

/-- The last check on a path: what ends in a slash, or takes no step, is a directory that is
there, and past a missing name no dot leads on. -/
def settle (p : Path) : Except Fault Spot → Except Fault Spot
  | .ok (.there place n) =>
    if (p.endsIdle || p.steps.isEmpty) && !n.isDir then .error .notADirectory
    else .ok (.there place n)
  | .ok (.vacant dir name) =>
    if p.steps.isEmpty || p.endsDotted then .error .notFound else .ok (.vacant dir name)
  | .error e => .error e

def locate (d : Disk) (follow : Bool) (p : Path) : Except Fault Spot :=
  if p.isEmpty then .error .notFound
  else if p.segments.any (·.toList.contains '\x00') then .error .zeroByte
  else if pathLimit < p.byteSize then .error .tooLong
  else settle p (trace d.top (follow || p.endsIdle) linkLimit [] d.top (d.base p ++ p.steps))

/-- The stamp of what changes now. -/
def now (d : Disk) : Stamp := ⟨d.clock, true⟩

/-- The disk once the run is over. -/
def settled (d : Disk) : Disk := { d with top := d.top.settled }

/-! ## Looking -/

/-- What a path leads to, through a final link. -/
def find (d : Disk) (p : Path) : Except Fault (List String × Node) :=
  match d.locate true p with
  | .ok (.there place n) => .ok (place, n)
  | .ok (.vacant ..) => .error .notFound
  | .error e => .error e

def isThere (d : Disk) (p : Path) : Bool := (d.find p).isOk

def isFile (d : Disk) (p : Path) : Bool :=
  match d.find p with
  | .ok (_, n) => n.isFile
  | .error _ => false

def isDir (d : Disk) (p : Path) : Bool :=
  match d.find p with
  | .ok (_, n) => n.isDir
  | .error _ => false

/-- The owner may read. -/
def isReadable (mode : Nat) : Bool := mode / 0o400 % 2 = 1

/-- The owner may write. -/
def isWritable (mode : Nat) : Bool := mode / 0o200 % 2 = 1

def readBytes (d : Disk) (p : Path) : Except Fault ByteArray :=
  match d.find p with
  | .ok (_, .file content mode _) => if isReadable mode then .ok content else .error .permissionDenied
  | .ok _ => .error .isADirectory
  | .error e => .error e

def readText (d : Disk) (p : Path) : Except Fault String :=
  match d.readBytes p with
  | .ok bytes =>
    match String.fromUTF8? bytes with
    | some s => .ok s
    | none => .error .notText
  | .error e => .error e

/-- The entries of a directory. -/
def list (d : Disk) (p : Path) : Except Fault Entries :=
  match d.find p with
  | .ok (_, .dir _ es) => .ok es
  | .ok _ => .error .notADirectory
  | .error e => .error e

end Disk

end Outfitter
