import Outfitter.Disk.Basic

/-! # Changes to the disk

Each operation either changes the disk as it says or reports a fault and leaves the disk as
it is; `replace` alone may leave a trace when it fails.
-/

namespace Outfitter.Disk

def put (d : Disk) (place : List String) (n : Node) : Disk :=
  { d with top := d.top.put place d.now n }

def erase (d : Disk) (place : List String) : Disk := { d with top := d.top.erase place d.now }

def update (d : Disk) (place : List String) (f : Node → Node) : Disk :=
  { d with top := d.top.update place f }

/-- Mode of a new file. -/
def defaultMode : Nat := 0o644

/-- Opens a file for writing and gives it the content that `f` makes of the old one. -/
def edit (d : Disk) (p : Path) (f : ByteArray → ByteArray) : Except Fault Disk :=
  match d.locate true p with
  | .ok (.there place (.file content mode _)) =>
    if isWritable mode then .ok (d.update place fun _ => .file (f content) mode d.now)
    else .error .permissionDenied
  | .ok (.there ..) => .error .isADirectory
  | .ok (.vacant dir name) =>
    if p.endsIdle then .error .isADirectory
    else .ok (d.put (dir ++ [name]) (.file (f ByteArray.empty) defaultMode d.now))
  | .error e => .error e

def write (d : Disk) (p : Path) (bytes : ByteArray) : Except Fault Disk := d.edit p fun _ => bytes

def append (d : Disk) (p : Path) (bytes : ByteArray) : Except Fault Disk := d.edit p (· ++ bytes)

/-- Copies content and mode of a file. The target is emptied first, so a file that is
copied onto itself ends up empty. -/
def copy (d : Disk) (source target : Path) : Except Fault Disk :=
  match d.find source with
  | .ok (from_, .file content mode _) =>
    if !isReadable mode then .error .permissionDenied
    else
      match d.locate true target with
      | .ok (.there place (.file _ old _)) =>
        if isWritable old then
          let copied := if place = from_ then ByteArray.empty else content
          .ok (d.update place fun _ => .file copied mode d.now)
        else .error .permissionDenied
      | .ok (.there ..) => .error .isADirectory
      | .ok (.vacant dir name) =>
        if target.endsIdle then .error .isADirectory
        else .ok (d.put (dir ++ [name]) (.file content mode d.now))
      | .error e => .error e
  | .ok _ => .error .notRegular
  | .error e => .error e

def makeDir (d : Disk) (p : Path) : Except Fault Disk :=
  match d.locate false p with
  | .ok (.there ..) => .error .alreadyExists
  | .ok (.vacant dir name) => .ok (d.put (dir ++ [name]) (.dir d.now []))
  | .error e => .error e

/-- Moves what is at `source` to `target`, over what may be there. -/
def rename (d : Disk) (source target : Path) : Except Fault Disk :=
  match d.locate false source, d.locate false target with
  | .ok (.there old n), .ok (.there new m) =>
    if old = new then .ok d
    else
      match n, m with
      | .dir .., .dir _ [] | .file .., .file .. | .file .., .link _ | .link _, .file ..
      | .link _, .link _ => .ok ((d.erase old).put new n)
      | .dir .., .dir .. => .error .directoryNotEmpty
      | .dir .., _ => .error .notADirectory
      | _, .dir .. => .error .isADirectory
  | .ok (.there old n), .ok (.vacant dir name) =>
    if target.endsIdle && !n.isDir then .error .notADirectory
    else .ok ((d.erase old).put (dir ++ [name]) n)
  | .ok (.vacant ..), _ => .error .notFound
  | .error e, _ => .error e
  | _, .error e => .error e

def removeFile (d : Disk) (p : Path) : Except Fault Disk :=
  match d.locate false p with
  | .ok (.there _ (.dir ..)) => .error .isADirectory
  | .ok (.there place _) => .ok (d.erase place)
  | .ok (.vacant ..) => .error .notFound
  | .error e => .error e

/-- Removes a directory with all that it holds, or a link. -/
def removeTree (d : Disk) (p : Path) : Except Fault Disk :=
  match d.locate false p with
  | .ok (.there _ (.file ..)) => .error .notADirectory
  | .ok (.there place _) => .ok (d.erase place)
  | .ok (.vacant ..) => .error .notFound
  | .error e => .error e

/-- Changes the mode of a file; modes of directories are not kept. -/
def changeMode (d : Disk) (p : Path) (f : Nat → Nat) : Except Fault Disk :=
  match d.find p with
  | .ok (place, .file ..) =>
    .ok (d.update place fun
      | .file content mode stamp => .file content (f mode) stamp
      | n => n)
  | .ok _ => .ok d
  | .error e => .error e

def modified (d : Disk) (p : Path) : Except Fault Stamp :=
  match d.find p with
  | .ok (_, .file _ _ stamp) => .ok stamp
  | .ok (_, .dir stamp _) => .ok stamp
  | .ok _ => .error .notFound
  | .error e => .error e

/-- Sets the modification time of a file that may be written. -/
def setModified (d : Disk) (p : Path) (stamp : Stamp) : Except Fault Disk :=
  match d.find p with
  | .ok (place, .file content mode _) =>
    if isWritable mode then .ok (d.update place fun _ => .file content mode stamp)
    else .error .permissionDenied
  | .ok _ => .error .isADirectory
  | .error e => .error e

/-- Replaces `target` as a whole by a new file that was written beside it. The directory is
touched also if the target is a directory and cannot be replaced. -/
def replace (d : Disk) (target : Path) (bytes : ByteArray) : Except Fault Unit × Disk :=
  let dir := target.parent?.getD (Path.ofText ".")
  let beside := if dir.isEmpty then Path.ofText "." else dir
  match d.find beside with
  | .ok (place, .dir ..) =>
    let touched := d.update place fun
      | .dir _ es => .dir d.now es
      | n => n
    match touched.locate false target with
    | .ok (.there _ (.dir ..)) => (.error .isADirectory, touched)
    | .ok (.there spot _) => (.ok (), touched.put spot (.file bytes defaultMode d.now))
    | .ok (.vacant dir name) =>
      if target.endsIdle then (.error .notADirectory, touched)
      else (.ok (), touched.put (dir ++ [name]) (.file bytes defaultMode d.now))
    | .error e => (.error e, touched)
  | .ok _ => (.error .notADirectory, d)
  | .error e => (.error e, d)

end Outfitter.Disk
