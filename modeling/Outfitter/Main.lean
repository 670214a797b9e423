import Outfitter.Session

/-! # The program

Loads the parts of the disk that a run may look at, runs the command on them and writes back
what has changed. The registry is not reached from here, and no package is upgraded.
-/

namespace Outfitter.Main

/-- What the program may touch in the root of a project. -/
def projectNames : List String :=
  [ Layout.assetsDirName, Layout.snapshotsDirName, Layout.ignoreName, Layout.serversName
  , "CLAUDE.md" ]

/-- Loads a file or a directory with all that it holds. -/
partial def load (name : String) : IO (Option Node) := do
  let place := (← IO.currentDir) / name
  if ← place.isDir then
    let mut entries : Entries := []
    for entry in ← place.readDir do
      if let some n ← load entry.path.toString then entries := (entry.fileName, n) :: entries
    let times ← place.metadata
    return some (.dir ⟨times.modified.sec, false⟩ entries)
  else if ← place.pathExists then
    let times ← place.metadata
    let bytes ← IO.FS.readBinFile place
    return some (.file bytes Disk.defaultMode ⟨times.modified.sec, false⟩)
  else return none

/-- Puts a node at a path with the directories around it. -/
def graft (d : Disk) (p : Path) (n : Node) : Disk :=
  let d := ((Files.makeParents p).on d).2
  match d.locate false p with
  | .ok (.there place _) => d.put place n
  | .ok (.vacant dir name) => d.put (dir ++ [name]) n
  | .error _ => d

mutual

/-- Writes a node over the one that was there before. -/
partial def save (name : String) (old new : Option Node) : IO Unit := do
  match old, new with
  | some (.file b m _), some (.file c n _) =>
    if b.toList != c.toList || m != n then saveFile name c n
  | _, some (.file c n _) => saveFile name c n
  | some (.dir _ es), some (.dir _ fs) => saveEntries name es fs
  | _, some (.dir _ fs) =>
    IO.FS.createDirAll name
    saveEntries name [] fs
  | some (.dir ..), none => IO.FS.removeDirAll name
  | some (.file ..), none => IO.FS.removeFile name
  | _, _ => pure ()

partial def saveFile (name : String) (bytes : ByteArray) (mode : Nat) : IO Unit := do
  IO.FS.writeBinFile name bytes
  if mode / 0o100 % 2 = 1 then
    IO.setAccessRights name
      ⟨⟨true, true, true⟩, ⟨true, false, true⟩, ⟨true, false, true⟩⟩

partial def saveEntries (name : String) (old new : Entries) : IO Unit := do
  for (entry, n) in old do
    if (new.lookup entry).isNone then save (name ++ "/" ++ entry) (some n) none
  for (entry, n) in new do
    save (name ++ "/" ++ entry) (old.lookup entry) (some n)

end

/-- The time now, as the modification time of a file that is just made. -/
def clock : IO Nat := do
  let (handle, file) ← IO.FS.createTempFile
  handle.putStr "\n"
  handle.flush
  let times ← file.metadata
  IO.FS.removeFile file
  return times.modified.sec.toNat

/-- The program for servers, if it is in a directory of the search path. -/
def tools : IO Toolbox := do
  let dirs := ((← IO.getEnv "PATH").getD "").splitOn ":"
  for dir in dirs do
    if ← ((← IO.currentDir) / dir / Servers.program).pathExists then
      return [(Servers.program, ⟨0o755, .exit 0, ByteArray.empty⟩)]
  return []

/-- The paths that a command may look at or change. -/
def places (cwd home : Path) (i : Command.Invocation) : List Path :=
  let roots := match i.root with
    | some p => [cwd.join p]
    | none => cwd.ancestors
  let named := match i.command with
    | .generate project out => [project, out]
    | .verify dir => [dir]
    | _ => []
  roots.flatMap (fun r => projectNames.map (r / ·)) ++ named.map cwd.join ++
    [home / ".codex/auth.json"]

/-- The disk with what is needed of it. -/
def disk (cwd : Path) (ps : List Path) : IO Disk := do
  let mut d : Disk := ⟨.dir ⟨0, false⟩ [], cwd.names, ← clock⟩
  d := ((Files.makeDirs cwd).on d).2
  for dir in cwd.ancestors do
    if ← ((← IO.currentDir) / (dir / ".git").text).isDir then
      d := graft d (dir / ".git") (.dir ⟨0, false⟩ [])
  for p in ps do
    if let some n ← load p.text then d := graft d p n
  return d

def nodeAt (d : Disk) (p : Path) : Option Node :=
  match d.find p with
  | .ok (_, n) => some n
  | .error _ => none

/-- Runs the program with its arguments and gives its exit status. -/
def start (args : List String) : IO UInt32 := do
  let cwd := Path.ofText (← IO.currentDir).toString
  let home := Path.ofText ((← IO.getEnv "HOME").getD "/")
  let e : Command.Surroundings :=
    ⟨home, ← tools, ← IO.getEnv "PILOT_ROOT", ← IO.getEnv "PILOT_RELEASE_URL"⟩
  let ps := match Command.read e args with
    | .ok i => places cwd home i
    | .error _ => []
  let before ← disk cwd ps
  let (r, after) := Session.execute e (fun _ => .unreachable "no network") args before
  for p in ps do
    save p.text (nodeAt before p) (nodeAt after p)
  for line in r.printed do
    IO.println line
  if let some f := r.failure then
    IO.eprintln ("error: " ++ f.message)
  return UInt32.ofNat r.status

end Outfitter.Main

def main (args : List String) : IO UInt32 := Outfitter.Main.start args
