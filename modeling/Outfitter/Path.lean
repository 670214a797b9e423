/-! # Slash paths

A path is the text between slashes, kept as it was written: empty segments and single
dots stay visible in the text and are passed over when the path is read.
-/

namespace Outfitter

/-- The pieces of a text between slashes. -/
def splitSlash (s : String) : List String :=
  (s.toList.splitOn '/').map String.ofList

structure Path where
  segments : List String
  deriving DecidableEq, Repr, Inhabited

namespace Path

/-- One step that a path takes when it is read. -/
inductive Component where
  | root
  | here
  | up
  | name (s : String)
  deriving DecidableEq, Repr

def ofText (s : String) : Path := ⟨splitSlash s⟩

def text (p : Path) : String := "/".intercalate p.segments

instance : ToString Path := ⟨text⟩

def isEmpty (p : Path) : Bool := p.segments == [""] || p.segments == []

def isAbsolute (p : Path) : Bool :=
  match p.segments with
  | "" :: _ :: _ => true
  | _ => false

/-- The number of bytes of some texts. -/
def bytes : List String → Nat
  | [] => 0
  | s :: rest => s.utf8ByteSize + bytes rest

/-- The number of bytes of the text. -/
def byteSize (p : Path) : Nat := bytes p.segments + (p.segments.length - 1)

/-- A segment that takes no step. -/
def isIdle (s : String) : Bool := s == "" || s == "."

/-- What precedes the steps: the root, a leading single dot, or nothing. -/
def lead (p : Path) : List String :=
  match p.segments with
  | "" :: _ :: _ => [""]
  | "." :: _ => ["."]
  | _ => []

def body (p : Path) : List String := p.segments.drop p.lead.length

/-- A path from what precedes its steps and the segments that follow. -/
def ofParts : List String → List String → Path
  | [""], [] => ⟨["", ""]⟩
  | [], [] => ⟨[""]⟩
  | lead, body => ⟨lead ++ body⟩

def dropIdleEnd (segs : List String) : List String :=
  (segs.reverse.dropWhile isIdle).reverse

def step : String → Component
  | ".." => .up
  | s => .name s

def components (p : Path) : List Component :=
  let first : List Component :=
    match p.lead with
    | [""] => [.root]
    | ["."] => [.here]
    | _ => []
  first ++ (p.body.filter (fun s => !isIdle s)).map step

/-- The names a path walks through, `..` among them. -/
def names (p : Path) : List String := p.segments.filter (fun s => !isIdle s)

/-- How many directories a relative path goes up before it goes down. -/
def rise (p : Path) : Nat := if p.isAbsolute then 0 else (p.names.takeWhile (· = "..")).length

/-- The names that a path walks through once it has gone up. -/
def steps (p : Path) : List String := if p.isAbsolute then p.names else p.names.dropWhile (· = "..")

/-- A relative path that goes only up, if anywhere: it stands for a directory in use. -/
def isBare (p : Path) : Bool := !p.isAbsolute && p.steps.isEmpty

/-- The path ends in a slash or a single dot, so it can only stand for a directory. -/
def endsIdle (p : Path) : Bool :=
  match p.segments.getLast? with
  | some s => isIdle s
  | none => false

/-- The path ends in a single dot, slashes after it apart. -/
def endsDotted (p : Path) : Bool := (p.segments.reverse.dropWhile (· = "")).head? = some "."

/-- Reads `q` from `p`: an absolute `q` replaces `p`. -/
def join (p q : Path) : Path :=
  if q.isAbsolute then q
  else if p.isEmpty then q
  else if p.segments.getLast? = some "" then ⟨p.segments.dropLast ++ q.segments⟩
  else ⟨p.segments ++ q.segments⟩

instance : HDiv Path String Path := ⟨fun p s => p.join (ofText s)⟩

def parent? (p : Path) : Option Path :=
  match dropIdleEnd p.body with
  | [] =>
    match p.lead with
    | ["."] => some ⟨[""]⟩
    | _ => none
  | trimmed => some (ofParts p.lead (dropIdleEnd trimmed.dropLast))

def fileName? (p : Path) : Option String :=
  match p.components.getLast? with
  | some (.name s) => some s
  | _ => none

/-- Puts `name` in the place of the last name, or after a path that has none. -/
def withFileName (p : Path) (name : String) : Path :=
  match p.fileName?, p.parent? with
  | some _, some q => q / name
  | _, _ => p / name

/-- Drops the segments of the first `n` steps. -/
def dropSteps : Nat → List String → List String
  | 0, segs => segs
  | _ + 1, [] => []
  | n + 1, s :: rest => if isIdle s then dropSteps (n + 1) rest else dropSteps n rest

/-- What is left of `p` below `base`, if the steps of `base` begin those of `p`. -/
def below? (base p : Path) : Option Path :=
  let first := base.components
  if first.isPrefixOf p.components then
    if first.isEmpty then some (ofParts p.lead (dropIdleEnd p.body))
    else
      let steps := first.length - p.lead.length
      some (ofParts [] (dropIdleEnd ((dropSteps steps p.body).dropWhile isIdle)))
  else none

/-- The path and its parents, nearest first, as many as `fuel` allows. -/
def ancestorsUpTo : Nat → Path → List Path
  | 0, p => [p]
  | fuel + 1, p =>
    match p.parent? with
    | some q => p :: ancestorsUpTo fuel q
    | none => [p]

def ancestors (p : Path) : List Path := ancestorsUpTo p.segments.length p

/-- Turns every backslash into a slash. -/
def slashed (s : String) : String :=
  String.ofList (s.toList.map fun c => if c = '\\' then '/' else c)

/-- The place of `p` below `base` as a slash text; nothing for `base` itself. -/
def relativeText? (base p : Path) : Option String :=
  match base.below? p with
  | some q => if q.text = "" then none else some (slashed q.text)
  | none => none

end Path

end Outfitter
