import Outfitter.Command.Arguments
import Outfitter.Config
import Outfitter.Toolbox
import Outfitter.Update

/-! # The command line

The arguments of the program name a command. Two options, the root of the project and the
page of the latest release, may stand at every level; the innermost counts, and a variable
of the environment stands in for an option that is not given.
-/

namespace Outfitter

inductive Command where
  | init (skipCodex : Bool)
  | update (strategy : Strategy) (skipUpgrade checkOnly : Bool)
  | version
  | generate (project out : Path)
  | verify (dir : Path)
  | list
  deriving Repr

namespace Command

/-- What surrounds a run of the program. -/
structure Surroundings where
  home : Path
  tools : Toolbox
  /-- The root of the project in the environment. -/
  rootVariable : Option String
  /-- The page of the latest release in the environment. -/
  urlVariable : Option String

structure Invocation where
  root : Option Path
  releaseUrl : Option String
  command : Command
  deriving Repr

/-- Why a command line names no command to run. -/
inductive Stop where
  | version (name : String)
  | help
  | misuse
  deriving DecidableEq, Repr

/-! ## Shapes -/

def isStrategy (s : String) : Bool := (Strategy.ofText s).isOk

/-- The options of every level. -/
def sharedOptions : List (String × (String → Bool)) :=
  [("root", fun s => !s.isEmpty), ("release-url", fun _ => true)]

def topShape : Shape :=
  { options := sharedOptions, commands := ["init", "update", "version", "assets", "help"] }

def assetsShape : Shape :=
  { options := sharedOptions, commands := ["generate", "verify", "list", "help"] }

def initShape : Shape := { options := sharedOptions, flags := ["skip-codex"] }

def updateShape : Shape :=
  { options := ("strategy", isStrategy) :: sharedOptions, flags := ["skip-upgrade", "check-only"] }

/-- The shape of a command that takes words only. -/
def wordsShape (n : Nat) : Shape := { options := sharedOptions, words := n }

/-! ## Commands -/

/-- The command that some arguments make up. -/
def ofGiven? (names : List String) (g : Given) : Option Command :=
  match names, g.words with
  | ["init"], _ => some (.init (g.flags.contains "skip-codex"))
  | ["update"], _ =>
    match Strategy.ofText ((g.values.lookup "strategy").getD "auto") with
    | .ok s => some (.update s (g.flags.contains "skip-upgrade") (g.flags.contains "check-only"))
    | .error _ => none
  | ["version"], _ => some .version
  | ["assets", "generate"], [project, out] => some (.generate (.ofText project) (.ofText out))
  | ["assets", "verify"], [dir] => some (.verify (.ofText dir))
  | ["assets", "list"], _ => some .list
  | _, _ => none

def shape : List String → Shape
  | [] => topShape
  | ["assets"] => assetsShape
  | ["init"] => initShape
  | ["update"] => updateShape
  | ["assets", "generate"] => wordsShape 2
  | ["assets", "verify"] => wordsShape 1
  | _ => wordsShape 0

/-- Reads the command at the given level and below, with what was given at each level, the
innermost first. -/
def levels (names : List String) :
    Nat → List Given → List String → Except Stop (Command × List Given)
  | 0, _, _ => .error .misuse
  | depth + 1, outer, args =>
    match (shape names).read {} args with
    | .done g =>
      match ofGiven? names g with
      | some c => .ok (c, g :: outer)
      | none => .error .misuse
    | .command g name rest =>
      if name = "help" then .error .help else levels (names ++ [name]) depth (g :: outer) rest
    | .version => .error (.version ("-".intercalate (Config.package :: names)))
    | .help => .error .help
    | .misuse => .error .misuse

/-- The value of a shared option: the innermost, or else the variable. -/
def shared? (given : List Given) (name : String) (fallback : Option String) : Option String :=
  (given.findSome? fun g => g.values.lookup name).or fallback

/-- Every level accepts the variables that stand in for its options. -/
def acceptsVariables (e : Surroundings) (given : List Given) : Bool :=
  e.rootVariable != some "" || given.all fun g => (g.values.lookup "root").isSome

/-- Reads a command line. -/
def read (e : Surroundings) (args : List String) : Except Stop Invocation :=
  match levels [] 3 [] args with
  | .error stop => .error stop
  | .ok (command, given) =>
    if acceptsVariables e given then
      .ok ⟨(shared? given "root" e.rootVariable).map Path.ofText,
        shared? given "release-url" e.urlVariable, command⟩
    else .error .misuse

/-! ## The root of a project -/

/-- The nearest directory with assets, which is not the home directory if there is one; else the
nearest under version control; else the start. -/
def findRoot (start : Path) (home : Option Path) (d : Disk) : Path :=
  let dirs := start.ancestors
  match dirs.find? fun p =>
      home.map Path.components != some p.components && d.isDir (Layout.assetsDir p) with
  | some p => p
  | none => (dirs.find? fun p => d.isDir (p / ".git")).getD start

end Command

end Outfitter
