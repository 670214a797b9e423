import Outfitter.Error
import Outfitter.Text.Blank
import Outfitter.Text.Lossy

/-! # Programs

A toolbox holds the programs that can be found by name, each with the way it ends.
-/

namespace Outfitter

/-- How a program ends. -/
inductive Ending where
  | exit (status : Nat)
  | signal (number : Nat)
  deriving DecidableEq, Repr

namespace Ending

def isSuccess : Ending → Bool
  | exit status => status == 0
  | signal _ => false

def signalNames : List (Nat × String) :=
  [ (1, "SIGHUP"), (2, "SIGINT"), (3, "SIGQUIT"), (4, "SIGILL"), (5, "SIGTRAP"), (6, "SIGABRT")
  , (7, "SIGBUS"), (8, "SIGFPE"), (9, "SIGKILL"), (10, "SIGUSR1"), (11, "SIGSEGV")
  , (12, "SIGUSR2"), (13, "SIGPIPE"), (14, "SIGALRM"), (15, "SIGTERM") ]

def text : Ending → String
  | exit status => "exit status: " ++ toString status
  | signal n =>
    let name := match signalNames.lookup n with
      | some s => " (" ++ s ++ ")"
      | none => ""
    "signal: " ++ toString n ++ name

end Ending

structure Program where
  mode : Nat
  ending : Ending
  /-- What it writes to its error stream. -/
  complaint : ByteArray

abbrev Toolbox := List (String × Program)

namespace Toolbox

/-- The program of a name, if its owner may run it. -/
def find? (t : Toolbox) (name : String) : Option Program :=
  (t.lookup name).bind fun p => if p.mode / 0o100 % 2 = 1 then some p else none

def has (t : Toolbox) (name : String) : Bool := (t.find? name).isSome

/-- Puts a program under a name in place of one that has it. -/
def put (t : Toolbox) (name : String) (p : Program) : Toolbox :=
  (name, p) :: t.filter fun e => e.1 ≠ name

/-- A command that can be started is found by name, and no argument holds a zero. -/
def startable? (t : Toolbox) : List String → Option Program
  | [] => none
  | name :: args => if args.any (·.toList.contains '\x00') then none else t.find? name

/-- Runs a command that upgrades a package. -/
def upgrade (t : Toolbox) (command : List String) : Except Error Unit :=
  match command with
  | [] | "" :: _ => .error (.executableNotFound "(empty upgrade command)")
  | name :: args =>
    match t.find? name with
    | none => .error (.executableNotFound name)
    | some p =>
      if args.any (·.toList.contains '\x00') then
        .error (.io (.custom false "nul byte found in provided data"))
      else if p.ending.isSuccess then .ok ()
      else
        .error (.upgradeFailed
          (name ++ " exited with " ++ p.ending.text ++ ": " ++ Text.trim (Text.lossy p.complaint)))

end Toolbox

end Outfitter
