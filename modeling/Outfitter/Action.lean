import Outfitter.Disk.Change

/-! # Actions

An action changes a disk and gives a result or an error. What it had done before an error
stays done.
-/

namespace Outfitter

abbrev Action := ExceptT Error (StateM Disk)

namespace Action

/-- Runs an action on a disk. -/
def on {α : Type} (x : Action α) (d : Disk) : Except Error α × Disk := x d

/-- Runs an action where none may fail, and gives its outcome, error or not. -/
def outcome {α : Type} (x : Action α) : StateM Disk (Except Error α) := fun d => x.on d

/-- Asks the disk something. -/
def ask {α : Type} (f : Disk → α) : Action α := fun d => (.ok (f d), d)

/-- Reads from the disk, which may fail. -/
def fetch {α : Type} (f : Disk → Except Fault α) : Action α := fun d =>
  match f d with
  | .ok a => (.ok a, d)
  | .error e => (.error (.io e), d)

/-- Changes the disk, or fails and leaves it as it is. -/
def change (f : Disk → Except Fault Disk) : Action Unit := fun d =>
  match f d with
  | .ok d => (.ok (), d)
  | .error e => (.error (.io e), d)

/-- Runs an action and gives its outcome, error or not, as the result. -/
def attempt {α : Type} (x : Action α) : Action (Except Error α) := fun d =>
  let (r, d) := x.on d
  (.ok r, d)

def fail {α : Type} (e : Error) : Action α := fun d => (.error e, d)

/-- Runs an action for its effect, whatever its outcome. -/
def ignore {α : Type} (x : Action α) : Action Unit := fun d => (.ok (), (x.on d).2)

end Action

end Outfitter
