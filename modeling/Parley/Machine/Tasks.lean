import Parley.Fault
import Parley.Policy

/-!
The books on tasks: which are running, how many have ended, and the latest faults. A task is
entered under a name, and a name may be entered again while it is running. A task given from
outside is a function: it is entered first and called then, and what the function gives back
is the task from then on.
-/

namespace Parley

/-- The entry of a running task. -/
inductive Entry
  | live (serial : Nat)
  /-- Its function has given back nothing that could be waited for. -/
  | unready (serial : Nat)
  /-- It has ended in a way that could not be dealt with. -/
  | stranded (serial : Nat)
  deriving DecidableEq

/-- What is known about tasks. -/
structure Tasks where
  running : Table Atom Entry := []
  failures : Table Atom Fault := []
  settled : Nat := 0
  /-- Task names handed out. -/
  named : Nat := 0
  /-- Tasks started. -/
  started : Nat := 0
  /-- Tasks whose functions are being called, the innermost call first. -/
  calls : List (Atom × Nat) := []

namespace Tasks

def nextName (t : Tasks) : String := "fork-" ++ toString t.named

/-- Enters a task under a name and calls its function. -/
def call (t : Tasks) (task : Atom) : Tasks :=
  { t with
    running := Table.set t.running task (.unready t.started)
    started := t.started + 1
    calls := (task, t.started) :: t.calls }

/-- Changes the entry of a task, unless the name is entered for another one or for none. -/
def amend (t : Tasks) (task : Atom) (old new : Entry) : Tasks :=
  { t with running := t.running.map fun e => if e = (task, old) then (task, new) else e }

/-- The function that was called last has given back its task, which can now be waited for. -/
def engage (t : Tasks) (task : Atom) (serial : Nat) : Tasks :=
  ({ t with calls := t.calls.tail }).amend task (.unready serial) (.live serial)

/-- A task ends: its name is no longer running, and a fault is remembered as far as the limits
allow. -/
def settle (t : Tasks) (p : Policy) (task : Atom) (o : Outcome) : Tasks :=
  let t := { t with running := Table.erase t.running task, settled := t.settled + 1 }
  match o with
  | .ok _ => t
  | .error f =>
    if p.forgetful then t
    else
      let failures := Table.set t.failures task f
      { t with failures := if p.overflows failures.length then failures.drop 1 else failures }

end Tasks

end Parley
