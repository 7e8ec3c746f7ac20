import Parley.Run
import Mathlib.Logic.Function.Iterate
import Mathlib.Tactic.Lemma

/-!
What is seen of a run, on its way and when it is over, without looking into the values and faults
themselves.
-/

namespace Parley

/-- How an outcome shows: the text of a value, or the class and the wording of a fault. -/
def Outcome.shown : Outcome → Except (Fault.Category × String) String
  | .ok v => .ok v.render
  | .error f => .error (f.category, f.message)

/-- A complaint about a value speaks of its kind and of its text. -/
lemma Fault.message_typeMismatch {v v' : Value} (hkind : v'.kind = v.kind)
    (hrender : v'.render = v.render) (expected context : Atom) :
    (typeMismatch expected v' context).message = (typeMismatch expected v context).message := by
  have hmessage : ∀ w : Value, (typeMismatch expected w context).message =
      "Type mismatch (" ++ context.display ++ "): expected " ++ expected.display ++ ", got " ++
        w.kind.name ++ " " ++ w.render := fun _ => rfl
  rw [hmessage, hmessage, hkind, hrender]

/-- The account of a run: how it ended, what it counted, and what it said about itself. -/
structure Report where
  outcome : Except (Fault.Category × String) String
  steps : Nat
  /-- The tasks still running, and those that have ended. -/
  active : Nat
  settled : Nat
  /-- The faults remembered, by task, in their wording. -/
  failures : List (Atom × String)
  warnings : List String
  queues : Nat
  trace : List String

def Finished.report (f : Finished) : Report :=
  let m := f.machine
  { outcome := f.outcome.shown
    steps := m.steps
    active := m.tasks.running.length
    settled := m.tasks.settled
    failures := m.tasks.failures.map fun e => (e.1, e.2.message)
    warnings := warningLines (m.log.toList.map Note.line)
    queues := m.allocated
    trace := traceLines (m.log.toList.map Note.line) }

def Event.counts (e : Event) : List Nat := [e.tag, e.steps, e.active, e.settled, e.logged]

def Finished.countsAtEnd (f : Finished) : Option (List Nat) := f.ended?.map Event.counts

/-- A run as it stands. A main process that has not ended is taken for blocked, and has no
counts. -/
def Machine.soFar (m : Machine) : Finished := ⟨m, Guard.conclude (m.outcome? 0), []⟩

/-- The account of a run as it stands, and whether it has come to rest. -/
def Machine.glimpse (m : Machine) : Report × Option (List Nat) × Bool :=
  (m.soFar.report, m.soFar.countsAtEnd, m.quiet)

/-- The machines that the run of a program comes through. -/
def Program.after (policy : Policy) (p : Program) (n : Nat) : Machine :=
  Machine.step^[n] (({ policy } : Machine).startProgram p [.report 0])

/-- A run comes to an end, with enough fuel, and gives this account. -/
def Reports (run : Nat → Option Finished) (R : Report) : Prop :=
  ∃ fuel f, run fuel = some f ∧ f.report = R

end Parley
