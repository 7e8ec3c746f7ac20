import Parley.Guard
import Parley.Machine.Step
import Parley.Validation

/-!
Running whole programs: the main declaration is evaluated in the global environment until
nothing is left to do, forked processes included.
-/

namespace Parley

/-- The declaration that a program runs. A type declaration does not count. -/
def Program.main? (p : Program) : Option Global :=
  match Table.find? p.globals (.text Program.entry) with
  | some (.global g) => some g
  | _ => none

namespace Machine

/-- Goes on with what was called, as a process of its own that reports under `tag`. A fault is
reported at once. -/
def launch (m : Machine) (c : Call) (tag : Nat) : Machine :=
  match c with
  | .value v => m.resume [.report tag] (.ok v)
  | .body e env => m.eval e env [.report tag]
  | .fault f => m.report tag (.error f)

/-- Starts a program. -/
def startProgram (m : Machine) (p : Program) (k : Stack) : Machine :=
  match p.main? with
  | some g => m.enter (g.call p.globals) k
  | none => m.resume k (.error .noMainDeclaration)

/-- Validates a document and starts its program. -/
def startDocument (m : Machine) (doc : Option Json) (k : Stack) : Machine :=
  match validate doc with
  | .error r => m.resume k (.error r.fault)
  | .ok v =>
    match v.program.main? with
    | some _ => m.startProgram v.program (.pass :: k)
    | none => m.startProgram v.program (.pass :: .pass :: k)

end Machine

/-- A run that is over. -/
structure Finished where
  machine : Machine
  outcome : Outcome
  /-- The outcomes of applying the result. -/
  applied : List Outcome

namespace Finished

/-- Runs a machine whose process of interest reports under `tag`. -/
def ofMachine (fuel : Nat) (tag : Nat) (m : Machine) : Option Finished :=
  (m.drain fuel).map fun m => ⟨m, Guard.conclude (m.outcome? tag), []⟩

/-- The outcome of the last process that was started. -/
def last (f : Finished) : Outcome := f.applied.getLast?.getD f.outcome

/-- The latest result can be applied. -/
def isApplicable (f : Finished) : Bool :=
  match f.last with
  | .ok v => v.kind = .closure
  | .error _ => false

/-- Applies the latest result to a value, if it can be applied. A fault on the spot is the end of
everything. -/
def apply (fuel : Nat) (f : Finished) (arg : Value) : Except Fault (Option Finished) :=
  match f.last with
  | .error _ => .ok (some f)
  | .ok fn =>
    match f.machine.apply fn arg with
    | none => .ok (some f)
    | some (.fault e, _) => .error e
    | some (c, m) =>
      let tag := f.applied.length + 1
      .ok (((m.launch c tag).drain fuel).map fun m =>
        ⟨m, f.outcome, f.applied ++ [Guard.conclude (m.outcome? tag)]⟩)

/-- Applies the latest result again and again; in place of an argument there may be a fault, which
counts only if it is needed. -/
def applyAll (fuel : Nat) (f : Finished) :
    List (Except Fault Value) → Except Fault (Option Finished)
  | [] => .ok (some f)
  | arg :: rest =>
    if f.isApplicable then do
      match ← f.apply fuel (← arg) with
      | some f => f.applyAll fuel rest
      | none => .ok none
    else .ok (some f)

/-- The moment when the main process ended. -/
def ended? (f : Finished) : Option Event := f.machine.events.find? fun e => e.tag = 0

end Finished

/-- Runs a program. -/
def Program.run (fuel : Nat) (policy : Policy) (p : Program) : Option Finished :=
  Finished.ofMachine fuel 0 (({ policy } : Machine).startProgram p [.report 0])

/-- Runs the program that a document holds at a place, without validating it. -/
def runUnchecked (fuel : Nat) (policy : Policy) (place : Place) (doc : Option Json) :
    Option Finished :=
  match Program.ofJson? place doc with
  | some p => p.run fuel policy
  | none =>
    let m : Machine := { policy }
    let fault := Fault.misuse (.notIterable "declarations")
    Finished.ofMachine fuel 0 (m.resume [.report 0] (.error fault))

/-- Validates and runs a document. -/
def interpret (fuel : Nat) (policy : Policy) (doc : Option Json) : Option Finished :=
  Finished.ofMachine fuel 0 (({ policy } : Machine).startDocument doc [.report 0])

end Parley
