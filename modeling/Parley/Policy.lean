import Parley.Number.Basic

/-!
The limits of a run: how many steps it may take, how often it lets others go first, and how
many faults it remembers.
-/

namespace Parley

/-- Limits and switches of a run. -/
structure Policy where
  /-- The last step that is allowed. -/
  maxSteps : Number := .infinite false
  /-- A step that is a multiple of this lets everything else that is ready run first. -/
  interval : Number := .integer 100
  /-- The number of faults remembered. -/
  kept : Number := .integer 100
  tracing : Bool := false

namespace Policy

/-- Limits as asked for; an interval is at least one, and a number of faults at least zero. -/
def limits (maxSteps interval kept : Option Number) (tracing : Bool) : Policy where
  maxSteps := maxSteps.getD (.infinite false)
  interval := (interval.getD (.integer 100)).atLeast 1
  kept := (kept.getD (.integer 100)).atLeast 0
  tracing := tracing

/-- The step with this number is one too many. -/
def forbids (p : Policy) (step : Nat) : Bool := p.maxSteps.below step

/-- The step with this number lets others go first. -/
def pauses (p : Policy) (step : Nat) : Bool := p.interval.divides step

/-- No fault is remembered at all. -/
def forgetful (p : Policy) : Bool := p.kept = .integer 0

/-- So many faults are too many to remember. -/
def overflows (p : Policy) (faults : Nat) : Bool := p.kept.below faults

end Policy

end Parley
