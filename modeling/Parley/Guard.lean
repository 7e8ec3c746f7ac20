import Parley.Fault

/-!
The guard of a run. It places a listener with its host for the moment when nothing is left to
do, and settles with a deadlock if that comes while the run is still going; otherwise it settles
as the run does and takes its listener back.
-/

namespace Parley

/-- What a guard hears. -/
inductive Signal
  /-- The run has ended; only the first end counts. -/
  | ended (o : Outcome)
  /-- Nothing is left to do. -/
  | drained

/-- A guard: the end of the run it watches, the reactions to that end that are still due, the
number of listeners that it has placed, and its own outcome. -/
structure Guard where
  run : Option Outcome := none
  due : List Outcome := []
  listeners : Nat := 1
  outcome : Option Outcome := none

namespace Guard

/-- Settles, unless it has settled before. -/
def settle (g : Guard) (o : Outcome) : Guard := { g with outcome := g.outcome.or (some o) }

/-- Takes a listener back, if there is one. -/
def withdraw (g : Guard) : Guard := { g with listeners := g.listeners - 1 }

/-- Every listener is called once and taken off before it is. -/
def drain (g : Guard) : Guard :=
  Nat.repeat (fun g => g.withdraw.settle (.error .deadlock)) g.listeners g

/-- A signal comes in. The end of the run does no more than make a reaction due. -/
def receive (g : Guard) : Signal → Guard
  | .ended o =>
    match g.run with
    | some _ => g
    | none => { g with run := some o, due := g.due ++ [o] }
  | .drained => g.drain

/-- The reaction to the end of the run. -/
def react (g : Guard) (o : Outcome) : Guard := g.withdraw.settle o

/-- Every reaction that is due has its turn. -/
def catchUp (g : Guard) : Guard := g.due.foldl react { g with due := [] }

/-- A signal, and everything that comes of it. -/
def hear (g : Guard) (s : Signal) : Guard := (g.receive s).catchUp

def hearAll (g : Guard) (ss : List Signal) : Guard := ss.foldl hear g

theorem hearAll_append (g : Guard) (ss later : List Signal) :
    g.hearAll (ss ++ later) = (g.hearAll ss).hearAll later := by
  simp [hearAll, List.foldl_append]

/-- The outcome under guard of a run that had the outcome `o`, if any, when nothing was left
to do. -/
def conclude (o : Option Outcome) : Outcome :=
  let heard := ({} : Guard).hearAll (o.toList.map Signal.ended ++ [.drained])
  heard.outcome.getD (.error .deadlock)

theorem conclude_some (o : Outcome) : conclude (some o) = o := rfl

theorem conclude_none : conclude none = .error .deadlock := rfl

end Guard

end Parley
