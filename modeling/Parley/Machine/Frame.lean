import Parley.Fault

/-!
Processes as stacks of frames. A frame says what a process does with the outcome it awaits.
-/

namespace Parley

/-- A bounded recursion, closed over its environment. -/
structure Recursion where
  zero : Expr
  counter : Atom
  acc : Atom
  step : Expr
  env : Env

namespace Recursion

/-- Where the zero case of a recursion up to `n` runs; below the top the counter is at zero. -/
def zeroEnv (r : Recursion) (n : Nat) : Env :=
  if n = 0 then r.env else Table.set r.env r.counter (.int 0)

/-- Where the step case runs at `i`; the counter is bound last. -/
def stepEnv (r : Recursion) (i : Nat) (acc : Value) : Env :=
  Table.setAll r.env [(r.acc, acc), (r.counter, .int i)]

end Recursion

/-- How a task given from outside ends, once it has taken its steps. -/
inductive Ending
  | result (v : Value)
  | fault (f : Fault)
  /-- Throws what is no fault. -/
  | thrown (x : Atom)
  | receive (q : QueueId)

/-- What a process does with an outcome. Frames other than `report`, `settle` and
`strand` hand a fault on as it is. -/
inductive Frame
  /-- Hands the outcome on. -/
  | pass
  /-- A step was counted; now evaluate. -/
  | eval (e : Expr) (env : Env)
  /-- A traced evaluation is over. -/
  | leave (caption : String)
  | leftOperand (op : ArithOp) (right : Expr) (env : Env)
  | rightOperand (op : ArithOp) (left : Int)
  | letBody (name : Atom) (body : Expr) (env : Env)
  | letPairBody (first second : Atom) (body : Expr) (env : Env)
  | pairSecond (name : Atom) (second : Expr) (env : Env)
  | pairUp (first : Value)
  | takeFirst
  | takeSecond
  /-- The argument is there; now the function. -/
  | callee (fn : Expr) (env : Env)
  | call (arg : Value)
  | branch (branches : List (Atom × Expr)) (rest : Option Misuse) (env : Env)
  | makeSender
  | receive
  | received (on : Endpoint)
  | recursionIndex (r : Recursion)
  /-- The next round of a recursion up to `n` is the one at `i`. -/
  | recursionRound (r : Recursion) (i n : Nat)
  /-- So many steps of a task given from outside are still to be counted. -/
  | steps (n : Nat) (ending : Ending)
  /-- Receives from a queue. -/
  | take (q : QueueId)
  /-- What was thrown has no text, and the task below cannot be settled with it. -/
  | strand
  /-- The bottom of a task. -/
  | settle (task : Atom) (serial : Nat)
  /-- The bottom of a process started from outside. -/
  | report (tag : Nat)

/-- A process that awaits an outcome. -/
abbrev Stack := List Frame

end Parley
