import Parley.Run
import Mathlib.Tactic.Lemma

/-!
The calculus read directly, for a program that runs as one process: evaluation by recursion,
call by value, with the queues threaded through. An argument is evaluated before the function,
a left operand before the right one, the first branch that matches is taken, and a global is
resolved afresh in the environment of every reference. There are no jobs here, no frames, no
pauses and no trace.
-/

namespace Parley.Direct

structure Store where
  /-- The values in every queue, the oldest first. -/
  contents : QueueId → List Value := fun _ => []
  /-- The queues allocated. -/
  allocated : Nat := 0
  /-- The expressions evaluated. -/
  evaluations : Nat := 0

inductive Result (α : Type)
  | value (a : α)
  | fault (f : Fault)
  /-- Nothing is there to be received. -/
  | blocked (on : Endpoint)

/-- A computation on the store; `none` if it was cut off. -/
def Comp (α : Type) : Type := Store → Option (Result α × Store)

instance : Monad Comp where
  pure a s := some (.value a, s)
  bind c f s :=
    match c s with
    | none => none
    | some (.value a, s) => f a s
    | some (.fault f, s) => some (.fault f, s)
    | some (.blocked on, s) => some (.blocked on, s)

section

variable {α β : Type} {c : Comp α} {g : α → Comp β} {s t : Store}

lemma bind_none (h : c s = none) : (c >>= g) s = none := by
  simp only [Bind.bind, h]

lemma bind_value {a : α} (h : c s = some (.value a, t)) : (c >>= g) s = g a t := by
  simp only [Bind.bind, h]

lemma bind_fault {f : Fault} (h : c s = some (.fault f, t)) :
    (c >>= g) s = some (.fault f, t) := by
  simp only [Bind.bind, h]

lemma bind_blocked {on : Endpoint} (h : c s = some (.blocked on, t)) :
    (c >>= g) s = some (.blocked on, t) := by
  simp only [Bind.bind, h]

lemma bind_pure (c : Comp α) (s : Store) : (c >>= pure) s = c s := by
  cases h : c s with
  | none => exact bind_none h
  | some p =>
    obtain ⟨r, t⟩ := p
    cases r with
    | value a => exact bind_value h
    | fault f => exact bind_fault h
    | blocked on => exact bind_blocked h

end

def Comp.fault {α : Type} (f : Fault) : Comp α := fun s => some (.fault f, s)

def Comp.ofExcept {α : Type} : Except Fault α → Comp α
  | .ok a => pure a
  | .error f => .fault f

def count : Comp Unit := fun s => some (.value (), { s with evaluations := s.evaluations + 1 })

def allocate : Comp Endpoint := fun s =>
  some (.value ⟨.allocated s.allocated, .allocated (s.allocated + 1)⟩,
    { s with allocated := s.allocated + 2 })

def Store.write (s : Store) (q : QueueId) (vs : List Value) : Store :=
  { s with contents := fun r => if r = q then vs else s.contents r }

lemma Store.write_self {s : Store} {q : QueueId} {vs : List Value} (h : s.contents q = vs) :
    s.write q vs = s := by
  have hsame : (fun r => if r = q then vs else s.contents r) = s.contents := by
    funext r
    by_cases hr : r = q
    · rw [if_pos hr, hr, h]
    · rw [if_neg hr]
  unfold Store.write
  rw [hsame]

def send (on : Endpoint) (v : Value) : Comp Unit := fun s =>
  some (.value (), s.write on.write (s.contents on.write ++ [v]))

/-- Receives the oldest value at one end of a channel. -/
def receive (on : Endpoint) : Comp Value := fun s =>
  match s.contents on.read with
  | v :: rest => some (.value v, s.write on.read rest)
  | [] => some (.blocked on, s)

/-- The quotient of the magnitudes, with the sign that the two numbers have together. -/
def quotient (a b : Int) : Int := a.sign * b.sign * (a.natAbs / b.natAbs : Nat)

/-- Arithmetic. A quotient drops its fraction, and there is none by zero. -/
def combine : ArithOp → Int → Int → Comp Value
  | .plus, a, b => pure (.int (a + b))
  | .minus, a, b => pure (.int (a - b))
  | .times, a, b => pure (.int (a * b))
  | .div, a, b => if b = 0 then .fault .divisionByZero else pure (.int (quotient a b))

lemma quotient_eq_tdiv (a b : Int) : quotient a b = a.tdiv b := by
  rw [← Int.sign_mul_natAbs (a.tdiv b), Int.sign_tdiv, Int.natAbs_tdiv]
  split
  · next hlt =>
    -- nothing but a fraction
    change _ * _ * ((a.natAbs / b.natAbs : Nat) : Int) = 0 * ((a.natAbs / b.natAbs : Nat) : Int)
    rw [Nat.div_eq_of_lt hlt, Int.natCast_zero, Int.mul_zero, Int.mul_zero]
  · rfl

lemma combine_eq_apply (op : ArithOp) (a b : Int) :
    combine op a b = Comp.ofExcept (op.apply a b) >>= fun c => pure (.int c) := by
  cases op with
  | plus | minus | times => rfl
  | div =>
    simp only [combine, ArithOp.apply, quotient_eq_tdiv]
    split <;> rfl

section

-- how expressions are evaluated
variable (ev : Expr → Env → Comp Value)

/-- A global: its body if it takes no parameters, and otherwise a function of them. -/
def resolve (g : Global) (env : Env) : Comp Value :=
  match g.params with
  | .error m => .fault (.misuse m)
  | .ok [] => ev g.body env
  | .ok (p :: ps) => pure (.function p ps g.body env)

def apply (fn arg : Value) : Comp Value :=
  match fn with
  | .function none _ _ _ => .fault (.misuse (.noMember .null "name"))
  | .function (some param) [] body env => ev body (Table.set env param arg)
  | .function (some param) (p :: ps) body env =>
    pure (.function p ps body (Table.set env param arg))
  | .sender on => do
    send on arg
    pure (.channel on)
  | .identity => pure arg
  | v => .fault (v.mismatch .closure "application")

def operate (op : ArithOp) (left right : Expr) (env : Env) : Comp Value := do
  let v ← ev left env
  let a ← .ofExcept (v.asInt "arithmetic operand")
  let w ← ev right env
  let b ← .ofExcept (w.asInt "arithmetic operand")
  combine op a b

/-- The rounds of a recursion that are left, from number `i` on. -/
def rounds (counter acc : Atom) (step : Expr) (env : Env) : Nat → Nat → Value → Comp Value
  | 0, _, v => pure v
  | left + 1, i, v => do
    let w ← ev step (Table.set (Table.set env acc v) counter (.int i))
    rounds counter acc step env left (i + 1) w

/-- One layer of evaluation. An expression that would start another process has no meaning
here. -/
def layer (e : Expr) (env : Env) : Comp Value :=
  match e with
  | .unit => pure .unit
  | .label name => pure (.label name)
  | .int n | .nat n =>
    match n.toInt with
    | .ok i => pure (.int i)
    | .error e => .fault (.literal e)
  | .var name =>
    match Table.find? env name with
    | some (.global g) => resolve ev g env
    | some v => pure v
    | none => .fault (Fault.unboundVariable name).worded
  | .arith op left right => operate ev op left right env
  | .negate a => operate ev .minus (.int (.number (.integer 0))) a env
  | .succ a => operate ev .plus (.int (.number (.integer 1))) a env
  | .letIn name value body => do
    let v ← ev value env
    ev body (Table.set env name v)
  | .letPair first second value body => do
    let v ← ev value env
    let p ← .ofExcept (v.asPair "letPair")
    ev body (Table.set (Table.set env second p.2) first p.1)
  | .pair name first second => do
    let v ← ev first env
    let w ← ev second (Table.set env name v)
    pure (.pair v w)
  | .fst a => do
    let v ← ev a env
    let p ← .ofExcept (v.asPair "fst")
    pure p.1
  | .snd a => do
    let v ← ev a env
    let p ← .ofExcept (v.asPair "snd")
    pure p.2
  | .lambda param body => pure (.function param [] body env)
  | .app fn arg => do
    let v ← ev arg env
    let f ← ev fn env
    apply ev f v
  | .channel => do
    let c ← allocate
    pure (.pair (.channel c) (.channel c.partner))
  | .send a => do
    let v ← ev a env
    let c ← .ofExcept (v.asChannel "send")
    pure (.sender c)
  | .recv a => do
    let v ← ev a env
    let c ← .ofExcept (v.asChannel "recv")
    let w ← receive c
    pure (.pair w (.channel c))
  | .caseOf scrutinee branches rest => do
    let v ← ev scrutinee env
    let name ← .ofExcept (v.asLabel "case")
    match Table.find? branches name, rest with
    | some body, _ => ev body env
    | none, some m => .fault (.misuse m)
    | none, none => .fault (Fault.noMatchingCase name (branches.map (·.1))).worded
  | .natRec index zero counter acc step => do
    let v ← ev index env
    let n ← .ofExcept (v.asInt "natRec index")
    if n < 0 then .fault (.negativeRecursionIndex n)
    else
      let w ← ev zero (if n = 0 then env else Table.set env counter (.int 0))
      rounds ev counter acc step env n.toNat 1 w
  | .unknown _ shown => .fault (Fault.unexpected shown).worded
  | .missing g => .fault (.misuse (.noMember g "kind"))
  | .fork _ => fun _ => none

end

def eval : Nat → Expr → Env → Comp Value
  | 0, _, _ => fun _ => none
  | n + 1, e, env => do
    count
    layer (eval n) e env

def run (fuel : Nat) (p : Program) : Option (Result Value × Store) :=
  match p.main? with
  | some g => resolve (eval fuel) g p.globals {}
  | none => Comp.fault .noMainDeclaration {}

/-- A program comes to a result and leaves this store behind. -/
def Derives (p : Program) (r : Result Value) (s : Store) : Prop := ∃ fuel, run fuel p = some (r, s)

end Parley.Direct
