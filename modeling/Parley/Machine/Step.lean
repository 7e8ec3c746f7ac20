import Parley.Machine.Basic

/-!
One job of the machine, and running until nothing is left to do.
-/

namespace Parley

/-- What an application or a reference comes to: a value at hand, a body to evaluate, or a fault
on the spot. -/
inductive Call
  | value (v : Value)
  | body (e : Expr) (env : Env)
  | fault (f : Fault)

/-- A global in the environment of the reference: without parameters its body, and otherwise a
function that takes them one by one. -/
def Global.call (g : Global) (env : Env) : Call :=
  match g.params with
  | .error m => .fault (.misuse m)
  | .ok [] => .body g.body env
  | .ok (p :: ps) => .value (.function p ps g.body env)

namespace Machine

/-- Applies a value to an argument; `none` if it is no closure. -/
def apply (m : Machine) (fn arg : Value) : Option (Call × Machine) :=
  match fn with
  | .function none _ _ _ => some (.fault (.misuse (.noMember .null "name")), m)
  | .function (some param) [] body env => some (.body body (Table.set env param arg), m)
  | .function (some param) (p :: ps) body env =>
    some (.value (.function p ps body (Table.set env param arg)), m)
  | .sender on =>
    if m.canTrace (.pair arg (.channel on)) then
      some (.value (.channel on), (m.trace (.sent arg on)).send on.write arg)
    else some (.fault (.misuse .noText), m)
  | .identity => some (.value arg, m)
  | _ => none

/-- Goes on with what was called, two jobs later if it is at hand. -/
def enter (m : Machine) (c : Call) (k : Stack) : Machine :=
  match c with
  | .value v => m.resume (.pass :: .pass :: k) (.ok v)
  | .body e env => m.eval e env (.pass :: k)
  | .fault f => m.resume k (.error f)

/-- Goes on with `k`, or with the fault. -/
def resumeWith {α : Type} (m : Machine) (k : Stack) (r : Except Fault α)
    (next : α → Machine) : Machine :=
  match r with
  | .ok a => next a
  | .error f => m.resume k (.error f)

/-! ### Evaluation -/

/-- The stack under the parts of an expression. -/
def inside (m : Machine) (e : Expr) (k : Stack) : Stack :=
  if m.policy.tracing then .leave e.caption :: k else .pass :: k

/-- An expression has its value without evaluating parts. -/
def done (m : Machine) (e : Expr) (v : Value) (k : Stack) : Machine :=
  if m.policy.tracing then m.resume (.leave e.caption :: k) (.ok v) else m.resume k (.ok v)

/-- An expression refers to a global. -/
def refer (m : Machine) (e : Expr) (c : Call) (k : Stack) : Machine :=
  match c with
  | .value v =>
    if m.policy.tracing then m.resume (.leave e.caption :: k) (.ok v)
    else m.resume (.pass :: .pass :: k) (.ok v)
  | .body b env => m.eval b env (m.inside e k)
  | .fault f => m.resume k (.error f)

/-- Starts the first part of an expression. -/
def evalParts (m : Machine) (e : Expr) (env : Env) (k : Stack) : Machine :=
  match e with
  | .unit => m.done e .unit k
  | .label name => m.done e (.label name) k
  | .int n | .nat n =>
    match n.toInt with
    | .ok i => m.done e (.int i) k
    | .error f => m.resume k (.error (.literal f))
  | .var name =>
    match Table.find? env name with
    | some (.global g) => m.refer e (g.call env) k
    | some v => m.done e v k
    | none => m.resume k (.error (Fault.unboundVariable name).worded)
  | .arith op left right => m.eval left env (.leftOperand op right env :: m.inside e k)
  | .negate a =>
    m.eval (.int (.number (.integer 0))) env (.leftOperand .minus a env :: m.inside e k)
  | .succ a =>
    m.eval (.int (.number (.integer 1))) env (.leftOperand .plus a env :: m.inside e k)
  | .letIn name value body => m.eval value env (.letBody name body env :: m.inside e k)
  | .letPair first second value body =>
    m.eval value env (.letPairBody first second body env :: m.inside e k)
  | .pair name first second => m.eval first env (.pairSecond name second env :: m.inside e k)
  | .fst a => m.eval a env (.takeFirst :: m.inside e k)
  | .snd a => m.eval a env (.takeSecond :: m.inside e k)
  | .lambda param body => m.done e (.function param [] body env) k
  | .app fn arg => m.eval arg env (.callee fn env :: m.inside e k)
  | .fork a => (m.fork a env).done e .unit k
  | .channel =>
    let (c, m) := m.newChannel
    m.done e (.pair (.channel c) (.channel c.partner)) k
  | .send a => m.eval a env (.makeSender :: m.inside e k)
  | .recv a => m.eval a env (.receive :: m.inside e k)
  | .caseOf scrutinee branches rest =>
    m.eval scrutinee env (.branch branches rest env :: m.inside e k)
  | .natRec index zero counter acc step =>
    m.eval index env (.recursionIndex ⟨zero, counter, acc, step, env⟩ :: m.inside e k)
  | .unknown _ shown => m.resume k (.error (Fault.unexpected shown).worded)
  | .missing g => m.resume k (.error (.misuse (.noMember g "kind")))

/-- Evaluates an expression whose step has been counted. -/
def evalCounted (m : Machine) (e : Expr) (env : Env) (k : Stack) : Machine :=
  match e, e.caption? with
  | .missing _, _ => m.evalParts e env k
  | _, some caption => (m.trace (.enter caption)).evalParts e env k
  | _, none =>
    if m.policy.tracing then m.resume k (.error (.misuse .noText)) else m.evalParts e env k

/-- A task given from outside goes on. -/
def advance (m : Machine) (n : Nat) (ending : Ending) (k : Stack) : Machine :=
  match n with
  | n + 1 => m.check (.steps n ending :: k)
  | 0 =>
    match ending with
    | .result v => m.resume k (.ok v)
    | .fault f => m.resume k (.error f)
    | .thrown x => m.resume (if x.showable then k else .strand :: k) (.error (.ofThrown x))
    | .receive q => m.resume (.take q :: .pass :: k) (.ok .unit)

/-! ### Frames -/

/-- A frame is handed a value. -/
def accept (m : Machine) (f : Frame) (v : Value) (k : Stack) : Machine :=
  match f with
  | .pass => m.resume k (.ok v)
  | .eval e env => m.evalCounted e env k
  | .leave caption =>
    if m.canTrace v then (m.trace (.leave caption v)).resume k (.ok v)
    else m.resume k (.error (.misuse .noText))
  | .leftOperand op right env =>
    m.resumeWith k (v.asInt "arithmetic operand") fun a =>
      m.eval right env (.rightOperand op a :: k)
  | .rightOperand op a =>
    m.resumeWith k (v.asInt "arithmetic operand") fun b =>
      m.resumeWith k (op.apply a b) fun c => m.resume k (.ok (.int c))
  | .letBody name body env => m.eval body (Table.set env name v) (.pass :: k)
  | .letPairBody first second body env =>
    m.resumeWith k (v.asPair "letPair") fun (a, b) =>
      -- the first component is bound last and wins if the names coincide
      m.eval body (Table.setAll env [(second, b), (first, a)]) (.pass :: k)
  | .pairSecond name second env => m.eval second (Table.set env name v) (.pairUp v :: k)
  | .pairUp first => m.resume k (.ok (.pair first v))
  | .takeFirst => m.resumeWith k (v.asPair "fst") fun p => m.resume k (.ok p.1)
  | .takeSecond => m.resumeWith k (v.asPair "snd") fun p => m.resume k (.ok p.2)
  | .callee fn env => m.eval fn env (.call v :: k)
  | .call arg =>
    match m.apply v arg with
    | some (c, m) => m.enter c k
    | none => m.resume k (.error (v.mismatch .closure "application"))
  | .branch branches rest env =>
    m.resumeWith k (v.asLabel "case") fun name =>
      match Table.find? branches name, rest with
      | some body, _ => m.eval body env (.pass :: k)
      | none, some misuse => m.resume k (.error (.misuse misuse))
      | none, none =>
        m.resume k (.error (Fault.noMatchingCase name (branches.map (·.1))).worded)
  | .makeSender => m.resumeWith k (v.asChannel "send") fun e => m.resume k (.ok (.sender e))
  | .receive => m.resumeWith k (v.asChannel "recv") fun e => m.recv e.read (.received e :: k)
  | .received on =>
    if m.canTrace (.pair v (.channel on)) then
      (m.trace (.received v on)).resume k (.ok (.pair v (.channel on)))
    else m.resume k (.error (.misuse .noText))
  | .recursionIndex r =>
    m.resumeWith k (v.asInt "natRec index") fun n =>
      if n < 0 then m.resume k (.error (.negativeRecursionIndex n))
      else m.eval r.zero (r.zeroEnv n.toNat) (.recursionRound r 1 n.toNat :: k)
  | .recursionRound r i n =>
    if i ≤ n then m.eval r.step (r.stepEnv i v) (.recursionRound r (i + 1) n :: k)
    else m.resume k (.ok v)
  | .steps n ending => m.advance n ending k
  | .take q => m.recv q k
  | .strand => m.resume k (.ok v)
  | .settle task serial => m.settle task serial (.ok v)
  | .report tag => m.report tag (.ok v)

/-- A frame is handed a fault. -/
def refuse (m : Machine) (f : Frame) (fault : Fault) (k : Stack) : Machine :=
  match f, k with
  | .settle task serial, _ => m.settle task serial (.error fault)
  | .report tag, _ => m.report tag (.error fault)
  | .strand, .settle task serial :: _ => m.strand task serial
  | _, _ => m.resume k (.error fault)

/-- Runs a job that has been taken off the list. -/
def perform (m : Machine) (j : Job) : Machine :=
  match j.stack, j.outcome with
  | [], _ => m
  | f :: k, .ok v => m.accept f v k
  | f :: k, .error fault => m.refuse f fault k

/-- Nothing is left to do. -/
def quiet (m : Machine) : Bool := m.jobs.isEmpty && m.parked.isEmpty

/-- One step: the oldest job, or else the process parked first. -/
def step (m : Machine) : Machine :=
  match m.jobs with
  | j :: rest => { m with jobs := rest }.perform j
  | [] =>
    match m.parked with
    | k :: rest => { m with parked := rest, jobs := [⟨.ok .unit, k⟩] }
    | [] => m

/-- Runs until `stop` holds or nothing is left to do; `none` if the fuel does not suffice. -/
def runUntil (stop : Machine → Bool) : Nat → Machine → Option Machine
  | 0, _ => none
  | fuel + 1, m => if stop m || m.quiet then some m else runUntil stop fuel m.step

/-- Runs until nothing is left to do. -/
def drain (fuel : Nat) (m : Machine) : Option Machine := runUntil (fun _ => false) fuel m

/-- More fuel keeps an answer. -/
theorem runUntil_of_le {stop : Machine → Bool} {fuel more : Nat} {m r : Machine}
    (h : runUntil stop fuel m = some r) (hle : fuel ≤ more) : runUntil stop more m = some r := by
  induction fuel generalizing m more with
  | zero => simp [runUntil] at h
  | succ fuel ih =>
    obtain ⟨more, rfl⟩ : ∃ k, more = k + 1 := ⟨more - 1, by omega⟩
    rw [runUntil] at h ⊢
    split at h
    · next hs => rw [if_pos hs]; exact h
    · next hs => rw [if_neg hs]; exact ih h (by omega)

/-- A drained machine has nothing left to do. -/
theorem quiet_of_drain {fuel : Nat} {m r : Machine} (h : m.drain fuel = some r) :
    r.quiet = true := by
  unfold drain at h
  induction fuel generalizing m with
  | zero => simp [runUntil] at h
  | succ fuel ih =>
    rw [runUntil] at h
    split at h
    · next hs => cases h; simpa using hs
    · exact ih h

end Machine

end Parley
