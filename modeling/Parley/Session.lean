import Parley.Run

/-!
Sessions: one machine that is asked, again and again, to evaluate, apply and wait, with results
bound to names in between.
-/

namespace Parley

/-- What a session can be asked. -/
inductive Request
  | evaluate (e : Expr)
  | resolve (g : Global)
  /-- Applies what is bound to a name; in place of the argument there may be a fault. -/
  | apply (name : Atom) (arg : Except Fault Value)
  | await (task : Atom)

/-- A request that was started: the round it belongs to, and the name for its result. -/
structure Started where
  round : Nat
  binding : Option Atom

/-- The state of a session. -/
structure Session where
  machine : Machine
  globals : Env
  env : Env
  /-- The requests started so far; the place of one is the tag it reports under. -/
  started : List Started := []

/-- The outcome of a request. -/
structure Answer where
  round : Nat
  outcome : Outcome

namespace Session

/-- The application of what is bound to a name. -/
def call (s : Session) (name : Atom) (arg : Except Fault Value) : Call × Machine :=
  let m := s.machine
  let uncallable := (Call.fault (.misuse (.notCallable "apply")), m)
  match Table.find? s.env name, arg with
  | none, _ => uncallable
  | some fn, .error f => if fn.kind = .closure then (.fault f, m) else uncallable
  | some fn, .ok v => (m.apply fn v).getD uncallable

/-- Starts a request. -/
def start (s : Session) (w : Started) (r : Request) : Session :=
  let tag := s.started.length
  let m := match r with
    | .evaluate e => s.machine.eval e s.env [.report tag]
    | .resolve g => s.machine.launch (g.call s.globals) tag
    | .await task => s.machine.await task [.report tag]
    | .apply name arg => let (c, m) := s.call name arg; m.launch c tag
  { s with machine := m, started := s.started ++ [w] }

/-- Binds the result of a request that asked for it. -/
def bind (s : Session) (e : Event) : Session :=
  match (s.started[e.tag]?).bind (·.binding), e.outcome with
  | some name, .ok v => { s with env := Table.set s.env name v }
  | _, _ => s

def answer (s : Session) (e : Event) : Answer :=
  ⟨((s.started[e.tag]?).map (·.round)).getD 0, e.outcome⟩

/-- Starts the requests of a round, runs until nothing is left to do, and gives the answers that
came in. -/
def round (fuel : Nat) (s : Session) (rs : List (Started × Request)) :
    Option (Session × List Answer) :=
  let seen := s.machine.events.size
  let s := rs.foldl (fun s r => s.start r.1 r.2) s
  (s.machine.drain fuel).map fun m =>
    let fresh := m.events.toList.drop seen
    (fresh.foldl bind { s with machine := m }, fresh.map s.answer)

end Session

end Parley
