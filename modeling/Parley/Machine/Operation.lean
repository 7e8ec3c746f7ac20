import Parley.Machine.Step

/-!
What can be asked of a machine from outside, short of running a program: allocating and using
queues, starting and awaiting tasks, counting steps. A request that takes time reports its
outcome under a tag.
-/

namespace Parley

/-- What the function of a task gives back. -/
inductive Work
  /-- Takes steps and ends. -/
  | steps (n : Nat) (ending : Ending)
  /-- The function fails, and there is nothing to wait for. -/
  | stillborn (f : Fault)

/-- A request. -/
inductive Operation
  | newQueue
  | newChannel
  | send (q : QueueId) (v : Value)
  | recv (q : QueueId) (tag : Nat)
  | tryRecv (q : QueueId)
  | nextName
  | isComplete (task : Atom)
  /-- Enters a task and calls its function, which may make requests of its own. -/
  | spawn (task : Atom)
  /-- The function that was called last is done. -/
  | giveBack (w : Work)
  | await (task : Atom) (tag : Nat)
  | countSteps (n : Nat) (tag : Nat)

/-- What a request gives back at once. -/
inductive Reply
  | nothing
  | queue (q : QueueId)
  | channel (e : Endpoint)
  | value (v : Option Value)
  | name (s : String)
  | truth (b : Bool)
  | fault (f : Fault)

namespace Machine

/-- The function that was called last gives back what its task has to do. -/
def giveBack (m : Machine) (w : Work) : Machine × Reply :=
  match m.tasks.calls, w with
  | [], _ => (m, .nothing)
  | (task, serial) :: _, .steps n ending =>
    (({ m with tasks := m.tasks.engage task serial }).advance n ending [.settle task serial],
      .nothing)
  | _ :: calls, .stillborn f => ({ m with tasks := { m.tasks with calls } }, .fault f)

/-- No task runs under a name. -/
def isComplete (m : Machine) (task : Atom) : Bool :=
  (Table.find? m.tasks.running task).isNone

def operate (m : Machine) : Operation → Machine × Reply
  | .newQueue => let (q, m) := m.newQueue; (m, .queue q)
  | .newChannel => let (e, m) := m.newChannel; (m, .channel e)
  | .send q v => (m.send q v, .nothing)
  | .recv q tag => (m.recv q [.report tag], .nothing)
  | .tryRecv q => let (m, v) := m.tryRecv q; (m, .value v)
  | .nextName => let (s, m) := m.nextName; (m, .name s)
  | .isComplete task => (m, .truth (m.isComplete task))
  | .spawn task => ({ m with tasks := m.tasks.call task }, .nothing)
  | .giveBack w => m.giveBack w
  | .await task tag => (m.await task [.report tag], .nothing)
  | .countSteps n tag => (m.advance n (.result .unit) [.report tag], .nothing)

end Machine

end Parley
