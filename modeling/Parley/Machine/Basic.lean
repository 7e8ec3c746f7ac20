import Parley.Log
import Parley.Machine.Frame
import Parley.Machine.Tasks
import Parley.Queue

/-!
The machine that runs processes. A process is always in one place: in the list of jobs, parked
behind them, or waiting on a queue or a task; there it is a stack of frames that awaits an
outcome. A job hands an outcome to the top frame of a stack. Jobs run in the order they came,
and every frame that is left costs one job, so the order in which processes take turns is part
of what is defined here.
-/

namespace Parley

/-- An outcome on its way to a process. -/
structure Job where
  outcome : Outcome
  stack : Stack

/-- The outcome of a process started from outside, with the counts at that moment. -/
structure Event where
  tag : Nat
  outcome : Outcome
  steps : Nat
  active : Nat
  settled : Nat
  /-- Notes taken so far. -/
  logged : Nat

/-- The state of a run. -/
structure Machine where
  policy : Policy := {}
  jobs : List Job := []
  /-- Processes that let others go first. -/
  parked : List Stack := []
  steps : Nat := 0
  queues : Table QueueId (Queue Value Stack) := []
  allocated : Nat := 0
  tasks : Tasks := {}
  /-- Processes that wait for a task, by its serial number. -/
  awaiting : List (Nat × Stack) := []
  log : Array Note := #[]
  events : Array Event := #[]

namespace Machine

/-- Puts an outcome on its way. -/
def resume (m : Machine) (k : Stack) (o : Outcome) : Machine :=
  { m with jobs := m.jobs ++ [⟨o, k⟩] }

/-- Takes a note. -/
def note (m : Machine) (n : Note) : Machine := { m with log := m.log.push n }

/-- Takes a note if the run is traced. -/
def trace (m : Machine) (n : Note) : Machine := if m.policy.tracing then m.note n else m

/-- A value can go into a note, unless no note would be taken. -/
def canTrace (m : Machine) (v : Value) : Bool := !m.policy.tracing || v.showable

/-- Counts a step and then goes on with `k`: with a fault beyond the last step allowed, behind
everything else at a pause, and in the next job otherwise. -/
def check (m : Machine) (k : Stack) : Machine :=
  let m := { m with steps := m.steps + 1 }
  if m.policy.forbids m.steps then
    m.resume k (.error (.stepLimitExceeded (.number m.policy.maxSteps)))
  else if m.policy.pauses m.steps then { m with parked := m.parked ++ [k] }
  else m.resume k (.ok .unit)

/-- Starts the evaluation of an expression. -/
def eval (m : Machine) (e : Expr) (env : Env) (k : Stack) : Machine :=
  m.check (.eval e env :: k)

/-! ### Queues -/

/-- The contents of a queue; one that was never used is empty. -/
def queue (m : Machine) (q : QueueId) : Queue Value Stack := (Table.find? m.queues q).getD {}

def setQueue (m : Machine) (q : QueueId) (c : Queue Value Stack) : Machine :=
  { m with queues := Table.set m.queues q c }

theorem queue_setQueue_self (m : Machine) (q : QueueId) (c : Queue Value Stack) :
    (m.setQueue q c).queue q = c := by
  simp [queue, setQueue, Table.find?_set_self]

theorem queue_setQueue_of_ne (m : Machine) {q r : QueueId} (c : Queue Value Stack) (h : r ≠ q) :
    (m.setQueue q c).queue r = m.queue r := by
  simp [queue, setQueue, Table.find?_set_of_ne _ _ h]

/-- Allocates a queue. -/
def newQueue (m : Machine) : QueueId × Machine :=
  (.allocated m.allocated, { m with allocated := m.allocated + 1 })

/-- Allocates the two queues of a channel and gives one of its ends. -/
def newChannel (m : Machine) : Endpoint × Machine :=
  let (r, m) := m.newQueue
  let (w, m) := m.newQueue
  (⟨r, w⟩, m)

/-- Sends a value; a receiver that waits for it goes on. -/
def send (m : Machine) (q : QueueId) (v : Value) : Machine :=
  match (m.queue q).send v with
  | (c, some k) => (m.setQueue q c).resume k (.ok v)
  | (c, none) => m.setQueue q c

/-- Receives a value for `k`, which waits if there is none. -/
def recv (m : Machine) (q : QueueId) (k : Stack) : Machine :=
  match (m.queue q).recv k with
  | (c, some v) => (m.setQueue q c).resume k (.ok v)
  | (c, none) => m.setQueue q c

/-- Receives without waiting. -/
def tryRecv (m : Machine) (q : QueueId) : Machine × Option Value :=
  match (m.queue q).tryRecv with
  | (c, v) => (m.setQueue q c, v)

/-! ### Tasks -/

/-- Registers a task whose function asks for nothing, and gives its serial number. -/
def register (m : Machine) (task : Atom) : Nat × Machine :=
  let t := m.tasks
  (t.started, { m with tasks := { t with
    running := Table.set t.running task (.live t.started), started := t.started + 1 } })

/-- Hands out a task name. -/
def nextName (m : Machine) : String × Machine :=
  (m.tasks.nextName, { m with tasks := { m.tasks with named := m.tasks.named + 1 } })

/-- Starts an expression as a process of its own. -/
def fork (m : Machine) (e : Expr) (env : Env) : Machine :=
  let (task, m) := m.nextName
  let (serial, m) := m.register task
  m.eval e env [.settle task serial]

/-- Hands an outcome to all who wait for a task. -/
def release (m : Machine) (serial : Nat) (o : Outcome) : Machine :=
  let ready := (m.awaiting.filter fun w => w.1 = serial).map fun w => (⟨o, w.2⟩ : Job)
  { m with
    jobs := m.jobs ++ ready
    awaiting := m.awaiting.filter fun w => w.1 ≠ serial }

/-- A task ends: the books are closed, the outcome is noted, and who waits for it goes on. -/
def settle (m : Machine) (task : Atom) (serial : Nat) (o : Outcome) : Machine :=
  let m := { m with tasks := m.tasks.settle m.policy task o }
  let (m, o) := match o with
    | .ok v =>
      if m.canTrace v then (m.trace (.finished task v), o) else (m, .error (.misuse .noText))
    | .error f => (m.note (.failed task f), o)
  m.release serial o

/-- A task ends with something that has no text. Nothing is put into the books, so that its name
stays entered, and who waits for it hears why. -/
def strand (m : Machine) (task : Atom) (serial : Nat) : Machine :=
  ({ m with tasks := m.tasks.amend task (.live serial) (.stranded serial) }).release serial
    (.error (.misuse .noText))

/-- Waits for a running task; of one that is not, the fault it is remembered by. -/
def await (m : Machine) (task : Atom) (k : Stack) : Machine :=
  match Table.find? m.tasks.running task with
  | some (.live serial) => { m with awaiting := m.awaiting ++ [(serial, .pass :: k)] }
  | some (.unready _) => m.resume (.pass :: k) (.error (Fault.noResult task).worded)
  | some (.stranded _) => m.resume (.pass :: k) (.error (.misuse .noText))
  | none =>
    match Table.find? m.tasks.failures task with
    | some f => m.resume k (.error f)
    | none => m.resume k (.error (Fault.notRunning task).worded)

/-- Keeps the outcome of a process started from outside. -/
def report (m : Machine) (tag : Nat) (o : Outcome) : Machine :=
  let event := ⟨tag, o, m.steps, m.tasks.running.length, m.tasks.settled, m.log.size⟩
  { m with events := m.events.push event }

/-- The outcome of the process started under a tag, if it has ended. -/
def outcome? (m : Machine) (tag : Nat) : Option Outcome :=
  (m.events.find? fun e => e.tag = tag).map (·.outcome)

end Machine

end Parley
