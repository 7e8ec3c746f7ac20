/-!
Queues between processes: sending never blocks, values leave in the order they came, and
receivers that wait are served in the order they started to wait.
-/

namespace Parley

/-- A queue of values `α` on which receivers `ρ` may wait. -/
structure Queue (α ρ : Type) where
  buffer : List α := []
  waiting : List ρ := []

namespace Queue

variable {α ρ : Type}

/-- Sends a value: to the oldest waiting receiver, which is given back, or into the buffer. -/
def send (q : Queue α ρ) (a : α) : Queue α ρ × Option ρ :=
  match q.waiting with
  | r :: rest => ({ q with waiting := rest }, some r)
  | [] => ({ q with buffer := q.buffer ++ [a] }, none)

/-- Takes the oldest value of the buffer. -/
def tryRecv (q : Queue α ρ) : Queue α ρ × Option α :=
  match q.buffer with
  | a :: rest => ({ q with buffer := rest }, some a)
  | [] => (q, none)

/-- Receives: the oldest value of the buffer, or else the receiver waits. -/
def recv (q : Queue α ρ) (r : ρ) : Queue α ρ × Option α :=
  match q.tryRecv with
  | (q, some a) => (q, some a)
  | (q, none) => ({ q with waiting := q.waiting ++ [r] }, none)

/-- Nobody waits while there is something to take. -/
def Settled (q : Queue α ρ) : Prop := q.buffer = [] ∨ q.waiting = []

theorem settled_empty : Settled ({} : Queue α ρ) := .inl rfl

theorem Settled.send {q : Queue α ρ} (h : q.Settled) (a : α) : (q.send a).1.Settled := by
  obtain ⟨buffer, waiting⟩ := q
  cases waiting with
  | nil => exact .inr rfl
  | cons r rest => exact .inl (h.resolve_right (by simp))

theorem Settled.recv {q : Queue α ρ} (h : q.Settled) (r : ρ) : (q.recv r).1.Settled := by
  obtain ⟨buffer, waiting⟩ := q
  cases buffer with
  | nil => exact .inl rfl
  | cons a rest => exact .inr (h.resolve_left (by simp))

end Queue

end Parley
