import Parley.Proofs.Limit
import Parley.Proofs.Refinement

/-!
A process that is alone.

Where nobody waits on a queue, no task is started and no step is forbidden, one process has the
machine to itself. Then what it does depends on the queues, and on nothing else that the machine
has been through: not on how many steps were counted before, and so not on where the pauses fall,
and not on what has been noted. Two machines with the same queues are twins, and take the same
turns between their pauses.
-/

namespace Parley

lemma Frame.IsInner.not_isScripted {f : Frame} (h : f.IsInner) : ¬ f.IsScripted := by
  cases f with
  | steps | take | strand => exact h.elim
  | _ => exact id

/-- The stack of a process from outside, which does nothing but evaluate until it reports. -/
def Stack.Lone (k : Stack) : Prop :=
  ∃ fs, k = fs ++ [.report 0] ∧ ∀ f ∈ fs, ¬ f.IsBottom ∧ ¬ f.IsScripted

lemma Stack.Lone.cons {f : Frame} {k : Stack} (hb : ¬ f.IsBottom) (hs : ¬ f.IsScripted)
    (hk : k.Lone) : Stack.Lone (f :: k) := by
  obtain ⟨fs, rfl, hfs⟩ := hk
  exact ⟨f :: fs, rfl, List.forall_mem_cons.mpr ⟨⟨hb, hs⟩, hfs⟩⟩

lemma Stack.Lone.append {fs k : Stack} (hfs : ∀ f ∈ fs, f.IsInner) (hk : k.Lone) :
    Stack.Lone (fs ++ k) := by
  induction fs with
  | nil => exact hk
  | cons f fs ih =>
    obtain ⟨hf, hfs⟩ := List.forall_mem_cons.mp hfs
    exact .cons hf.not_isBottom hf.not_isScripted (ih hfs)

namespace Machine

variable {policy : Policy} {s s' : Nat} {b b' m m' : Machine} {k : Stack}

/-! ### Twins -/

/-- Machines at rest with the same queues, that have counted as many steps since they were at `s`
and at `s'`. -/
structure Twin (policy : Policy) (s s' : Nat) (b b' : Machine) : Prop where
  left : b.Resting policy
  right : b'.Resting policy
  queues : b'.queues = b.queues
  allocated : b'.allocated = b.allocated
  steps : ∃ n, b.steps = s + n ∧ b'.steps = s' + n

namespace Twin

lemma queue (h : Twin policy s s' b b') (q : QueueId) : b'.queue q = b.queue q := by
  simp only [Machine.queue, h.queues]

lemma trace (h : Twin policy s s' b b') (t : Note) :
    Twin policy s s' (b.trace t) (b'.trace t) where
  left := h.left.trace t
  right := h.right.trace t
  queues := by rw [(trace_same b' t).2.2, (trace_same b t).2.2, h.queues]
  allocated := by simpa using h.allocated
  steps := by simpa using h.steps

lemma setQueue (h : Twin policy s s' b b') (q : QueueId) (vs : List Value) :
    Twin policy s s' (b.setQueue q ⟨vs, []⟩) (b'.setQueue q ⟨vs, []⟩) :=
  { h with
    left := h.left.setQueue q vs
    right := h.right.setQueue q vs
    queues := by simp only [Machine.setQueue, h.queues] }

lemma send (h : Twin policy s s' b b') (q : QueueId) (v : Value) :
    Twin policy s s' (b.send q v) (b'.send q v) := by
  rw [send_of_nil v (h.left.waiting q), send_of_nil v (h.right.waiting q), h.queue]
  exact h.setQueue q _

lemma newChannel (h : Twin policy s s' b b') :
    Twin policy s s' b.newChannel.2 b'.newChannel.2 :=
  { h with
    left := { h.left with }
    right := { h.right with }
    allocated := by simp only [Machine.newChannel, Machine.newQueue, h.allocated] }

lemma count (h : Twin policy s s' b b') :
    Twin policy s s' { b with steps := b.steps + 1 } { b' with steps := b'.steps + 1 } :=
  { h with
    left := { h.left with }
    right := { h.right with }
    steps := by
      obtain ⟨n, hn, hn'⟩ := h.steps
      exact ⟨n + 1, by simp only; omega, by simp only; omega⟩ }

end Twin

/-! ### What twins do -/

/-- Machines that have come to rest with the same outcome and the same queues. -/
structure SameRest (s s' : Nat) (m m' : Machine) : Prop where
  quiet : m.quiet = true ∧ m'.quiet = true
  outcome : m'.outcome? 0 = m.outcome? 0
  queues : m'.queues = m.queues
  allocated : m'.allocated = m.allocated
  steps : ∃ n, m.steps = s + n ∧ m'.steps = s' + n

/-- Machines that come to hand the same outcome to the same frames, each at its own pace and as
twins; or else they are at rest. -/
def Together (policy : Policy) (s s' : Nat) (m m' : Machine) : Prop :=
  (∃ i i' b b' k o, Machine.step^[i] m = b.resume k o ∧ Machine.step^[i'] m' = b'.resume k o ∧
    Twin policy s s' b b' ∧ k.Lone) ∨ SameRest s s' m m'

lemma Twin.hand (h : Twin policy s s' b b') (hk : k.Lone) (o : Outcome) :
    Together policy s s' (b.resume k o) (b'.resume k o) :=
  .inl ⟨0, 0, b, b', k, o, rfl, rfl, h, hk⟩

lemma Twin.eval (h : Twin policy s s' b b') (hlimit : ∀ i, policy.forbids i = false)
    (hk : k.Lone) (e : Expr) (env : Env) :
    Together policy s s' (b.eval e env k) (b'.eval e env k) := by
  obtain ⟨i, hi⟩ := exists_iterate_eval hlimit h.left e env k
  obtain ⟨i', hi'⟩ := exists_iterate_eval hlimit h.right e env k
  exact .inl ⟨i, i', _, _, _, _, hi, hi', h.count, .cons id id hk⟩

lemma Twin.recv (h : Twin policy s s' b b') (hk : k.Lone) (on : Endpoint) :
    Together policy s s' (b.recv on.read (.received on :: k))
      (b'.recv on.read (.received on :: k)) := by
  cases hq : (b.queue on.read).buffer with
  | cons v rest =>
    rw [recv_of_cons _ hq, recv_of_cons _ (h.queue _ ▸ hq), h.left.waiting, h.right.waiting]
    exact (h.setQueue on.read rest).hand (.cons id id hk) (.ok v)
  | nil =>
    rw [recv_of_nil _ hq, recv_of_nil _ (h.queue _ ▸ hq), h.left.waiting, h.right.waiting]
    refine .inr ⟨⟨?_, ?_⟩, ?_, ?_, h.allocated, h.steps⟩
    · simp [quiet, Machine.setQueue, h.left.jobs, h.left.parked]
    · simp [quiet, Machine.setQueue, h.right.jobs, h.right.parked]
    · simp only [outcome?, Machine.setQueue, h.left.events, h.right.events]
    · simp only [Machine.setQueue, h.queues]

/-- Twins take the same turn, unless it starts a task. -/
lemma Twin.turn (h : Twin policy s s' b b') (hlimit : ∀ i, policy.forbids i = false)
    (hk : k.Lone) {f : Frame} {v : Value} {t : Turn} (ht : f.Takes policy.tracing v t)
    (hstarted : (t.apply k b).tasks.started = b.tasks.started) :
    Together policy s s' (t.apply k b) (t.apply k b') := by
  induction ht generalizing b b' with
  | hand o => exact h.hand hk o
  | leave => exact (h.trace _).hand hk _
  | received _ w => exact (h.trace _).hand hk _
  | push _ hp _ w => exact h.hand (hk.append fun g hg => (hp g hg).isInner) _
  | send _ _ w =>
    have hpass : ∀ g ∈ [Frame.pass, .pass], g.IsInner := by simp [Frame.IsInner]
    exact ((h.trace _).send _ _).hand (hk.append hpass) _
  | count _ hi _ => exact h.eval hlimit (hk.append hi) _ _
  | receive => exact h.recv hk _
  | @fork e a env _ fs =>
    have hmore : (b.fork e env).tasks.started = b.tasks.started + 1 :=
      congrArg Tasks.started (check_same ..).2.1
    exact absurd (hmore.symm.trans hstarted) (by omega)
  | channel _ hp _ w => exact h.newChannel.hand (hk.append fun g hg => (hp g hg).isInner) _
  | enter _ _ ih => exact ih (h.trace _) (hstarted.trans (started_trace ..).symm)

lemma Twin.step (h : Twin policy s s' b b') (hlimit : ∀ i, policy.forbids i = false)
    (hk : k.Lone) {o : Outcome}
    (hstarted : (b.resume k o).step.tasks.started = b.tasks.started) :
    Together policy s s' (b.resume k o).step (b'.resume k o).step := by
  obtain ⟨fs, rfl, hfs⟩ := hk
  rw [step_resume h.left] at hstarted ⊢
  rw [step_resume h.right]
  -- the bottom reports and both are at rest; any other frame takes the same turn
  cases fs with
  | nil =>
    have hreport : ∀ m : Machine, m.perform ⟨o, [.report 0]⟩ = m.report 0 o := by
      intro m
      cases o <;> rfl
    rw [List.nil_append, hreport, hreport]
    refine .inr ⟨⟨?_, ?_⟩, ?_, h.queues, h.allocated, h.steps⟩
    · simp [quiet, report, h.left.jobs, h.left.parked]
    · simp [quiet, report, h.right.jobs, h.right.parked]
    · simp [outcome?, report, h.left.events, h.right.events]
  | cons f fs =>
    obtain ⟨⟨hbottom, hscripted⟩, hfs⟩ := List.forall_mem_cons.mp hfs
    have hrest : Stack.Lone (fs ++ [.report 0]) := ⟨fs, rfl, hfs⟩
    cases o with
    | error e =>
      simp only [perform, List.cons_append, refuse_eq_resume hscripted hbottom]
      exact h.hand hrest _
    | ok v =>
      simp only [perform, List.cons_append, accept_eq_turn hscripted hbottom] at hstarted ⊢
      rw [h.right.policy, h.allocated]
      rw [h.left.policy] at hstarted ⊢
      exact h.turn hlimit hrest (f.takes ..) hstarted

lemma quiet_iterate {n : Nat} (h : (Machine.step^[n] m).quiet = true) (i : Nat) :
    (Machine.step^[n] (Machine.step^[i] m)).quiet = true := by
  rw [← Function.iterate_add_apply, Nat.add_comm, Function.iterate_add_apply, iterate_of_quiet h]
  exact h

/-- **Machines that are together come to rest together**, if the first starts no task. -/
theorem Together.rests (hlimit : ∀ i, policy.forbids i = false) (h : Together policy s s' m m')
    {started : Nat} (hstarted : ∀ i, (Machine.step^[i] m).tasks.started = started) {n : Nat}
    (hrest : (Machine.step^[n] m).quiet = true ∨ (Machine.step^[n] m').quiet = true) :
    ∃ i i', SameRest s s' (Machine.step^[i] m) (Machine.step^[i'] m') := by
  induction n generalizing m m' with
  | zero =>
    rcases h with ⟨i, i', b, b', k, o, hi, hi', -, -⟩ | h
    · -- a machine that is at rest does not come to hand anything on
      have hbusy : ∀ c : Machine, (c.resume k o).quiet ≠ true := fun c => by simp [quiet, resume]
      rcases hrest with hrest | hrest
      · exact absurd (hi ▸ quiet_iterate hrest i) (hbusy b)
      · exact absurd (hi' ▸ quiet_iterate hrest i') (hbusy b')
    · exact ⟨0, 0, h⟩
  | succ n ih =>
    rcases h with ⟨i, i', b, b', k, o, hi, hi', htwin, hk⟩ | h
    · have hlater : ∀ j, Machine.step^[j] (b.resume k o).step = Machine.step^[j + 1 + i] m := by
        intro j
        rw [← hi, ← Function.iterate_succ_apply, ← Function.iterate_add_apply]
      have hlater' : ∀ j, Machine.step^[j] (b'.resume k o).step = Machine.step^[j + 1 + i'] m' := by
        intro j
        rw [← hi', ← Function.iterate_succ_apply, ← Function.iterate_add_apply]
      have hnow : b.tasks.started = started := by
        have := hstarted i
        rwa [hi] at this
      have hnext : (b.resume k o).step.tasks.started = started := by
        have := hstarted (0 + 1 + i)
        rwa [← hlater] at this
      have htogether := htwin.step hlimit hk (hnext.trans hnow.symm)
      have hquiet := hrest.imp (quiet_iterate · i) (quiet_iterate · i')
      rw [hi, hi', Function.iterate_succ_apply, Function.iterate_succ_apply] at hquiet
      obtain ⟨j, j', hj⟩ := ih htogether (fun j => hlater j ▸ hstarted _) hquiet
      rw [hlater, hlater'] at hj
      exact ⟨_, _, hj⟩
    · exact ⟨0, 0, h⟩

end Machine

end Parley
