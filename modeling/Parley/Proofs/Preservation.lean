import Parley.Proofs.Conduct
import Mathlib.Logic.Function.Iterate

/-!
A machine that keeps to a discipline goes on keeping to it: whatever is in its jobs, behind
them, in its queues and in its books obeys the discipline after every step if it did so before.
-/

namespace Parley

namespace Machine

variable {D : Discipline} {m m' : Machine} {k : Stack}

/-- Everything in a machine obeys a discipline, and nobody waits for a task. -/
structure Obeys (D : Discipline) (m : Machine) : Prop where
  jobs : ∀ j ∈ m.jobs, Outcome.Obeys D m.allocated j.outcome ∧ Stack.Obeys D m.allocated j.stack
  parked : ∀ k ∈ m.parked, Stack.Obeys D m.allocated k
  buffers : ∀ e ∈ m.queues, ∀ v ∈ e.2.buffer, v.Obeys D m.allocated
  waiters : ∀ e ∈ m.queues, ∀ k ∈ e.2.waiting, Stack.Obeys D m.allocated k
  failures : ∀ t ∈ m.tasks.failures, t.2.Arises D
  log : ∀ t ∈ m.log, t.Obeys D m.allocated
  events : ∀ e ∈ m.events, Outcome.Obeys D m.allocated e.outcome
  awaiting : m.awaiting = []

namespace Obeys

lemma fresh (D : Discipline) (policy : Policy) : Obeys D { policy } := by
  constructor <;> simp

lemma buffer (h : m.Obeys D) (q : QueueId) : ∀ v ∈ (m.queue q).buffer, v.Obeys D m.allocated := by
  unfold queue
  cases hq : Table.find? m.queues q with
  | none => simp
  | some c => exact h.buffers _ (Table.mem_of_find? hq)

lemma waiting (h : m.Obeys D) (q : QueueId) :
    ∀ k ∈ (m.queue q).waiting, Stack.Obeys D m.allocated k := by
  unfold queue
  cases hq : Table.find? m.queues q with
  | none => simp
  | some c => exact h.waiters _ (Table.mem_of_find? hq)

lemma resume (h : m.Obeys D) {o : Outcome} (hk : Stack.Obeys D m.allocated k)
    (ho : Outcome.Obeys D m.allocated o) : (m.resume k o).Obeys D := by
  refine { h with jobs := fun j hj => ?_ }
  rcases List.mem_append.mp hj with hj | hj
  · exact h.jobs j hj
  · rw [List.mem_singleton.mp hj]; exact ⟨ho, hk⟩

lemma note (h : m.Obeys D) {t : Note} (ht : t.Obeys D m.allocated) : (m.note t).Obeys D := by
  refine { h with log := fun s hs => ?_ }
  rcases Array.mem_push.mp hs with hs | rfl
  · exact h.log s hs
  · exact ht

lemma trace (h : m.Obeys D) {t : Note} (ht : t.Obeys D m.allocated) : (m.trace t).Obeys D := by
  unfold Machine.trace
  split
  · exact h.note ht
  · exact h

lemma check (h : m.Obeys D) (hk : Stack.Obeys D m.allocated k) : (m.check k).Obeys D := by
  have hs : Obeys D { m with steps := m.steps + 1 } := { h with }
  simp only [Machine.check]
  split
  · exact hs.resume hk (.limit _)
  · split
    · refine { hs with parked := fun k' hm => ?_ }
      rcases List.mem_append.mp hm with hm | hm
      · exact h.parked k' hm
      · rw [List.mem_singleton.mp hm]; exact hk
    · exact hs.resume hk .unit

lemma setQueue (h : m.Obeys D) (q : QueueId) {c : Queue Value Stack}
    (hb : ∀ v ∈ c.buffer, v.Obeys D m.allocated)
    (hw : ∀ k ∈ c.waiting, Stack.Obeys D m.allocated k) : (m.setQueue q c).Obeys D := by
  refine { h with buffers := fun e he => ?_, waiters := fun e he => ?_ }
  · rcases Table.mem_set he with he | rfl
    · exact h.buffers e he
    · exact hb
  · rcases Table.mem_set he with he | rfl
    · exact h.waiters e he
    · exact hw

lemma send (h : m.Obeys D) (q : QueueId) {v : Value} (hv : v.Obeys D m.allocated) :
    (m.send q v).Obeys D := by
  have hb := h.buffer q
  have hw := h.waiting q
  cases hq : (m.queue q).waiting with
  | nil =>
    rw [send_of_nil v hq]
    refine h.setQueue q (fun w hm => ?_) (by simp)
    rcases List.mem_append.mp hm with hm | hm
    · exact hb w hm
    · rw [List.mem_singleton.mp hm]; exact hv
  | cons k rest =>
    rw [hq] at hw
    rw [send_of_cons v hq]
    have hs : (m.setQueue q ⟨(m.queue q).buffer, rest⟩).Obeys D :=
      h.setQueue q hb fun k' hm => hw k' (List.mem_cons_of_mem _ hm)
    exact hs.resume (hw k (List.mem_cons_self ..)) hv

lemma recv (h : m.Obeys D) (q : QueueId) (hk : Stack.Obeys D m.allocated k) :
    (m.recv q k).Obeys D := by
  have hb := h.buffer q
  have hw := h.waiting q
  cases hq : (m.queue q).buffer with
  | nil =>
    rw [recv_of_nil k hq]
    refine h.setQueue q (by simp) fun k' hm => ?_
    rcases List.mem_append.mp hm with hm | hm
    · exact hw k' hm
    · rw [List.mem_singleton.mp hm]; exact hk
  | cons v rest =>
    rw [hq] at hb
    rw [recv_of_cons k hq]
    have hs : (m.setQueue q ⟨rest, (m.queue q).waiting⟩).Obeys D :=
      h.setQueue q (fun w hm => hb w (List.mem_cons_of_mem _ hm)) hw
    exact hs.resume hk (hb v (List.mem_cons_self ..))

lemma fork (h : m.Obeys D) {e : Expr} {env : Env} (he : e.Every D.node)
    (henv : Env.Obeys D m.allocated env) : (m.fork e env).Obeys D := by
  have hs : Obeys D (m.nextName.2.register m.nextName.1).2 := { h with }
  refine hs.check fun f hf => ?_
  rcases List.mem_cons.mp hf with rfl | hf
  · exact .inl ⟨he, henv⟩
  · rw [List.mem_singleton.mp hf]; exact .inr trivial

lemma newChannel (hD : D.Lawful) (h : m.Obeys D) : m.newChannel.2.Obeys D where
  jobs j hj := ⟨(h.jobs j hj).1.grow hD, (h.jobs j hj).2.grow hD⟩
  parked k hk := (h.parked k hk).grow hD
  buffers e he v hv := (h.buffers e he v hv).grow hD
  waiters e he k hk := (h.waiters e he k hk).grow hD
  failures := h.failures
  log t ht := (h.log t ht).grow hD
  events e he := (h.events e he).grow hD
  awaiting := h.awaiting

lemma report (h : m.Obeys D) (tag : Nat) {o : Outcome} (ho : Outcome.Obeys D m.allocated o) :
    (m.report tag o).Obeys D := by
  refine { h with events := fun e he => ?_ }
  rcases Array.mem_push.mp he with he | rfl
  · exact h.events e he
  · exact ho

lemma settle (h : m.Obeys D) (task : Atom) (serial : Nat) {o : Outcome}
    (ho : Outcome.Obeys D m.allocated o) : (m.settle task serial o).Obeys D := by
  have hf : ∀ t ∈ (m.tasks.settle m.policy task o).failures, t.2.Arises D := by
    intro t ht
    cases o with
    | ok v => exact h.failures t ht
    | error f =>
      have hset : t ∈ Table.set m.tasks.failures task f → t.2.Arises D := by
        intro hm
        rcases Table.mem_set hm with hm | rfl
        · exact h.failures t hm
        · exact ho
      simp only [Tasks.settle] at ht
      -- nothing is kept, or the oldest fault may have to go
      split at ht
      · exact h.failures t ht
      · split at ht
        · exact hset (List.mem_of_mem_drop ht)
        · exact hset ht
  have hs : Obeys D { m with tasks := m.tasks.settle m.policy task o } :=
    { h with failures := hf }
  rw [settle_of_nobody h.awaiting]
  cases o with
  | ok v =>
    simp only
    split
    · exact hs.trace (t := .finished task v) ho
    · exact hs
  | error f => exact hs.note (t := .failed task f) ho

end Obeys

/-- What a process does keeps a machine to a discipline. -/
lemma Acts.obeys (hD : D.Lawful) (h : Acts D k m m') (hm : m.Obeys D)
    (hk : Stack.Obeys D m.allocated k) : m'.Obeys D := by
  induction h with
  | resume fs hf ho => exact hm.resume (.append hf hk) ho
  | check fs hf => exact hm.check (.append hf hk)
  | recv he =>
    refine hm.recv _ fun f hf => ?_
    rcases List.mem_cons.mp hf with rfl | hf
    · exact .inl he
    · exact hk f hf
  | note ht _ ih => exact ih (hm.note ht) hk
  | send hv _ _ ih => exact ih (hm.send _ hv) (by simpa using hk)
  | fork he henv _ ih => exact ih (hm.fork he henv) (by simpa using hk)
  | channel _ ih => exact ih (hm.newChannel hD) (hk.grow hD)

/-- Faults raised by the frame on top, or handed on by it. -/
lemma Obeys.refuse (h : m.Obeys D) {f : Frame} {fault : Fault}
    (hf : f.Obeys D m.allocated ∨ f.IsBottom) (hfault : fault.Arises D)
    (hk : Stack.Obeys D m.allocated k) : (m.refuse f fault k).Obeys D := by
  rcases hf with hf | hf
  · rw [refuse_eq hf]
    exact h.resume hk hfault
  · cases f with
    | settle task serial => exact h.settle task serial (o := .error fault) hfault
    | report tag => exact h.report tag (o := .error fault) hfault
    | _ => exact hf.elim

lemma Obeys.accept (hD : D.Lawful) (h : m.Obeys D) {f : Frame} {v : Value}
    (hf : f.Obeys D m.allocated ∨ f.IsBottom) (hv : v.Obeys D m.allocated)
    (hk : Stack.Obeys D m.allocated k) : (m.accept f v k).Obeys D := by
  rcases hf with hf | hf
  · exact (accept_acts hD hf hv).obeys hD h hk
  · cases f with
    | settle task serial => exact h.settle task serial (o := .ok v) hv
    | report tag => exact h.report tag (o := .ok v) hv
    | _ => exact hf.elim

/-- **A step keeps a machine to a discipline.** -/
theorem Obeys.step (hD : D.Lawful) (h : m.Obeys D) : m.step.Obeys D := by
  unfold Machine.step
  cases hj : m.jobs with
  | cons j rest =>
    have hm : Obeys D { m with jobs := rest } :=
      { h with jobs := fun i hi => h.jobs i (hj ▸ List.mem_cons_of_mem _ hi) }
    obtain ⟨ho, hs⟩ := h.jobs j (hj ▸ List.mem_cons_self ..)
    obtain ⟨o, stack⟩ := j
    cases stack with
    | nil => exact hm
    | cons f k =>
      have hf := hs f (List.mem_cons_self ..)
      have hk : Stack.Obeys D m.allocated k := fun g hg => hs g (List.mem_cons_of_mem _ hg)
      cases o with
      | ok v => exact hm.accept hD hf ho hk
      | error fault => exact hm.refuse hf ho hk
  | nil =>
    cases hp : m.parked with
    | nil => simpa [hj, hp] using h
    | cons k rest =>
      refine { h with jobs := fun i hi => ?_, parked := fun l hl => ?_ }
      · rw [List.mem_singleton.mp hi]
        exact ⟨.unit, h.parked k (hp ▸ List.mem_cons_self ..)⟩
      · exact h.parked l (hp ▸ List.mem_cons_of_mem _ hl)

lemma Obeys.iterate (hD : D.Lawful) (h : m.Obeys D) (n : Nat) : (Machine.step^[n] m).Obeys D := by
  induction n generalizing m with
  | zero => exact h
  | succ n ih => exact ih (h.step hD)

/-- A machine that comes to rest is drained to where it rests. -/
lemma drain_iterate {n : Nat} (h : (Machine.step^[n] m).quiet = true) :
    m.drain (n + 1) = some (Machine.step^[n] m) := by
  induction n generalizing m with
  | zero =>
    have hq : m.quiet = true := h
    simp [drain, runUntil, hq]
  | succ n ih =>
    rw [Function.iterate_succ_apply] at h ⊢
    cases hq : m.quiet with
    | true =>
      have hfix := step_of_quiet hq
      rw [hfix, Function.iterate_fixed hfix n]
      simp [drain, runUntil, hq]
    | false =>
      have hrun : m.drain (n + 2) = m.step.drain (n + 1) := by
        simp [drain, runUntil, hq]
      rw [hrun, ih h]

lemma iterate_of_quiet (h : m.quiet = true) (n : Nat) : Machine.step^[n] m = m :=
  Function.iterate_fixed (step_of_quiet h) n

lemma exists_iterate_of_drain {fuel : Nat} {r : Machine} (h : m.drain fuel = some r) :
    ∃ n, r = Machine.step^[n] m := by
  unfold drain at h
  induction fuel generalizing m with
  | zero => cases h
  | succ fuel ih =>
    rw [runUntil] at h
    split at h
    · cases h
      exact ⟨0, rfl⟩
    · obtain ⟨n, hn⟩ := ih h
      exact ⟨n + 1, hn⟩

/-! ### Programs -/

end Machine

/-- What a name stands for in a program has been declared under that name. -/
lemma Program.mem_globals {p : Program} {b : Atom × Value} (h : b ∈ p.globals) :
    ∃ g, .global g ∈ p.declarations ∧ b = (g.name, .global g) := by
  rcases Table.mem_of_mem_setAll h with h | h
  · exact absurd h List.not_mem_nil
  · obtain ⟨d, hd, hb⟩ := List.mem_filterMap.mp h
    cases d with
    | global g => exact ⟨g, hd, by simpa using hb.symm⟩
    | type name => simp at hb

lemma Program.globals_obeys {p : Program} {D : Discipline} {n : Nat}
    (h : ∀ g, .global g ∈ p.declarations → D.global g.name g) : Env.Obeys D n p.globals := by
  refine ⟨fun b hb hv => ?_, fun b hb g hg => ?_⟩
  · obtain ⟨g, -, rfl⟩ := Program.mem_globals hb
    exact absurd rfl (hv g)
  · obtain ⟨g', hm, rfl⟩ := Program.mem_globals hb
    cases hg
    exact h g hm

lemma Program.main_obeys {p : Program} {D : Discipline} {n : Nat} {g : Global}
    (h : Env.Obeys D n p.globals) (hg : p.main? = some g) :
    D.global (.text Program.entry) g := by
  unfold Program.main? at hg
  split at hg
  · next g' hf =>
    cases hg
    rcases h.find hf with hv | ⟨g'', hv, hg''⟩
    · exact absurd rfl (hv.ne_global g)
    · cases hv; exact hg''
  · cases hg

/-- A program with a main declaration starts in order. -/
lemma Machine.Obeys.startProgram {D : Discipline} {m : Machine} {k : Stack} (hD : D.Lawful)
    (h : m.Obeys D) (hk : Stack.Obeys D m.allocated k) {p : Program} {g : Global}
    (hp : Env.Obeys D m.allocated p.globals) (hg : p.main? = some g) :
    (m.startProgram p k).Obeys D := by
  simp only [Machine.startProgram, hg]
  exact (Machine.Acts.enter (Global.call_obeys hD (Program.main_obeys hp hg) hp)).obeys hD h hk

end Parley
