import Mathlib
import Parley.Proofs.Preservation

/-!
Where processes are. A process that has not ended is in one place: in a job, parked, or waiting
on a queue. The books of a run are compared with its places: the main process until it has
reported, and the tasks that are running. When nothing is left to do only the queues are left
as places, so a process that has not ended waits on a queue, and then that queue is empty.
-/

namespace Parley

/-! ### Stacks -/

namespace Stack

def bottom (k : Stack) : Frame := k.getLast?.getD .pass

/-- The last frame of a stack is the only one that ends a process. -/
def Grounded (k : Stack) : Prop :=
  ∃ fs b, k = fs ++ [b] ∧ b.IsBottom ∧ ∀ f ∈ fs, ¬ f.IsBottom

lemma bottom_concat (fs : Stack) (b : Frame) : bottom (fs ++ [b]) = b := by simp [bottom]

lemma Grounded.append {fs k : Stack} (hf : ∀ f ∈ fs, ¬ f.IsBottom) (hk : k.Grounded) :
    Grounded (fs ++ k) ∧ bottom (fs ++ k) = bottom k := by
  obtain ⟨gs, b, rfl, hb, hg⟩ := hk
  rw [← List.append_assoc, bottom_concat, bottom_concat]
  refine ⟨⟨fs ++ gs, b, rfl, hb, fun f hm => ?_⟩, rfl⟩
  rcases List.mem_append.mp hm with hm | hm
  · exact hf f hm
  · exact hg f hm

/-- The top of a stack ends the process, or it is followed by more. -/
lemma Grounded.cases {f : Frame} {k : Stack} (h : Grounded (f :: k)) :
    f.IsBottom ∧ k = [] ∨ ¬ f.IsBottom ∧ k.Grounded ∧ bottom (f :: k) = bottom k := by
  obtain ⟨fs, b, hk, hb, hf⟩ := h
  cases fs with
  | nil =>
    obtain ⟨rfl, rfl⟩ := List.cons.inj hk
    exact .inl ⟨hb, rfl⟩
  | cons g fs =>
    rw [List.cons_append] at hk
    obtain ⟨rfl, rfl⟩ := List.cons.inj hk
    have hg : Grounded (fs ++ [b]) :=
      ⟨fs, b, rfl, hb, fun f hm => hf f (List.mem_cons_of_mem _ hm)⟩
    refine .inr ⟨hf f (List.mem_cons_self ..), hg, ?_⟩
    rw [← List.cons_append, bottom_concat, bottom_concat]

end Stack

lemma Frame.Obeys.not_isBottom {D : Discipline} {n : Nat} {f : Frame} (h : f.Obeys D n) :
    ¬ f.IsBottom := by
  cases f <;> simp_all [Frame.Obeys, Frame.IsBottom]

/-! ### Places and books -/

def Entry.bottom? : Atom × Entry → Option Frame
  | (task, .live serial) => some (.settle task serial)
  | (_, .unready _) | (_, .stranded _) => none

namespace Machine

def waiters (m : Machine) : Multiset Stack := m.queues.flatMap fun e => e.2.waiting

def places (m : Machine) : Multiset Stack := m.jobs.map (·.stack) + m.parked + m.waiters

/-- Who has not ended: the main process, unless it has reported, and the running tasks. -/
def pending (m : Machine) : Multiset Frame :=
  (if (m.outcome? 0).isNone then {.report 0} else 0) + m.tasks.running.filterMap Entry.bottom?

variable {m m' : Machine} {k : Stack}

lemma places_resume (m : Machine) (k : Stack) (o : Outcome) :
    (m.resume k o).places = {k} + m.places := by
  have hjobs : (↑((m.jobs ++ [Job.mk o k]).map (·.stack)) : Multiset Stack) =
      m.jobs.map (·.stack) + {k} := by
    rw [List.map_append, ← Multiset.coe_add]; rfl
  calc (m.resume k o).places
      = m.jobs.map (·.stack) + {k} + m.parked + m.waiters := by rw [← hjobs]; rfl
    _ = {k} + m.places := by unfold places; abel

lemma places_park (m : Machine) (k : Stack) :
    ({ m with parked := m.parked ++ [k] } : Machine).places = {k} + m.places := by
  have hparked : (↑(m.parked ++ [k]) : Multiset Stack) = m.parked + {k} := by
    rw [← Multiset.coe_add]; rfl
  calc ({ m with parked := m.parked ++ [k] } : Machine).places
      = m.jobs.map (·.stack) + (m.parked + {k}) + m.waiters := by rw [← hparked]; rfl
    _ = {k} + m.places := by unfold places; abel

lemma places_check (m : Machine) (k : Stack) : (m.check k).places = {k} + m.places := by
  simp only [check]
  split
  · exact places_resume ..
  · split
    · exact places_park ..
    · exact places_resume ..

lemma check_same (m : Machine) (k : Stack) : (m.check k).queues = m.queues ∧
    (m.check k).tasks = m.tasks ∧ (m.check k).events = m.events := by
  simp only [check]
  split
  · exact ⟨rfl, rfl, rfl⟩
  · split <;> exact ⟨rfl, rfl, rfl⟩

lemma waiters_setQueue (m : Machine) (q : QueueId) (c : Queue Value Stack) :
    (m.setQueue q c).waiters + (m.queue q).waiting = m.waiters + c.waiting := by
  unfold waiters queue setQueue
  induction m.queues with
  | nil => simp [Table.set, Table.find?]
  | cons e rest ih =>
    by_cases he : e.1 = q
    · simp only [Table.set, Table.find?, if_pos he, List.flatMap_cons, ← Multiset.coe_add,
        Option.getD_some]
      abel
    · simp only [Table.set, Table.find?, if_neg he, List.flatMap_cons, ← Multiset.coe_add] at ih ⊢
      rw [add_assoc, ih, add_assoc]

lemma places_send (m : Machine) (q : QueueId) (v : Value) : (m.send q v).places = m.places := by
  cases hq : (m.queue q).waiting with
  | nil =>
    rw [send_of_nil v hq]
    have hw := m.waiters_setQueue q ⟨(m.queue q).buffer ++ [v], []⟩
    rw [hq] at hw
    unfold places
    rw [add_right_cancel hw]
    rfl
  | cons k rest =>
    rw [send_of_cons v hq, places_resume]
    have hw := m.waiters_setQueue q ⟨(m.queue q).buffer, rest⟩
    rw [hq, ← Multiset.cons_coe, ← Multiset.singleton_add, ← add_assoc] at hw
    unfold places
    rw [← add_right_cancel hw]
    calc {k} + (m.jobs.map (·.stack) + m.parked + (m.setQueue q ⟨(m.queue q).buffer, rest⟩).waiters)
        = m.jobs.map (·.stack) + m.parked +
          ((m.setQueue q ⟨(m.queue q).buffer, rest⟩).waiters + {k}) := by abel

lemma places_recv (m : Machine) (q : QueueId) (k : Stack) :
    (m.recv q k).places = {k} + m.places := by
  cases hq : (m.queue q).buffer with
  | nil =>
    rw [recv_of_nil k hq]
    have hw := m.waiters_setQueue q ⟨[], (m.queue q).waiting ++ [k]⟩
    rw [← Multiset.coe_add, add_left_comm, add_comm] at hw
    calc (m.setQueue q ⟨[], (m.queue q).waiting ++ [k]⟩).places
        = m.jobs.map (·.stack) + m.parked + (m.waiters + {k}) :=
          congrArg (_ + ·) (add_left_cancel hw)
      _ = {k} + m.places := by unfold places; abel
  | cons v rest =>
    rw [recv_of_cons k hq, places_resume]
    have hw := m.waiters_setQueue q ⟨rest, (m.queue q).waiting⟩
    unfold places
    rw [add_right_cancel hw]
    rfl

lemma places_fork (m : Machine) (e : Expr) (env : Env) :
    (m.fork e env).places =
      {[.eval e env, .settle (.text m.tasks.nextName) m.tasks.started]} + m.places :=
  places_check ..

lemma pending_congr (ht : m'.tasks.running = m.tasks.running) (he : m'.events = m.events) :
    m'.pending = m.pending := by
  unfold pending outcome?
  rw [ht, he]

end Machine

/-! ### Tasks and queues in order -/

/-- The running tasks go by the names that were handed out, each by its own. -/
structure Tasks.InOrder (t : Tasks) : Prop where
  nodup : (t.running.map (·.1)).Nodup
  named : ∀ e ∈ t.running, ∃ i < t.named, e.1 = .text ("fork-" ++ toString i)
  live : ∀ e ∈ t.running, ∃ serial, e.2 = .live serial

lemma Tasks.InOrder.fresh {t : Tasks} (h : t.InOrder) :
    ∀ e ∈ t.running, e.1 ≠ .text t.nextName := by
  intro e he hn
  obtain ⟨i, hi, hname⟩ := h.named e he
  rw [hname] at hn
  have heq : "fork-" ++ toString i = "fork-" ++ toString t.named := Atom.text.inj hn
  have : i = t.named := Nat.repr_injective ((String.append_right_inj _).mp heq)
  omega

lemma Tasks.settle_same (t : Tasks) (p : Policy) (task : Atom) (o : Outcome) :
    (t.settle p task o).running = Table.erase t.running task ∧
      (t.settle p task o).named = t.named := by
  unfold Tasks.settle
  cases o with
  | ok v => exact ⟨rfl, rfl⟩
  | error f => simp only; split <;> exact ⟨rfl, rfl⟩

def Stack.Awaits (k : Stack) (q : QueueId) : Prop :=
  ∃ on rest, k = .received on :: rest ∧ on.read = q

/-- Every queue is there once, nobody waits on one that holds a value, and who waits has asked
for a value from that queue. -/
structure Queues.InOrder (qs : Table QueueId (Queue Value Stack)) : Prop where
  nodup : (qs.map (·.1)).Nodup
  settled : ∀ e ∈ qs, e.2.Settled
  awaits : ∀ e ∈ qs, ∀ k ∈ e.2.waiting, k.Awaits e.1

lemma Queues.InOrder.set {qs : Table QueueId (Queue Value Stack)} (h : Queues.InOrder qs)
    {q : QueueId} {c : Queue Value Stack} (hc : c.Settled) (hw : ∀ k ∈ c.waiting, k.Awaits q) :
    Queues.InOrder (Table.set qs q c) := by
  refine ⟨Table.nodup_set h.nodup q c, fun e he => ?_, fun e he => ?_⟩
  · rcases Table.mem_set he with he | rfl
    · exact h.settled e he
    · exact hc
  · rcases Table.mem_set he with he | rfl
    · exact h.awaits e he
    · exact hw

namespace Machine

variable {m m' : Machine} {k : Stack}

lemma queue_inOrder (h : Queues.InOrder m.queues) (q : QueueId) :
    (m.queue q).Settled ∧ ∀ k ∈ (m.queue q).waiting, k.Awaits q := by
  unfold queue
  cases hq : Table.find? m.queues q with
  | none => exact ⟨Queue.settled_empty, by simp⟩
  | some c =>
    have hm := Table.mem_of_find? hq
    exact ⟨h.settled _ hm, h.awaits _ hm⟩

lemma queues_send (m : Machine) (q : QueueId) (v : Value) :
    (m.send q v).queues = Table.set m.queues q ((m.queue q).send v).1 := by
  unfold send
  split <;> next h => rw [h]; rfl

lemma queues_recv (m : Machine) (q : QueueId) (k : Stack) :
    (m.recv q k).queues = Table.set m.queues q ((m.queue q).recv k).1 := by
  unfold recv
  split <;> next h => rw [h]; rfl

lemma send_inOrder (h : Queues.InOrder m.queues) (q : QueueId) (v : Value) :
    Queues.InOrder (m.send q v).queues := by
  obtain ⟨hs, hw⟩ := queue_inOrder h q
  rw [queues_send]
  refine h.set (hs.send v) fun k hk => hw k ?_
  revert hk
  unfold Queue.send
  split
  · next r rest hq => rw [hq]; exact List.mem_cons_of_mem _
  · exact id

lemma recv_inOrder (h : Queues.InOrder m.queues) {q : QueueId} (hk : k.Awaits q) :
    Queues.InOrder (m.recv q k).queues := by
  obtain ⟨hs, hw⟩ := queue_inOrder h q
  rw [queues_recv]
  refine h.set (hs.recv k) fun l hl => ?_
  cases hq : (m.queue q).buffer with
  | nil =>
    have hl : l ∈ (m.queue q).waiting ++ [k] := by simpa [Queue.recv, Queue.tryRecv, hq] using hl
    rcases List.mem_append.mp hl with hl | hl
    · exact hw l hl
    · rw [List.mem_singleton.mp hl]; exact hk
  | cons v rest => exact hw l (by simpa [Queue.recv, Queue.tryRecv, hq] using hl)

/-! ### The books are right -/

/-- With some processes in hand, the processes of a machine are those on its books. -/
structure Balanced (m : Machine) (hand : Multiset Stack) : Prop where
  grounded : ∀ k ∈ hand + m.places, k.Grounded
  owners : (hand + m.places).map Stack.bottom = m.pending
  queues : Queues.InOrder m.queues
  tasks : m.tasks.InOrder

namespace Balanced

variable {hand hand' : Multiset Stack}

lemma move (h : m.Balanced hand) (hp : hand' + m'.places = hand + m.places)
    (hq : Queues.InOrder m'.queues) (ht : m'.tasks = m.tasks) (he : m'.events = m.events) :
    m'.Balanced hand' where
  grounded k hk := h.grounded k (hp ▸ hk)
  owners := by rw [hp, h.owners, pending_congr (by rw [ht]) he]
  queues := hq
  tasks := ht ▸ h.tasks

lemma regrow {fs : Stack} (h : m.Balanced {k}) (hf : ∀ f ∈ fs, ¬ f.IsBottom) :
    m.Balanced {fs ++ k} := by
  have hk := h.grounded k (by simp)
  obtain ⟨hg, hb⟩ := hk.append hf
  refine { h with grounded := fun l hl => ?_, owners := ?_ }
  · rcases Multiset.mem_add.mp hl with hl | hl
    · rw [Multiset.mem_singleton.mp hl]; exact hg
    · exact h.grounded l (Multiset.mem_add.mpr (.inr hl))
  · rw [← h.owners, Multiset.map_add, Multiset.map_add, Multiset.map_singleton,
      Multiset.map_singleton, hb]

lemma resume (h : m.Balanced {k}) (o : Outcome) : (m.resume k o).Balanced 0 :=
  h.move (by rw [places_resume, zero_add]) h.queues rfl rfl

lemma check (h : m.Balanced {k}) : (m.check k).Balanced 0 := by
  obtain ⟨hq, ht, he⟩ := check_same m k
  exact h.move (by rw [places_check, zero_add]) (hq ▸ h.queues) ht he

lemma note (h : m.Balanced hand) (t : Note) : (m.note t).Balanced hand :=
  h.move rfl h.queues rfl rfl

lemma trace (h : m.Balanced hand) (t : Note) : (m.trace t).Balanced hand := by
  unfold Machine.trace
  split
  · exact h.note t
  · exact h

lemma newChannel (h : m.Balanced hand) : m.newChannel.2.Balanced hand :=
  h.move rfl h.queues rfl rfl

lemma send (h : m.Balanced hand) (q : QueueId) (v : Value) : (m.send q v).Balanced hand := by
  have hsame : (m.send q v).tasks = m.tasks ∧ (m.send q v).events = m.events := by
    unfold Machine.send; split <;> exact ⟨rfl, rfl⟩
  exact h.move (by rw [places_send]) (send_inOrder h.queues q v) hsame.1 hsame.2

lemma recv (h : m.Balanced {k}) {q : QueueId} (hk : k.Awaits q) : (m.recv q k).Balanced 0 := by
  have hsame : (m.recv q k).tasks = m.tasks ∧ (m.recv q k).events = m.events := by
    unfold Machine.recv; split <;> exact ⟨rfl, rfl⟩
  exact h.move (by rw [places_recv, zero_add]) (recv_inOrder h.queues hk) hsame.1 hsame.2

/-- A process that is forked is on the books under a name of its own. -/
lemma fork (h : m.Balanced hand) (e : Expr) (env : Env) : (m.fork e env).Balanced hand := by
  obtain ⟨hq, ht, he⟩ := check_same (m.nextName.2.register m.nextName.1).2
    [.eval e env, .settle (.text m.tasks.nextName) m.tasks.started]
  have hrun : (m.fork e env).tasks.running =
      m.tasks.running ++ [(.text m.tasks.nextName, .live m.tasks.started)] :=
    (congrArg Tasks.running ht).trans (Table.set_of_not_mem h.tasks.fresh _)
  have hnamed : (m.fork e env).tasks.named = m.tasks.named + 1 := congrArg Tasks.named ht
  have hpend : (m.fork e env).pending =
      {.settle (.text m.tasks.nextName) m.tasks.started} + m.pending := by
    have hevents : (m.fork e env).events = m.events := he
    unfold pending outcome?
    rw [hrun, hevents, List.filterMap_append, ← Multiset.coe_add, ← add_assoc, add_comm]
    rfl
  -- the name is new, so nobody is struck from the books by it
  refine ⟨fun k hk => ?_, ?_, hq ▸ h.queues, ⟨?_, fun t hm => ?_, fun t hm => ?_⟩⟩
  · rw [places_fork, add_left_comm] at hk
    rcases Multiset.mem_add.mp hk with hk | hk
    · rw [Multiset.mem_singleton.mp hk]
      exact ⟨[.eval e env], _, rfl, trivial, by simp [Frame.IsBottom]⟩
    · exact h.grounded k hk
  · rw [places_fork, add_left_comm, Multiset.map_add, h.owners, hpend]
    rfl
  · rw [hrun, List.map_append, List.nodup_append]
    refine ⟨h.tasks.nodup, by simp, fun a ha b hb => ?_⟩
    obtain ⟨t, hm, rfl⟩ := List.mem_map.mp ha
    rw [List.mem_singleton.mp hb]
    exact h.tasks.fresh t hm
  · rw [hnamed]
    rw [hrun] at hm
    rcases List.mem_append.mp hm with hm | hm
    · obtain ⟨i, hi, hname⟩ := h.tasks.named t hm
      exact ⟨i, by omega, hname⟩
    · exact ⟨m.tasks.named, by omega, by rw [List.mem_singleton.mp hm]; rfl⟩
  · rw [hrun] at hm
    rcases List.mem_append.mp hm with hm | hm
    · exact h.tasks.live t hm
    · exact ⟨m.tasks.started, by rw [List.mem_singleton.mp hm]⟩

lemma mem_pending (h : m.Balanced {k}) : k.bottom ∈ m.pending := by
  rw [← h.owners]
  exact Multiset.mem_map_of_mem _ (by simp)

lemma mem_running {task : Atom} {serial : Nat} (h : m.Balanced {[.settle task serial]}) :
    (task, .live serial) ∈ m.tasks.running := by
  rcases Multiset.mem_add.mp h.mem_pending with hin | hin
  · split at hin <;> simp [Stack.bottom] at hin
  · obtain ⟨⟨name, e⟩, he, hb⟩ := List.mem_filterMap.mp (Multiset.mem_coe.mp hin)
    cases e with
    | live s => cases hb; exact he
    | unready | stranded => cases hb

lemma settle {task : Atom} {serial : Nat} (h : m.Balanced {[.settle task serial]})
    (hm : m.awaiting = []) (o : Outcome) : (m.settle task serial o).Balanced 0 := by
  have hclosed : ({ m with tasks := m.tasks.settle m.policy task o } : Machine).Balanced 0 := by
    obtain ⟨hrun, hnamed⟩ := m.tasks.settle_same m.policy task o
    have hpend : m.pending = {.settle task serial} +
        ({ m with tasks := m.tasks.settle m.policy task o } : Machine).pending := by
      -- the entry of the task is the one that goes
      have hperm := (Table.perm_erase h.tasks.nodup h.mem_running).filterMap Entry.bottom?
      unfold pending
      rw [Multiset.coe_eq_coe.mpr hperm, add_left_comm, hrun]
      rfl
    refine ⟨fun k hk => h.grounded k ?_, ?_, h.queues, ⟨?_, fun t ht => ?_, fun t ht => ?_⟩⟩
    · rw [zero_add] at hk
      exact Multiset.mem_add.mpr (.inr hk)
    · have howners := h.owners
      rw [Multiset.map_add, hpend] at howners
      rw [zero_add]
      exact add_left_cancel howners
    · rw [hrun]
      exact h.tasks.nodup.sublist (List.filter_sublist.map _)
    · rw [hnamed]
      exact h.tasks.named t (Table.mem_of_mem_erase (hrun ▸ ht))
    · exact h.tasks.live t (Table.mem_of_mem_erase (hrun ▸ ht))
  rw [settle_of_nobody hm]
  cases o with
  | ok v =>
    simp only
    split
    · exact hclosed.trace _
    · exact hclosed
  | error f => exact hclosed.note _

lemma main_of_mem_pending {tag : Nat} (h : .report tag ∈ m.pending) :
    tag = 0 ∧ m.outcome? 0 = none := by
  rcases Multiset.mem_add.mp h with hin | hin
  · split at hin
    · next hnone =>
      refine ⟨?_, Option.isNone_iff_eq_none.mp hnone⟩
      simpa using hin
    · simp at hin
  · obtain ⟨⟨name, e⟩, -, hb⟩ := List.mem_filterMap.mp (Multiset.mem_coe.mp hin)
    cases e <;> cases hb

/-- The main process is struck from the books when it reports. -/
lemma report {tag : Nat} (h : m.Balanced {[.report tag]}) (o : Outcome) :
    (m.report tag o).Balanced 0 := by
  obtain ⟨rfl, hnone⟩ := main_of_mem_pending h.mem_pending
  have hsome : (m.report 0 o).outcome? 0 = some o := by
    have hf : m.events.find? (fun e => e.tag = 0) = none := Option.map_eq_none_iff.mp hnone
    simp [outcome?, Machine.report, Array.find?_push, hf]
  have hpend : m.pending = {.report 0} + (m.report 0 o).pending := by
    unfold pending
    rw [hnone, hsome]
    simp [Machine.report]
  refine ⟨fun k hk => h.grounded k ?_, ?_, h.queues, h.tasks⟩
  · rw [zero_add] at hk
    exact Multiset.mem_add.mpr (.inr hk)
  · have howners := h.owners
    rw [Multiset.map_add, hpend] at howners
    rw [zero_add]
    exact add_left_cancel howners

end Balanced

variable {D : Discipline}

lemma Acts.balanced (h : Acts D k m m') (hm : m.Balanced {k}) : m'.Balanced 0 := by
  induction h with
  | resume fs hf ho => exact (hm.regrow fun f hfs => (hf f hfs).not_isBottom).resume _
  | check fs hf => exact (hm.regrow fun f hfs => (hf f hfs).not_isBottom).check
  | @recv m on he =>
    have hgrown : m.Balanced {[.received on] ++ k} := hm.regrow (by simp [Frame.IsBottom])
    exact hgrown.recv ⟨on, k, rfl, rfl⟩
  | note _ _ ih => exact ih (hm.note _)
  | send _ _ _ ih => exact ih (hm.send _ _)
  | fork _ _ _ ih => exact ih (hm.fork _ _)
  | channel _ ih => exact ih hm.newChannel

/-- A process that is handed an outcome ends, or it goes on somewhere. -/
lemma Balanced.perform (hD : D.Lawful) (hm : m.Obeys D) {j : Job} (h : m.Balanced {j.stack})
    (ho : Outcome.Obeys D m.allocated j.outcome) (hs : Stack.Obeys D m.allocated j.stack) :
    (m.perform j).Balanced 0 := by
  obtain ⟨o, stack⟩ := j
  have hg : stack.Grounded := h.grounded stack (by simp)
  cases stack with
  | nil =>
    obtain ⟨fs, b, hnil, -⟩ := hg
    simp at hnil
  | cons f k =>
    rcases hg.cases with ⟨hf, rfl⟩ | ⟨hf, hk, hb⟩
    · -- the process ends
      cases f with
      | settle task serial =>
        cases o with
        | ok v => exact h.settle hm.awaiting (.ok v)
        | error fault => exact h.settle hm.awaiting (.error fault)
      | report tag =>
        cases o with
        | ok v => exact h.report (.ok v)
        | error fault => exact h.report (.error fault)
      | _ => exact hf.elim
    · have hrest : m.Balanced {k} := by
        refine { h with grounded := fun l hl => ?_, owners := ?_ }
        · rcases Multiset.mem_add.mp hl with hl | hl
          · rw [Multiset.mem_singleton.mp hl]; exact hk
          · exact h.grounded l (Multiset.mem_add.mpr (.inr hl))
        · rw [← h.owners, Multiset.map_add, Multiset.map_add, Multiset.map_singleton,
            Multiset.map_singleton, hb]
      have hobeys : f.Obeys D m.allocated := (hs f (List.mem_cons_self ..)).resolve_right hf
      cases o with
      | ok v => exact (accept_acts hD hobeys ho).balanced hrest
      | error fault =>
        simp only [Machine.perform, refuse_eq hobeys]
        exact hrest.resume _

/-- **A step keeps the books right.** -/
theorem Balanced.step (hD : D.Lawful) (hm : m.Obeys D) (h : m.Balanced 0) : m.step.Balanced 0 := by
  cases hj : m.jobs with
  | cons j rest =>
    have htake : ({ m with jobs := rest } : Machine).Balanced {j.stack} := by
      refine h.move ?_ h.queues rfl rfl
      have hjobs : (m.jobs.map (·.stack) : Multiset Stack) = {j.stack} + rest.map (·.stack) := by
        rw [hj]; rfl
      unfold places
      rw [hjobs, zero_add, add_assoc, add_assoc, add_assoc]
      rfl
    have hm' : Obeys D { m with jobs := rest } :=
      { hm with jobs := fun i hi => hm.jobs i (hj ▸ List.mem_cons_of_mem _ hi) }
    obtain ⟨ho, hs⟩ := hm.jobs j (hj ▸ List.mem_cons_self ..)
    rw [step_of_jobs hj]
    exact htake.perform hD hm' ho hs
  | nil =>
    cases hp : m.parked with
    | nil =>
      rw [step_of_quiet (by simp [quiet, hj, hp])]
      exact h
    | cons k rest =>
      rw [step_of_parked hj hp]
      refine h.move ?_ h.queues rfl rfl
      have hparked : (m.parked : Multiset Stack) = {k} + rest := by rw [hp]; rfl
      unfold places
      rw [hparked, hj, add_assoc, add_assoc]
      rfl

end Machine

/-! ### Runs -/

/-- The discipline that any program keeps to. A deadlock is nothing that a process raises. -/
def Discipline.any : Discipline where
  node _ := True
  param _ := True
  global _ _ := True
  ends _ _ := True
  fault f := f ≠ .deadlock

lemma Discipline.lawful_any : any.Lawful where
  small _ _ := trivial
  named _ := trivial
  body _ := .of_forall (fun _ => trivial) _
  params _ _ _ _ := trivial
  fresh _ := ⟨trivial, trivial⟩
  grow _ := trivial

def Fault.IsForeign : Fault → Prop
  | .deadlock | .noMainDeclaration => True
  | _ => False

lemma Fault.Arises.given_of_isForeign {D : Discipline} {f : Fault} (h : f.Arises D)
    (hf : f.IsForeign) : D.fault f := by
  have hworded : ∀ {f : Fault}, ¬ f.IsForeign → ¬ f.worded.IsForeign := by
    intro f hf
    unfold worded
    split
    · exact hf
    · exact id
  cases h with
  | given h => exact h
  | unbound | noCase | unknown | mismatch => exact absurd hf (hworded id)
  | _ => exact hf.elim

lemma Fault.Arises.ne_deadlock {f : Fault} (h : f.Arises .any) : f ≠ .deadlock := by
  rintro rfl
  exact h.given_of_isForeign trivial rfl

namespace Machine

/-- The machines in which a run begins: with a program, with a document that is validated
first, or with one that has no list of declarations. -/
inductive Starts (policy : Policy) : Machine → Prop
  | program (p : Program) : Starts policy (({ policy } : Machine).startProgram p [.report 0])
  | document (doc : Option Json) :
      Starts policy (({ policy } : Machine).startDocument doc [.report 0])
  | unlisted : Starts policy
      (({ policy } : Machine).resume [.report 0] (.error (.misuse (.notIterable "declarations"))))

structure InOrder (m : Machine) : Prop where
  obeys : m.Obeys .any
  balanced : m.Balanced 0

variable {m m₀ : Machine} {k : Stack} {policy : Policy}

lemma Balanced.fresh (policy : Policy) : ({ policy } : Machine).Balanced {[.report 0]} where
  grounded k hk := by
    obtain rfl : k = [.report 0] := by simpa [places, waiters] using hk
    exact ⟨[], _, rfl, trivial, by simp⟩
  owners := by simp [places, waiters, pending, outcome?, Stack.bottom]
  queues := ⟨List.nodup_nil, by simp, by simp⟩
  tasks := ⟨List.nodup_nil, by simp, by simp⟩

lemma inOrder_resume (hm : m.Obeys .any) (hb : m.Balanced {k})
    (hk : Stack.Obeys .any m.allocated k) {f : Fault} (hf : f ≠ .deadlock) :
    (m.resume k (.error f)).InOrder :=
  ⟨hm.resume hk (.given hf), hb.resume _⟩

lemma inOrder_startProgram (hm : m.Obeys .any) (hb : m.Balanced {k})
    (hk : Stack.Obeys .any m.allocated k) (p : Program) : (m.startProgram p k).InOrder := by
  have henv : Env.Obeys .any m.allocated p.globals := Program.globals_obeys fun _ _ => trivial
  unfold startProgram
  split
  · next g hg =>
    have hacts : Acts .any k m (m.enter (g.call p.globals) k) :=
      .enter (Global.call_obeys Discipline.lawful_any (Program.main_obeys henv hg) henv)
    exact ⟨hacts.obeys Discipline.lawful_any hm hk, hacts.balanced hb⟩
  · exact inOrder_resume hm hb hk (by simp)

lemma Starts.inOrder (h : Starts policy m) : m.InOrder := by
  have hm := Obeys.fresh .any policy
  have hb := Balanced.fresh policy
  have hpass : ∀ fs : Stack, (∀ f ∈ fs, f = .pass) → Stack.Obeys .any 0 (fs ++ [.report 0]) ∧
      ({ policy } : Machine).Balanced {fs ++ [.report 0]} := by
    intro fs hfs
    refine ⟨.append (fun f hf => hfs f hf ▸ trivial) fun f hf => ?_, hb.regrow fun f hf => ?_⟩
    · rw [List.mem_singleton.mp hf]; exact .inr trivial
    · rw [hfs f hf]; exact id
  cases h with
  | program p =>
    obtain ⟨hk, hb⟩ := hpass [] (by simp)
    exact inOrder_startProgram hm hb hk p
  | unlisted =>
    obtain ⟨hk, hb⟩ := hpass [] (by simp)
    exact inOrder_resume hm hb hk (by simp)
  | document doc =>
    unfold startDocument
    split
    · next r _ =>
      obtain ⟨hk, hb⟩ := hpass [] (by simp)
      exact inOrder_resume hm hb hk (by cases r <;> simp [Refusal.fault])
    · next v _ =>
      split
      · obtain ⟨hk, hb⟩ := hpass [.pass] (by simp)
        exact inOrder_startProgram hm hb hk v.program
      · obtain ⟨hk, hb⟩ := hpass [.pass, .pass] (by simp)
        exact inOrder_startProgram hm hb hk v.program

lemma InOrder.iterate (h : m.InOrder) (n : Nat) : (Machine.step^[n] m).InOrder := by
  induction n generalizing m with
  | zero => exact h
  | succ n ih =>
    exact ih ⟨h.obeys.step Discipline.lawful_any, h.balanced.step Discipline.lawful_any h.obeys⟩

/-! ### At rest -/

lemma places_of_quiet (h : m.quiet = true) : m.places = m.waiters := by
  simp only [quiet, Bool.and_eq_true, List.isEmpty_iff] at h
  simp [places, h.1, h.2]

lemma bottom?_injective :
    ∀ s t : Atom × Entry, ∀ b ∈ Entry.bottom? s, b ∈ Entry.bottom? t → s = t := by
  rintro ⟨a, _ | _⟩ ⟨b, _ | _⟩ f hs ht <;> cases hs <;> cases ht
  rfl

lemma pending_nodup (h : m.tasks.InOrder) : m.pending.Nodup := by
  have htasks : (m.tasks.running.filterMap Entry.bottom?).Nodup :=
    h.nodup.of_map.filterMap bottom?_injective
  have hmain : .report 0 ∉ m.tasks.running.filterMap Entry.bottom? := by
    intro hin
    obtain ⟨⟨name, e⟩, -, hb⟩ := List.mem_filterMap.mp hin
    cases e <;> cases hb
  unfold pending
  split
  · rw [Multiset.singleton_add, Multiset.nodup_cons]
    exact ⟨hmain, htasks⟩
  · rw [zero_add]
    exact htasks

lemma card_waiters (m : Machine) :
    m.waiters.card = (m.queues.map fun e => e.2.waiting.length).sum := by
  simp [waiters, List.length_flatMap]

lemma card_pending (h : m.tasks.InOrder) :
    m.pending.card = m.tasks.running.length + (if (m.outcome? 0).isNone then 1 else 0) := by
  have htasks : (m.tasks.running.filterMap Entry.bottom?).length = m.tasks.running.length := by
    rw [List.length_filterMap_eq_countP, List.countP_eq_length]
    intro e he
    obtain ⟨serial, hs⟩ := h.live e he
    obtain ⟨task, entry⟩ := e
    cases hs
    rfl
  unfold pending
  rw [Multiset.card_add, Multiset.coe_card, htasks, add_comm]
  split <;> rfl

/-- Who waits does so on a queue, and the queue is empty. -/
lemma waits_of_mem (h : Queues.InOrder m.queues) (hk : k ∈ m.waiters) :
    ∃ q, k ∈ (m.queue q).waiting ∧ (m.queue q).buffer = [] := by
  obtain ⟨e, he, hw⟩ := List.mem_flatMap.mp (Multiset.mem_coe.mp hk)
  have hq : m.queue e.1 = e.2 := by
    rw [queue, Table.find?_of_mem h.nodup he]; rfl
  refine ⟨e.1, hq ▸ hw, (queue_inOrder h e.1).1.resolve_right fun hnil => ?_⟩
  rw [hq] at hnil
  rw [hnil] at hw
  exact absurd hw List.not_mem_nil

/-- Under guard, a run of which everything is in order is found suspended only if the main
process has not ended. -/
lemma InOrder.conclude (h : m.InOrder)
    (hd : Guard.conclude (m.outcome? 0) = .error .deadlock) : m.outcome? 0 = none := by
  cases ho : m.outcome? 0 with
  | none => rfl
  | some o =>
    rw [ho, Guard.conclude_some] at hd
    subst hd
    obtain ⟨e, he, hout⟩ := Option.map_eq_some_iff.mp ho
    have hobeys := h.obeys.events e (Array.mem_of_find?_eq_some he)
    rw [hout] at hobeys
    exact absurd rfl (Fault.Arises.ne_deadlock hobeys)

/-- **No wake-up is lost.** When nothing is left to do in a run, whoever has not ended is
suspended in exactly one receive, on a queue that holds nothing, and nobody else waits. The run
is over then, and if the guard calls it a deadlock, the main process waits on an empty queue and
so does every task that is left. -/
theorem pending_processes_wait (h₀ : Starts policy m₀) (n : Nat)
    (hq : (Machine.step^[n] m₀).quiet = true) :
    let m := Machine.step^[n] m₀
    let waits (b : Frame) := ∃ q k, k ∈ (m.queue q).waiting ∧ k.bottom = b ∧ (m.queue q).buffer = []
    m.pending.Nodup ∧ m.waiters.map Stack.bottom = m.pending ∧
    (m.queues.map (·.1)).Nodup ∧
    (∀ q, ∀ k ∈ (m.queue q).waiting, k.Awaits q ∧ (m.queue q).buffer = []) ∧
    (m.queues.map fun e => e.2.waiting.length).sum =
      m.tasks.running.length + (if (m.outcome? 0).isNone then 1 else 0) ∧
    Finished.ofMachine (n + 1) 0 m₀ = some ⟨m, Guard.conclude (m.outcome? 0), []⟩ ∧
    (Guard.conclude (m.outcome? 0) = .error .deadlock →
      m.jobs = [] ∧ m.parked = [] ∧ waits (.report 0) ∧ ∀ b ∈ m.pending, waits b) := by
  intro m waits
  have hm : m.InOrder := h₀.inOrder.iterate n
  have howners : m.waiters.map Stack.bottom = m.pending := by
    rw [← places_of_quiet hq, ← hm.balanced.owners, zero_add]
  have hwaits : ∀ b ∈ m.pending, waits b := by
    intro b hb
    rw [← howners] at hb
    obtain ⟨k, hk, hkb⟩ := Multiset.mem_map.mp hb
    obtain ⟨q, hw, hbuffer⟩ := waits_of_mem hm.balanced.queues hk
    exact ⟨q, k, hw, hkb, hbuffer⟩
  refine ⟨pending_nodup hm.balanced.tasks, howners, hm.balanced.queues.nodup,
    fun q k hk => ?_, ?_, ?_, fun hd => ?_⟩
  · obtain ⟨hs, hw⟩ := queue_inOrder hm.balanced.queues q
    refine ⟨hw k hk, hs.resolve_right fun hnil => ?_⟩
    rw [hnil] at hk
    exact absurd hk List.not_mem_nil
  · rw [← card_waiters, ← card_pending hm.balanced.tasks, ← howners, Multiset.card_map]
  · rw [Finished.ofMachine, drain_iterate hq]
    rfl
  · have hmain := hm.conclude hd
    have hin : .report 0 ∈ m.pending := by
      unfold pending
      rw [hmain]
      simp
    simp only [quiet, Bool.and_eq_true, List.isEmpty_iff] at hq
    exact ⟨hq.1, hq.2, hwaits _ hin, hwaits⟩

/-- A main process that forks a receiver on one end of a channel and receives on the other. -/
def mutualWait : Program :=
  let ends : Expr := .var (.text "ends")
  ⟨[.global ⟨.text "main", .ok [], .letIn (.text "ends") .channel
    (.letIn (.text "other") (.fork (.recv (.fst ends))) (.recv (.snd ends)))⟩]⟩

/-- The two wait for each other, and the guard says so. -/
theorem pending_processes_wait_mutualWait :
    let m := Machine.step^[18] (({} : Machine).startProgram mutualWait [.report 0])
    m.quiet = true ∧ Guard.conclude (m.outcome? 0) = .error .deadlock ∧
      m.waiters.map Stack.bottom = m.pending ∧
      (m.queues.map fun e => e.2.waiting.length).sum = 2 :=
  have h := pending_processes_wait (@Starts.program {} mutualWait) 18 rfl
  ⟨rfl, rfl, h.2.1, h.2.2.2.2.1⟩

end Machine

end Parley
