import Parley.Machine.Operation
import Parley.Proofs.Places

/-!
Processes that are started from outside: tasks, and requests that take time. Their stacks count
steps, receive a value and hand outcomes on, until they come to their bottom. What they can come
to is said once for each stack, and a step of the machine keeps to it.
-/

namespace Parley

/-- A function that gives something back does not fail. -/
def Operation.Starts : Operation → Prop
  | .giveBack (.stillborn _) => False
  | _ => True

inductive Fate
  | settled (o : Outcome)
  /-- It threw something without a text. -/
  | stranded

/-- What those hear who wait for a task. A value without a text cannot be noted in a traced run,
and that it cannot is heard in its place. -/
def Fate.told (policy : Policy) : Fate → Outcome
  | settled (.ok v) =>
    if !policy.tracing || v.showable then .ok v else .error (.misuse .noText)
  | settled (.error f) => .error f
  | stranded => .error (.misuse .noText)

/-- How a task can end that takes `n` steps first. -/
def Ending.Gives (policy : Policy) (n : Nat) (e : Ending) (x : Fate) : Prop :=
  (0 < n ∧ x = .settled (.error (.stepLimitExceeded (.number policy.maxSteps)))) ∨
    match e with
    | .result v => x = .settled (.ok v)
    | .fault f => x = .settled (.error f)
    | .thrown a => x = (a.display?.map fun s => Fate.settled (.error (.failure s))).getD .stranded
    | .receive _ => ∃ v, x = .settled (.ok v)

/-- Every end that the task at the bottom of a stack can come to is as `R` says, if the top is
handed this outcome, or if nothing can be told of what the task threw. -/
def Stack.Delivers (R : Nat → Fate → Prop) (policy : Policy) : Stack → Fate → Prop
  | [.settle _ serial], x => R serial x
  | [.report _], .settled _ => True
  | .pass :: k, .settled o => Delivers R policy k (.settled o)
  | .take _ :: k, .settled (.ok _) => ∀ v, Delivers R policy k (.settled (.ok v))
  | .take _ :: k, .settled (.error f) => Delivers R policy k (.settled (.error f))
  | .steps n e :: k, .settled (.ok _) => ∀ x, e.Gives policy n x → Delivers R policy k x
  | .steps _ _ :: k, .settled (.error f) => Delivers R policy k (.settled (.error f))
  | .strand :: k, .settled (.error _) => Delivers R policy k .stranded
  | _, _ => False

namespace Stack

variable {R R' : Nat → Fate → Prop} {policy : Policy} {k : Stack} {x : Fate}

lemma Delivers.mono (h : k.Delivers R policy x) (hR : ∀ s x, R s x → R' s x) :
    k.Delivers R' policy x := by
  fun_induction Delivers R policy k x with
  | case1 => exact hR _ _ h
  | case2 => trivial
  | case3 k o ih => exact ih h
  | case4 q k v ih => exact fun v => ih v (h v)
  | case5 q k f ih => exact ih h
  | case6 n e k v ih => exact fun x hx => ih x (h x hx)
  | case7 n e k f ih => exact ih h
  | case8 k f ih => exact ih h
  | case9 => exact h.elim

lemma bottom_singleton (f : Frame) : bottom [f] = f := rfl

lemma bottom_cons {f : Frame} (hk : k ≠ []) : bottom (f :: k) = bottom k := by
  rw [bottom, List.getLast?_cons_of_ne_nil hk, bottom]

lemma Delivers.ne_nil (h : k.Delivers R policy x) : k ≠ [] := by
  rintro rfl
  exact h

lemma Delivers.of_stranded (h : k.Delivers R policy .stranded) :
    ∃ task serial, k = [.settle task serial] ∧ R serial .stranded := by
  cases k with
  | nil => exact h.elim
  | cons f k =>
    cases f with
    | settle task serial =>
      cases k with
      | nil => exact ⟨task, serial, rfl, h⟩
      | cons => exact h.elim
    | report tag => cases k <;> exact h.elim
    | _ => exact h.elim

end Stack

lemma Ending.exists_gives (policy : Policy) (n : Nat) (e : Ending) : ∃ x, e.Gives policy n x := by
  cases e with
  | receive q => exact ⟨.settled (.ok .unit), .inr ⟨.unit, rfl⟩⟩
  | _ => exact ⟨_, .inr rfl⟩

/-- One step more leaves what a task comes to, or the step is one too many. -/
lemma Ending.Gives.succ {policy : Policy} {n : Nat} {e : Ending} {x : Fate}
    (h : e.Gives policy n x) : e.Gives policy (n + 1) x :=
  h.imp_left fun ⟨_, hx⟩ => ⟨Nat.succ_pos n, hx⟩

/-- Who throws something without a text is the only one to be stranded. -/
lemma Ending.Gives.exists_thrown {policy : Policy} {n : Nat} {e : Ending}
    (h : e.Gives policy n .stranded) : ∃ a : Atom, e = .thrown a ∧ a.display? = none := by
  obtain ⟨-, hx⟩ | hx := h
  · cases hx
  · cases e with
    | thrown a =>
      cases ha : a.display? with
      | none => exact ⟨a, rfl, ha⟩
      | some s =>
        simp only [ha] at hx
        cases hx
    | receive q => cases hx.choose_spec
    | _ => cases hx

lemma Queue.waiting_tryRecv (c : Queue Value Stack) : c.tryRecv.1.waiting = c.waiting := by
  unfold Queue.tryRecv
  split <;> rfl

/-- The end of a task starts no other and calls no function. -/
lemma Tasks.settle_keeps (t : Tasks) (p : Policy) (task : Atom) (o : Outcome) :
    (t.settle p task o).started = t.started ∧ (t.settle p task o).calls = t.calls := by
  unfold Tasks.settle
  cases o with
  | ok v => exact ⟨rfl, rfl⟩
  | error f => simp only; split <;> exact ⟨rfl, rfl⟩

lemma Tasks.mem_amend {t : Tasks} {task : Atom} {old new : Entry} {e : Atom × Entry}
    (he : e ∈ (t.amend task old new).running) :
    (e ∈ t.running ∧ e ≠ (task, old)) ∨ e = (task, new) := by
  obtain ⟨e', he', heq⟩ := List.mem_map.mp he
  by_cases hold : e' = (task, old)
  · exact .inr (heq.symm.trans (if_pos hold))
  · rw [if_neg hold] at heq
    subst heq
    exact .inl ⟨he', hold⟩

namespace Machine

variable {R : Nat → Fate → Prop} {m m' : Machine} {k : Stack} {o : Outcome}

/-! ### What one job does -/

/-- What a job of such a process leads to, once it has been taken off the list. -/
inductive Leads (R : Nat → Fate → Prop) (m : Machine) : Job → Machine → Prop
  | hand {f : Frame} {k : Stack} {o : Outcome} (above : ¬ f.IsBottom) (plain : f ≠ .strand)
      (next : k.Delivers R m.policy (.settled o)) :
    Leads R m ⟨o, f :: k⟩ (m.resume k o)
  | advance {n : Nat} {e : Ending} {k : Stack} {v : Value}
      (next : ∀ x, e.Gives m.policy n x → k.Delivers R m.policy x) :
    Leads R m ⟨.ok v, .steps n e :: k⟩ (m.advance n e k)
  | take {q : QueueId} {k : Stack} {v : Value}
      (next : ∀ v, k.Delivers R m.policy (.settled (.ok v))) :
    Leads R m ⟨.ok v, .take q :: k⟩ (m.recv q k)
  | settle {task : Atom} {serial : Nat} {o : Outcome} (end_ : R serial (.settled o)) :
    Leads R m ⟨o, [.settle task serial]⟩ (m.settle task serial o)
  | strand {task : Atom} {serial : Nat} {f : Fault} (end_ : R serial .stranded) :
    Leads R m ⟨.error f, [.strand, .settle task serial]⟩ (m.strand task serial)
  | report {tag : Nat} {o : Outcome} : Leads R m ⟨o, [.report tag]⟩ (m.report tag o)

lemma leads_perform {j : Job} (h : j.stack.Delivers R m.policy (.settled j.outcome)) :
    Leads R m j (m.perform j) := by
  obtain ⟨o, k⟩ := j
  cases k with
  | nil => exact h.elim
  | cons f k =>
    -- the frames of tasks and requests are few, and others deliver nothing
    cases f with
    | pass => cases o <;> exact .hand id (by simp) h
    | take q =>
      cases o with
      | ok v => exact .take h
      | error f => exact .hand id (by simp) h
    | steps n e =>
      cases o with
      | ok v => exact .advance h
      | error f => exact .hand id (by simp) h
    | strand =>
      cases o with
      | ok v => exact h.elim
      | error f =>
        obtain ⟨task, serial, rfl, hend⟩ := Stack.Delivers.of_stranded h
        exact .strand hend
    | settle task serial =>
      cases k with
      | nil => cases o <;> exact .settle h
      | cons => exact h.elim
    | report tag =>
      cases k with
      | nil => cases o <;> exact .report
      | cons => exact h.elim
    | _ => exact h.elim

/-! ### Putting a process somewhere -/

/-- Nothing is taken away but from queues: jobs come behind the others. -/
structure Adds (m m' : Machine) : Prop where
  jobs : m.jobs <+: m'.jobs
  awaiting : m'.awaiting = m.awaiting
  events : m'.events = m.events
  tasks : m'.tasks = m.tasks
  policy : m'.policy = m.policy

lemma adds_resume (m : Machine) (k : Stack) (o : Outcome) : m.Adds (m.resume k o) :=
  ⟨List.prefix_append .., rfl, rfl, rfl, rfl⟩

lemma adds_check (m : Machine) (k : Stack) : m.Adds (m.check k) := by
  simp only [check]
  split
  · exact ⟨List.prefix_append .., rfl, rfl, rfl, rfl⟩
  · split
    · exact ⟨List.prefix_rfl, rfl, rfl, rfl, rfl⟩
    · exact ⟨List.prefix_append .., rfl, rfl, rfl, rfl⟩

lemma adds_recv (m : Machine) (q : QueueId) (k : Stack) : m.Adds (m.recv q k) := by
  unfold recv
  split
  · exact ⟨List.prefix_append .., rfl, rfl, rfl, rfl⟩
  · exact ⟨List.prefix_rfl, rfl, rfl, rfl, rfl⟩

lemma adds_send (m : Machine) (q : QueueId) (v : Value) : m.Adds (m.send q v) := by
  unfold send
  split
  · exact ⟨List.prefix_append .., rfl, rfl, rfl, rfl⟩
  · exact ⟨List.prefix_rfl, rfl, rfl, rfl, rfl⟩

lemma adds_advance (m : Machine) (n : Nat) (e : Ending) (k : Stack) : m.Adds (m.advance n e k) := by
  cases n with
  | succ n => exact adds_check ..
  | zero => cases e <;> exact adds_resume ..

/-- The bottoms of all processes: those of jobs, those that let others go first, those that wait
on queues and those that wait for tasks. -/
def bottoms (m : Machine) : Multiset Frame :=
  m.places.map Stack.bottom + m.awaiting.map fun w => w.2.bottom

lemma bottoms_of_places (hp : m'.places = {k} + m.places) (ha : m'.awaiting = m.awaiting) :
    m'.bottoms = {k.bottom} + m.bottoms := by
  rw [bottoms, hp, ha, Multiset.map_add, Multiset.map_singleton, add_assoc, bottoms]

lemma bottoms_resume (m : Machine) (k : Stack) (o : Outcome) :
    (m.resume k o).bottoms = {k.bottom} + m.bottoms :=
  bottoms_of_places (places_resume ..) rfl

lemma bottoms_check (m : Machine) (k : Stack) : (m.check k).bottoms = {k.bottom} + m.bottoms :=
  bottoms_of_places (places_check ..) (adds_check ..).awaiting

lemma bottoms_recv (m : Machine) (q : QueueId) (k : Stack) :
    (m.recv q k).bottoms = {k.bottom} + m.bottoms :=
  bottoms_of_places (places_recv ..) (adds_recv ..).awaiting

lemma bottoms_send (m : Machine) (q : QueueId) (v : Value) : (m.send q v).bottoms = m.bottoms := by
  rw [bottoms, places_send, (adds_send ..).awaiting, bottoms]

lemma bottoms_advance (m : Machine) (n : Nat) (e : Ending) (hk : k ≠ []) :
    (m.advance n e k).bottoms = {k.bottom} + m.bottoms := by
  have hcons : ∀ fs : Stack, Stack.bottom (fs ++ k) = k.bottom := by
    intro fs
    induction fs with
    | nil => rfl
    | cons f fs ih => rw [List.cons_append, Stack.bottom_cons (by simp [hk]), ih]
  cases n with
  | succ n => rw [advance, bottoms_check, ← hcons [.steps n e]]; rfl
  | zero =>
    cases e with
    | receive q => rw [advance, bottoms_resume, ← hcons [.take q, .pass]]; rfl
    | thrown a =>
      rw [advance, bottoms_resume]
      split
      · rfl
      · rw [← hcons [.strand]]; rfl
    | _ => exact bottoms_resume ..

lemma bottoms_of_jobs {j : Job} {rest : List Job} (hj : m.jobs = j :: rest) :
    m.bottoms = {j.stack.bottom} + ({ m with jobs := rest } : Machine).bottoms := by
  have hplaces : m.places = {j.stack} + ({ m with jobs := rest } : Machine).places := by
    unfold places
    rw [hj, List.map_cons, ← Multiset.cons_coe, ← Multiset.singleton_add, add_assoc, add_assoc,
      add_assoc]
    rfl
  exact bottoms_of_places hplaces rfl

/-! ### What processes can come to -/

/-- Every task can only come to what `R` says of it. -/
structure Delivering (R : Nat → Fate → Prop) (m : Machine) : Prop where
  jobs : ∀ j ∈ m.jobs, j.stack.Delivers R m.policy (.settled j.outcome)
  parked : ∀ k ∈ m.parked, k.Delivers R m.policy (.settled (.ok .unit))
  waiting : ∀ q, ∀ k ∈ (m.queue q).waiting, ∀ v, k.Delivers R m.policy (.settled (.ok v))
  awaiting : ∀ w ∈ m.awaiting, ∀ o, w.2.Delivers R m.policy (.settled o)

namespace Delivering

lemma mono {R' : Nat → Fate → Prop} (h : m.Delivering R) (hR : ∀ s x, R s x → R' s x) :
    m.Delivering R' where
  jobs j hj := (h.jobs j hj).mono hR
  parked k hk := (h.parked k hk).mono hR
  waiting q k hk v := (h.waiting q k hk v).mono hR
  awaiting w hw o := (h.awaiting w hw o).mono hR

lemma resume (h : m.Delivering R) (hk : k.Delivers R m.policy (.settled o)) :
    (m.resume k o).Delivering R := by
  refine { h with jobs := fun j hj => ?_ }
  rcases List.mem_append.mp hj with hj | hj
  · exact h.jobs j hj
  · rw [List.mem_singleton.mp hj]
    exact hk

lemma check (h : m.Delivering R) (hk : k.Delivers R m.policy (.settled (.ok .unit)))
    (hlimit : k.Delivers R m.policy
      (.settled (.error (.stepLimitExceeded (.number m.policy.maxSteps))))) :
    (m.check k).Delivering R := by
  simp only [Machine.check]
  split
  · exact resume (m := { m with steps := m.steps + 1 }) { h with } hlimit
  · split
    · refine { h with parked := fun l hl => ?_ }
      rcases List.mem_append.mp hl with hl | hl
      · exact h.parked l hl
      · rw [List.mem_singleton.mp hl]
        exact hk
    · exact resume (m := { m with steps := m.steps + 1 }) { h with } hk

lemma setQueue (h : m.Delivering R) (q : QueueId) {c : Queue Value Stack}
    (hc : ∀ k ∈ c.waiting, ∀ v, k.Delivers R m.policy (.settled (.ok v))) :
    (m.setQueue q c).Delivering R := by
  refine { h with waiting := fun r k hk => ?_ }
  by_cases hr : r = q
  · subst hr
    rw [queue_setQueue_self] at hk
    exact hc k hk
  · rw [queue_setQueue_of_ne _ _ hr] at hk
    exact h.waiting r k hk

lemma recv (h : m.Delivering R) (q : QueueId)
    (hk : ∀ v, k.Delivers R m.policy (.settled (.ok v))) : (m.recv q k).Delivering R := by
  cases hq : (m.queue q).buffer with
  | nil =>
    rw [recv_of_nil k hq]
    refine h.setQueue q fun l hl => ?_
    rcases List.mem_append.mp hl with hl | hl
    · exact h.waiting q l hl
    · rw [List.mem_singleton.mp hl]
      exact hk
  | cons v rest =>
    rw [recv_of_cons k hq]
    exact (h.setQueue q (c := ⟨rest, (m.queue q).waiting⟩) (h.waiting q)).resume (hk v)

lemma send (h : m.Delivering R) (q : QueueId) (v : Value) : (m.send q v).Delivering R := by
  cases hq : (m.queue q).waiting with
  | nil =>
    rw [send_of_nil v hq]
    exact h.setQueue q (by simp)
  | cons l rest =>
    have hw : ∀ k ∈ l :: rest, ∀ v, k.Delivers R m.policy (.settled (.ok v)) :=
      hq ▸ h.waiting q
    obtain ⟨hl, hrest⟩ := List.forall_mem_cons.mp hw
    rw [send_of_cons v hq]
    exact (h.setQueue q hrest).resume (hl v)

/-- A task that goes on comes to what its ending gives. -/
lemma advance (h : m.Delivering R) {n : Nat} {e : Ending}
    (hk : ∀ x, e.Gives m.policy n x → k.Delivers R m.policy x) :
    (m.advance n e k).Delivering R := by
  cases n with
  | succ n =>
    exact h.check (k := .steps n e :: k) (fun x hx => hk x hx.succ)
      (hk _ (.inl ⟨Nat.succ_pos n, rfl⟩))
  | zero =>
    cases e with
    | result v => exact h.resume (hk _ (.inr rfl))
    | fault f => exact h.resume (hk _ (.inr rfl))
    | thrown a =>
      have hend := hk _ (.inr rfl)
      -- what has a text goes to the bottom as a fault, and all else strands the task
      refine h.resume ?_
      unfold Atom.showable Fault.ofThrown
      cases ha : a.display? with
      | some s => simpa [ha] using hend
      | none =>
        rw [ha] at hend
        exact hend
    | receive q => exact h.resume (k := .take q :: .pass :: k) fun v => hk _ (.inr ⟨v, rfl⟩)

end Delivering

/-! ### Requests -/

lemma bottoms_setQueue (m : Machine) (q : QueueId) {c : Queue Value Stack}
    (hc : c.waiting = (m.queue q).waiting) : (m.setQueue q c).bottoms = m.bottoms := by
  have hw := m.waiters_setQueue q c
  rw [hc] at hw
  unfold bottoms places
  rw [add_right_cancel hw]
  rfl

/-- Who awaits a task waits for it if it is running, and goes on otherwise. -/
lemma await_cases (m : Machine) (task : Atom) (k : Stack) :
    (∃ s, m.await task k = { m with awaiting := m.awaiting ++ [(s, .pass :: k)] }) ∨
      ∃ l o, (l = k ∨ l = .pass :: k) ∧ m.await task k = m.resume l o := by
  unfold await
  split
  · exact .inl ⟨_, rfl⟩
  · exact .inr ⟨_, _, .inr rfl, rfl⟩
  · exact .inr ⟨_, _, .inr rfl, rfl⟩
  · split <;> exact .inr ⟨_, _, .inl rfl, rfl⟩

lemma Delivering.await (h : m.Delivering R) (task : Atom)
    (hk : ∀ o, k.Delivers R m.policy (.settled o)) : (m.await task k).Delivering R := by
  rcases m.await_cases task k with ⟨s, hm⟩ | ⟨l, o, hl, hm⟩
  · rw [hm]
    refine { h with awaiting := fun w hw => ?_ }
    rcases List.mem_append.mp hw with hw | hw
    · exact h.awaiting w hw
    · rw [List.mem_singleton.mp hw]
      exact hk
  · rw [hm]
    refine h.resume ?_
    rcases hl with rfl | rfl <;> exact hk o

/-- The task that a request gives something to do, with what it is given. -/
def given? (m : Machine) : Operation → Option (Nat × Nat × Ending)
  | .giveBack (.steps n e) => m.tasks.calls.head?.map fun c => (c.2, n, e)
  | _ => none

/-- A request leaves every task to what it can come to. -/
lemma Delivering.operate {p : Operation} (h : m.Delivering R) (hp : p.Starts)
    (hgiven : ∀ s n e, m.given? p = some (s, n, e) → ∀ x, e.Gives m.policy n x → R s x) :
    (m.operate p).1.Delivering R := by
  cases p with
  | newQueue | newChannel | nextName | isComplete | spawn => exact { h with }
  | send q v => exact h.send q v
  | recv q tag => exact h.recv q fun v => trivial
  | tryRecv q =>
    refine h.setQueue q (c := (m.queue q).tryRecv.1) ?_
    rw [Queue.waiting_tryRecv]
    exact h.waiting q
  | countSteps n tag =>
    refine h.advance (k := [.report tag]) fun x hx => ?_
    -- counting steps ends with a value or with the limit
    rcases hx with ⟨-, rfl⟩ | rfl <;> trivial
  | await task tag => exact h.await task fun o => trivial
  | giveBack w =>
    cases w with
    | stillborn f => exact hp.elim
    | steps n e =>
      simp only [Machine.operate, giveBack]
      cases hcalls : m.tasks.calls with
      | nil => exact h
      | cons c calls =>
        have hx := hgiven c.2 n e (by simp [given?, hcalls])
        exact Delivering.advance (m := { m with tasks := m.tasks.engage c.1 c.2 }) { h with } hx

/-! ### The end of a task -/

def Closed (m : Machine) (task : Atom) (serial : Nat) : Fate → Tasks
  | .settled o => m.tasks.settle m.policy task o
  | .stranded => m.tasks.amend task (.live serial) (.stranded serial)

structure Closes (m : Machine) (task : Atom) (serial : Nat) (x : Fate) (m' : Machine) :
    Prop where
  jobs : m'.jobs = m.jobs ++
    (m.awaiting.filter fun w => w.1 = serial).map fun w => ⟨x.told m.policy, w.2⟩
  awaiting : m'.awaiting = m.awaiting.filter fun w => w.1 ≠ serial
  tasks : m'.tasks = m.Closed task serial x
  parked : m'.parked = m.parked
  queues : m'.queues = m.queues
  events : m'.events = m.events
  policy : m'.policy = m.policy

lemma closes_settle (m : Machine) (task : Atom) (serial : Nat) (o : Outcome) :
    m.Closes task serial (.settled o) (m.settle task serial o) := by
  cases o with
  | error f => exact ⟨rfl, rfl, rfl, rfl, rfl, rfl, rfl⟩
  | ok v =>
    by_cases hv : (!m.policy.tracing || v.showable) = true
    · cases ht : m.policy.tracing <;>
        constructor <;> simp_all [settle, release, canTrace, trace, note, Fate.told, Closed]
    · constructor <;> simp_all [settle, release, canTrace, Fate.told, Closed]

lemma closes_strand (m : Machine) (task : Atom) (serial : Nat) :
    m.Closes task serial .stranded (m.strand task serial) :=
  ⟨rfl, rfl, rfl, rfl, rfl, rfl, rfl⟩

namespace Closes

variable {task : Atom} {serial : Nat} {x : Fate}

lemma bottoms_eq (h : m.Closes task serial x m') : m'.bottoms = m.bottoms := by
  have hready : (m'.jobs.map (·.stack) : Multiset Stack) = m.jobs.map (·.stack) +
      (m.awaiting.filter fun w => w.1 = serial).map (·.2) := by
    rw [h.jobs, List.map_append, List.map_map, ← Multiset.coe_add]
    rfl
  have hwaiters : m'.waiters = m.waiters := by rw [waiters, h.queues, waiters]
  have hsplit : (m.awaiting.map fun w => w.2.bottom).Perm
      (((m.awaiting.filter fun w => w.1 = serial).map fun w => w.2.bottom) ++
        (m.awaiting.filter fun w => w.1 ≠ serial).map fun w => w.2.bottom) := by
    rw [← List.map_append]
    simpa only [ne_eq, decide_not] using (List.filter_append_perm _ m.awaiting).symm.map _
  unfold bottoms places
  rw [hready, hwaiters, h.parked, h.awaiting, Multiset.coe_eq_coe.mpr hsplit, ← Multiset.coe_add]
  simp only [Multiset.map_add, Multiset.map_coe, List.map_map]
  simp only [Function.comp_def]
  abel

lemma delivering (h : m.Closes task serial x m') (hm : m.Delivering R) : m'.Delivering R where
  jobs j hj := by
    rw [h.jobs] at hj
    rw [h.policy]
    rcases List.mem_append.mp hj with hj | hj
    · exact hm.jobs j hj
    · obtain ⟨w, hw, rfl⟩ := List.mem_map.mp hj
      exact hm.awaiting w (List.mem_filter.mp hw).1 _
  parked k hk := by
    rw [h.policy]
    exact hm.parked k (h.parked ▸ hk)
  waiting q k hk := by
    have hq : m'.queue q = m.queue q := by rw [queue, h.queues, queue]
    rw [h.policy]
    exact hm.waiting q k (hq ▸ hk)
  awaiting w hw := by
    rw [h.awaiting] at hw
    rw [h.policy]
    exact hm.awaiting w (List.mem_filter.mp hw).1

lemma started_eq (h : m.Closes task serial x m') : m'.tasks.started = m.tasks.started := by
  rw [h.tasks]
  cases x with
  | settled o => exact (Tasks.settle_keeps ..).1
  | stranded => rfl

lemma calls_eq (h : m.Closes task serial x m') : m'.tasks.calls = m.tasks.calls := by
  rw [h.tasks]
  cases x with
  | settled o => exact (Tasks.settle_keeps ..).2
  | stranded => rfl

/-- The entry of a task that has ended is gone, or tells that it is stranded. -/
lemma mem_running (h : m.Closes task serial x m') {e : Atom × Entry}
    (he : e ∈ m'.tasks.running) :
    (e ∈ m.tasks.running ∧ e ≠ (task, .live serial)) ∨
      (x = .stranded ∧ e = (task, .stranded serial)) := by
  rw [h.tasks] at he
  cases x with
  | settled o =>
    rw [Closed, (Tasks.settle_same ..).1] at he
    obtain ⟨he, hne⟩ := List.mem_filter.mp he
    refine .inl ⟨he, ?_⟩
    rintro rfl
    simp at hne
  | stranded =>
    rcases Tasks.mem_amend he with hin | heq
    · exact .inl hin
    · exact .inr ⟨rfl, heq⟩

end Closes

/-! ### Steps -/

def ending? (m : Machine) : Option (Nat × Fate) :=
  match m.jobs with
  | ⟨o, .settle _ serial :: _⟩ :: _ => some (serial, .settled o)
  | ⟨.error _, .strand :: .settle _ serial :: _⟩ :: _ => some (serial, .stranded)
  | _ => none

lemma Delivering.off {j : Job} {rest : List Job} (h : m.Delivering R) (hj : m.jobs = j :: rest) :
    ({ m with jobs := rest } : Machine).Delivering R :=
  { h with jobs := fun i hi => h.jobs i (hj ▸ List.mem_cons_of_mem _ hi) }

lemma Delivering.leads {j : Job} {rest : List Job} (h : m.Delivering R) (hj : m.jobs = j :: rest) :
    Leads R { m with jobs := rest } j m.step := by
  rw [step_of_jobs hj]
  exact leads_perform (h.jobs j (hj ▸ List.mem_cons_self ..))

/-- **A step keeps every task to what it can come to.** -/
lemma Delivering.step (h : m.Delivering R) : m.step.Delivering R := by
  cases hj : m.jobs with
  | cons j rest =>
    have hoff := h.off hj
    have hleads := h.leads hj
    generalize m.step = m' at hleads
    cases hleads with
    | hand _ _ next => exact hoff.resume next
    | advance next => exact hoff.advance next
    | take next => exact hoff.recv _ next
    | settle => exact (closes_settle ..).delivering hoff
    | strand => exact (closes_strand ..).delivering hoff
    | report => exact { hoff with }
  | nil =>
    cases hp : m.parked with
    | nil =>
      rw [step_of_quiet (by simp [quiet, hj, hp])]
      exact h
    | cons k rest =>
      rw [step_of_parked hj hp]
      have hparked := h.parked
      rw [hp, List.forall_mem_cons] at hparked
      exact { h with jobs := by simpa using hparked.1, parked := hparked.2 }

lemma Delivering.ending {serial : Nat} {x : Fate} (h : m.Delivering R)
    (he : m.ending? = some (serial, x)) : R serial x := by
  unfold ending? at he
  split at he
  · next o task s k rest hj =>
    cases he
    have hjob := h.jobs _ (hj ▸ List.mem_cons_self ..)
    cases k with
    | nil => exact hjob
    | cons => exact hjob.elim
  · next f task s k rest hj =>
    cases he
    have hjob := h.jobs _ (hj ▸ List.mem_cons_self ..)
    obtain ⟨task', s', heq, hR⟩ := Stack.Delivers.of_stranded hjob
    cases heq
    exact hR
  · cases he

lemma Delivering.jobs_step {j : Job} {rest : List Job} (h : m.Delivering R)
    (hj : m.jobs = j :: rest) : rest <+: m.step.jobs := by
  change ({ m with jobs := rest } : Machine).jobs <+: m.step.jobs
  have hleads := h.leads hj
  generalize m.step = m' at hleads
  cases hleads with
  | hand => exact (adds_resume ..).jobs
  | advance => exact (adds_advance ..).jobs
  | take => exact (adds_recv ..).jobs
  | settle =>
    rw [(closes_settle ..).jobs]
    exact List.prefix_append ..
  | strand =>
    rw [(closes_strand ..).jobs]
    exact List.prefix_append ..
  | report => exact List.prefix_rfl

/-- What a step means for tasks and requests: nothing, or one of them has ended. -/
inductive Upshot (m m' : Machine) : Prop
  | move (bottoms : m'.bottoms = m.bottoms) (awaiting : m'.awaiting = m.awaiting)
    (events : m'.events = m.events) (tasks : m'.tasks = m.tasks) (policy : m'.policy = m.policy)
    (ending : m.ending? = none)
  | close {task : Atom} {serial : Nat} {x : Fate} {j : Job} {rest : List Job}
    (jobs : m.jobs = j :: rest) (bottom : j.stack.bottom = .settle task serial)
    (ending : m.ending? = some (serial, x))
    (closes : Closes { m with jobs := rest } task serial x m')
  | report {tag : Nat} {o : Outcome} {rest : List Job}
    (jobs : m.jobs = ⟨o, [.report tag]⟩ :: rest)
    (reports : m' = ({ m with jobs := rest } : Machine).report tag o)

lemma Upshot.of_adds {j : Job} {rest : List Job} (hj : m.jobs = j :: rest)
    (hadds : Adds { m with jobs := rest } m')
    (hb : m'.bottoms = {j.stack.bottom} + ({ m with jobs := rest } : Machine).bottoms)
    (hending : m.ending? = none) : Upshot m m' :=
  .move (hb.trans (bottoms_of_jobs hj).symm) hadds.awaiting hadds.events hadds.tasks hadds.policy
    hending

lemma Delivering.upshot (h : m.Delivering R) : Upshot m m.step := by
  cases hj : m.jobs with
  | cons j rest =>
    have hleads := h.leads hj
    generalize m.step = m' at hleads
    cases hleads with
    | @hand f k o above plain next =>
      have hending : m.ending? = none := by
        unfold ending?
        rw [hj]
        cases f with
        | settle | report => exact absurd trivial above
        | strand => exact absurd rfl plain
        | _ => rfl
      refine .of_adds hj (adds_resume ..) ?_ hending
      rw [bottoms_resume, Stack.bottom_cons next.ne_nil]
    | @advance n e k v next =>
      -- it ends in some way, so there is something below
      have hk : k ≠ [] := (next _ (e.exists_gives m.policy n).choose_spec).ne_nil
      refine .of_adds hj (adds_advance ..) ?_ (by simp [ending?, hj])
      rw [bottoms_advance _ _ _ hk, Stack.bottom_cons hk]
    | @take q k v next =>
      refine .of_adds hj (adds_recv ..) ?_ (by simp [ending?, hj])
      rw [bottoms_recv, Stack.bottom_cons (next v).ne_nil]
    | settle => exact .close hj rfl (by simp [ending?, hj]) (closes_settle ..)
    | strand => exact .close hj rfl (by simp [ending?, hj]) (closes_strand ..)
    | report => exact .report hj rfl
  | nil =>
    have hending : m.ending? = none := by simp [ending?, hj]
    -- with no job left, one that has let others go first goes on
    cases hp : m.parked with
    | nil =>
      rw [step_of_quiet (by simp [quiet, hj, hp])]
      exact .move rfl rfl rfl rfl rfl hending
    | cons k rest =>
      rw [step_of_parked hj hp]
      have hplaces : ({ m with parked := rest, jobs := [⟨.ok .unit, k⟩] } : Machine).places =
          m.places := by
        unfold places
        rw [hj, hp, ← Multiset.cons_coe]
        rfl
      exact .move (by rw [bottoms, hplaces]; rfl) rfl rfl rfl rfl hending

end Machine

end Parley
