import Parley.Proofs.Hosting

/-!
A host makes requests of a machine, one after another, starts tasks under names of its choice,
the same name again if it likes, and lets the machine take steps in between. Every process
belongs to one task or one request, and each of them has one process until it ends.
-/

namespace Parley

/-! ### Hosts -/

namespace Operation

/-- The request takes time and reports its outcome. -/
def reports : Operation → Bool
  | .recv .. | .await .. | .countSteps .. => true
  | _ => false

def numbered (i : Nat) : Operation → Operation
  | .recv q _ => .recv q i
  | .await task _ => .await task i
  | .countSteps n _ => .countSteps n i
  | o => o

end Operation

inductive Host.Act
  /-- Makes a request. -/
  | ask (o : Operation) (starts : o.Starts)
  /-- Gives back a task from the function that was called last, and keeps its end in hand. -/
  | entrust
  /-- Ends a task whose end it has in hand. -/
  | decide (serial : Nat) (e : Ending)
  /-- Lets the machine take a step, unless a function is being called. -/
  | step

/-- A machine and what its host knows. Tasks go by their serial numbers. -/
structure Host where
  machine : Machine
  /-- Requests made that report. -/
  requests : Nat := 0
  /-- Tasks whose end is in the hands of the host, and their names. -/
  undecided : Table Nat Atom := []
  /-- What tasks were given to do. -/
  works : Table Nat (Nat × Ending) := []
  /-- How tasks have ended. -/
  ends : Table Nat Fate := []

namespace Host

def keep (h : Host) (serial : Nat) (task : Atom) : Host :=
  { h with
    machine := { h.machine with tasks := h.machine.tasks.engage task serial }
    undecided := h.undecided ++ [(serial, task)] }

def finish (h : Host) (serial : Nat) (task : Atom) (e : Ending) : Host :=
  { h with
    machine := h.machine.advance 0 e [.settle task serial]
    undecided := Table.erase h.undecided serial
    works := h.works ++ [(serial, 0, e)] }

def work (h : Host) : Host :=
  { h with
    machine := h.machine.step
    ends := h.ends ++ h.machine.ending?.toList }

def act (h : Host) : Act → Host
  | .ask o _ =>
    { h with
      machine := (h.machine.operate (o.numbered h.requests)).1
      requests := if o.reports then h.requests + 1 else h.requests
      works := h.works ++ (h.machine.given? o).toList }
  | .entrust =>
    match h.machine.tasks.calls with
    | (task, serial) :: _ => h.keep serial task
    | [] => h
  | .decide serial e =>
    match Table.find? h.undecided serial with
    | some task => h.finish serial task e
    | none => h
  | .step => if h.machine.tasks.calls = [] then h.work else h

def Act.Works (a : Act) (h : Host) : Prop := a = .step ∧ h.machine.tasks.calls = []

def run (policy : Policy) (acts : List Act) : Host := acts.foldl act { machine := { policy } }

/-- The host after so many acts of a sequence without end. -/
def along (h : Host) (acts : Nat → Act) : Nat → Host
  | 0 => h
  | n + 1 => (along h acts n).act (acts n)

end Host

/-! ### Whose processes they are -/

inductive Party
  | task (serial : Nat)
  | request (tag : Nat)
  | nobody

def Frame.party : Frame → Party
  | .settle _ serial => .task serial
  | .report tag => .request tag
  | _ => .nobody

def Job.fate : Job → Fate
  | ⟨.error _, .strand :: _⟩ => .stranded
  | ⟨o, _⟩ => .settled o

namespace Host

variable {h h' : Host} {new : Multiset Frame} {s i n : Nat} {o : Outcome}

/-- The bottoms of those that have not ended, with the tasks in the hands of the host and those
whose functions are being called. -/
def active (h : Host) : Multiset Frame :=
  h.machine.bottoms + h.undecided.map (fun t => Frame.settle t.2 t.1) +
    h.machine.tasks.calls.map fun c => Frame.settle c.1 c.2

def ended (h : Host) : Multiset Party :=
  h.ends.map (fun e => Party.task e.1) + h.machine.events.toList.map fun e => Party.request e.tag

def parties (h : Host) : Multiset Party := h.active.map Frame.party + h.ended

def claims (h : Host) : Multiset Party := (Multiset.range h.requests).map .request

/-- The parties there have been: every task and every request that reports. -/
def roll (h : Host) : Multiset Party :=
  (Multiset.range h.machine.tasks.started).map .task + h.claims

/-- The same parties, tasks by whether they were given something to do. -/
def tally (h : Host) : Multiset Party :=
  h.works.map (fun w => Party.task w.1) + h.undecided.map (fun t => Party.task t.1) +
    h.machine.tasks.calls.map (fun c => Party.task c.2) + h.claims

lemma nodup_roll (h : Host) : h.roll.Nodup := by
  refine Multiset.nodup_add.mpr ⟨?_, ?_, ?_⟩
  · exact (Multiset.nodup_range _).map fun a b hab => Party.task.inj hab
  · exact (Multiset.nodup_range _).map fun a b hab => Party.request.inj hab
  · rw [Multiset.disjoint_left]
    intro p hp hq
    obtain ⟨a, -, rfl⟩ := Multiset.mem_map.mp hp
    obtain ⟨b, -, hb⟩ := Multiset.mem_map.mp hq
    cases hb

def idle (k : Stack) : Party × Option Fate := (k.bottom.party, none)

/-- Each party with the end that is on its way to it, or that it has come to. -/
def standing (h : Host) : Multiset (Party × Option Fate) :=
  Multiset.ofList (h.machine.jobs.map fun j => (j.stack.bottom.party, some j.fate)) +
    (h.machine.parked + h.machine.waiters).map idle + h.machine.awaiting.map (fun w => idle w.2) +
    h.undecided.map (fun t => idle [.settle t.2 t.1]) +
    h.machine.tasks.calls.map (fun c => idle [.settle c.1 c.2]) +
    h.ends.map (fun e => (Party.task e.1, some e.2)) +
    h.machine.events.toList.map fun e => (Party.request e.tag, some (Fate.settled e.outcome))

lemma map_standing (h : Host) : h.standing.map (·.1) = h.parties := by
  unfold standing parties active ended Machine.bottoms Machine.places
  simp only [Multiset.map_add, Multiset.map_coe, List.map_map, Multiset.map_map]
  simp only [Function.comp_def, idle, Stack.bottom_singleton]
  abel

/-- An entry tells the truth: a task that can be waited for has not ended, one that cannot yet is
being called, and one that never can has been stranded. -/
def Entered (h : Host) : Atom × Entry → Prop
  | (task, .live serial) => .settle task serial ∈ h.active
  | (task, .unready serial) => (task, serial) ∈ h.machine.tasks.calls
  | (_, .stranded serial) => (serial, .stranded) ∈ h.ends

/-! ### What acts do -/

lemma coe_map_cons {α β : Type} (f : α → β) (a : α) (l : List α) :
    Multiset.ofList ((a :: l).map f) = {f a} + Multiset.ofList (l.map f) := rfl

lemma coe_map_concat {α β : Type} (f : α → β) (a : α) (l : List α) :
    Multiset.ofList ((l ++ [a]).map f) = {f a} + Multiset.ofList (l.map f) := by
  rw [List.map_append, ← Multiset.coe_add, add_comm]
  rfl

/-- What an act that is no step does: nothing is taken away, and jobs come behind the others. -/
structure Grows (h h' : Host) (new : Multiset Frame) : Prop where
  jobs : h.machine.jobs <+: h'.machine.jobs
  awaiting : h.machine.awaiting <+: h'.machine.awaiting
  events : h'.machine.events = h.machine.events
  policy : h'.machine.policy = h.machine.policy
  ends : h'.ends = h.ends
  active : h'.active = new + h.active
  entered : (∀ e ∈ h.machine.tasks.running, h.Entered e) →
    ∀ e ∈ h'.machine.tasks.running, h'.Entered e
  roll : h'.roll = new.map Frame.party + h.roll
  tally : h'.tally = new.map Frame.party + h.tally

lemma Entered.mono {e : Atom × Entry} (he : h.Entered e) (ha : h.active ≤ h'.active)
    (hc : h.machine.tasks.calls ⊆ h'.machine.tasks.calls) (hends : h'.ends = h.ends) :
    h'.Entered e := by
  obtain ⟨task, entry⟩ := e
  cases entry with
  | live s => exact Multiset.mem_of_le ha he
  | unready s => exact hc he
  | stranded s =>
    change (s, Fate.stranded) ∈ h'.ends
    rw [hends]
    exact he

/-- What changes neither the books nor what the host has in hand. -/
lemma Grows.of_adds (ha : h.machine.Adds h'.machine)
    (hb : h'.machine.bottoms = new + h.machine.bottoms) (hu : h'.undecided = h.undecided)
    (hw : h'.works = h.works) (he : h'.ends = h.ends)
    (hr : h'.claims = new.map Frame.party + h.claims) : h.Grows h' new := by
  have hactive : h'.active = new + h.active := by
    rw [Host.active, hb, hu, ha.tasks, add_assoc, add_assoc, ← add_assoc h.machine.bottoms]
    rfl
  exact {
    jobs := ha.jobs
    awaiting := ha.awaiting ▸ List.prefix_rfl
    events := ha.events
    policy := ha.policy
    ends := he
    active := hactive
    entered := fun hin e hm => (hin e (ha.tasks ▸ hm)).mono (hactive ▸ Multiset.le_add_left ..)
      (ha.tasks ▸ List.Subset.refl _) he
    roll := by rw [Host.roll, ha.tasks, hr, add_left_comm]; rfl
    tally := by rw [Host.tally, hw, hu, ha.tasks, hr, add_left_comm]; rfl }

lemma Grows.refl (h : Host) : h.Grows h 0 :=
  .of_adds ⟨List.prefix_rfl, rfl, rfl, rfl, rfl⟩ (zero_add _).symm rfl rfl rfl (zero_add _).symm

lemma claims_same (hr : h'.requests = h.requests) :
    h'.claims = (0 : Multiset Frame).map Frame.party + h.claims := by
  rw [claims, hr, Multiset.map_zero, zero_add, claims]

lemma claims_succ (hr : h'.requests = h.requests + 1) :
    h'.claims = ({.report h.requests} : Multiset Frame).map Frame.party + h.claims := by
  rw [claims, hr, Multiset.range_succ, Multiset.map_cons]
  rfl

lemma grows_spawn (h : Host) (task : Atom) :
    h.Grows (h.act (.ask (.spawn task) trivial)) {.settle task h.machine.tasks.started} := by
  have hcalls : (h.act (.ask (.spawn task) trivial)).machine.tasks.calls =
    (task, h.machine.tasks.started) :: h.machine.tasks.calls := rfl
  have hworks : (h.act (.ask (.spawn task) trivial)).works = h.works := List.append_nil _
  have hactive : (h.act (.ask (.spawn task) trivial)).active =
      {.settle task h.machine.tasks.started} + h.active := by
    rw [active, hcalls, coe_map_cons, add_left_comm]
    rfl
  refine ⟨List.prefix_rfl, List.prefix_rfl, rfl, rfl, rfl, hactive, fun hin e he => ?_, ?_, ?_⟩
  · rcases Table.mem_set he with he | rfl
    · exact (hin e he).mono (hactive ▸ Multiset.le_add_left ..) (List.subset_cons_self ..) rfl
    · exact List.mem_cons_self ..
  · rw [roll]
    change (Multiset.range (h.machine.tasks.started + 1)).map Party.task + h.claims = _
    rw [Multiset.range_succ, Multiset.map_cons, Multiset.cons_add]
    rfl
  · rw [tally, hworks, hcalls, coe_map_cons, add_left_comm, add_assoc]
    rfl

/-- The entry of a task that has been given back is true, and so are the others. -/
lemma entered_engage {task : Atom} {calls : List (Atom × Nat)}
    (hc : h.machine.tasks.calls = (task, s) :: calls)
    (ht : h'.machine.tasks = h.machine.tasks.engage task s) (hactive : h'.active = h.active)
    (he : h'.ends = h.ends) (hin : ∀ e ∈ h.machine.tasks.running, h.Entered e) :
    ∀ e ∈ h'.machine.tasks.running, h'.Entered e := by
  have hcalls : h'.machine.tasks.calls = calls := by
    rw [ht]
    exact congrArg List.tail hc
  have hhead : .settle task s ∈ h.active := by
    refine Multiset.mem_add.mpr (.inr (Multiset.mem_coe.mpr (List.mem_map.mpr ⟨(task, s), ?_, rfl⟩)))
    rw [hc]
    exact List.mem_cons_self ..
  intro e hm
  rw [ht] at hm
  -- an entry that was there before, or that of the task itself
  rcases Tasks.mem_amend hm with ⟨hm, hne⟩ | rfl
  · have htrue := hin e hm
    obtain ⟨name, entry⟩ := e
    cases entry with
    | live i => exact Multiset.mem_of_le hactive.ge htrue
    | stranded i =>
      change (i, Fate.stranded) ∈ h'.ends
      rw [he]
      exact htrue
    | unready i =>
      change (name, i) ∈ h'.machine.tasks.calls
      rw [hcalls]
      change (name, i) ∈ h.machine.tasks.calls at htrue
      rw [hc] at htrue
      -- the innermost call is over, and its entry is not this one
      refine (List.mem_cons.mp htrue).resolve_left ?_
      rintro ⟨⟩
      exact hne rfl
  · exact Multiset.mem_of_le hactive.ge hhead

lemma grows_giveBack (h : Host) (n : Nat) (e : Ending) :
    h.Grows (h.act (.ask (.giveBack (.steps n e)) trivial)) 0 := by
  cases hc : h.machine.tasks.calls with
  | nil =>
    have hact : h.act (.ask (.giveBack (.steps n e)) trivial) = h := by
      simp [act, Operation.numbered, Operation.reports, Machine.operate, Machine.giveBack,
        Machine.given?, hc]
    exact hact.symm ▸ .refl h
  | cons c calls =>
    obtain ⟨task, serial⟩ := c
    set m : Machine := { h.machine with tasks := h.machine.tasks.engage task serial } with hm
    have hact : h.act (.ask (.giveBack (.steps n e)) trivial) =
        { h with
          machine := m.advance n e [.settle task serial]
          works := h.works ++ [(serial, n, e)] } := by
      simp [act, Operation.numbered, Operation.reports, Machine.operate, Machine.giveBack,
        Machine.given?, hc, hm]
    rw [hact]
    have hadds := m.adds_advance n e [.settle task serial]
    have hbottoms := m.bottoms_advance n e (k := [.settle task serial]) (by simp)
    have htail : (m.advance n e [.settle task serial]).tasks.calls = calls := by
      rw [hadds.tasks]
      exact congrArg List.tail hc
    have hactive : ({ h with
        machine := m.advance n e [.settle task serial]
        works := h.works ++ [(serial, n, e)] } : Host).active = h.active := by
      simp only [active]
      rw [hbottoms, htail, hc, coe_map_cons]
      change {Frame.settle task serial} + h.machine.bottoms + _ + _ = _
      abel
    refine ⟨hadds.jobs, hadds.awaiting ▸ List.prefix_rfl, hadds.events, hadds.policy, rfl,
      hactive.trans (zero_add _).symm, entered_engage hc hadds.tasks hactive rfl, ?_, ?_⟩
    · simp only [roll]
      rw [hadds.tasks, Multiset.map_zero, zero_add]
      rfl
    · simp only [tally]
      rw [htail, hc, coe_map_concat, coe_map_cons, Multiset.map_zero]
      change _ + _ + _ + h.claims = _
      abel

/-- The end of a task goes from a function to the hands of the host. -/
lemma grows_keep {task : Atom} {calls : List (Atom × Nat)}
    (hc : h.machine.tasks.calls = (task, s) :: calls) : h.Grows (h.keep s task) 0 := by
  have htail : (h.keep s task).machine.tasks.calls = calls := congrArg List.tail hc
  have hundecided : (h.keep s task).undecided = h.undecided ++ [(s, task)] := rfl
  have hactive : (h.keep s task).active = h.active := by
    simp only [active]
    rw [htail, hundecided, hc, coe_map_concat, coe_map_cons]
    change h.machine.bottoms + _ + _ = _
    abel
  refine ⟨List.prefix_rfl, List.prefix_rfl, rfl, rfl, rfl, hactive.trans (zero_add _).symm,
    entered_engage hc rfl hactive rfl, (zero_add _).symm, ?_⟩
  simp only [tally]
  rw [htail, hundecided, hc, coe_map_concat, coe_map_cons, Multiset.map_zero]
  change Multiset.ofList (h.works.map _) + _ + _ + h.claims = _
  abel

lemma grows_await (h : Host) (task : Atom) (tag : Nat) :
    h.Grows (h.act (.ask (.await task tag) trivial)) {.report h.requests} := by
  set h' := h.act (.ask (.await task tag) trivial) with hact
  have hmachine : h'.machine = h.machine.await task [.report h.requests] := rfl
  have hworks : h'.works = h.works := List.append_nil _
  -- the request waits for a task, or its answer is on its way
  rcases h.machine.await_cases task [.report h.requests] with ⟨s, hm⟩ | ⟨l, o, hl, hm⟩
  · have htasks : h'.machine.tasks = h.machine.tasks := by rw [hmachine, hm]
    have hbottoms : h'.machine.bottoms = {.report h.requests} + h.machine.bottoms := by
      rw [hmachine, hm]
      unfold Machine.bottoms
      rw [List.map_append, ← Multiset.coe_add, add_comm {_}, ← add_assoc]
      rfl
    have hactive : h'.active = {.report h.requests} + h.active := by
      rw [active, hbottoms, htasks, add_assoc, add_assoc, ← add_assoc h.machine.bottoms]
      rfl
    refine ⟨?_, ?_, ?_, ?_, rfl, hactive, fun hin e he => ?_, ?_, ?_⟩
    · rw [hmachine, hm]
    · rw [hmachine, hm]
      exact List.prefix_append ..
    · rw [hmachine, hm]
    · rw [hmachine, hm]
    · exact (hin e (htasks ▸ he)).mono (hactive ▸ Multiset.le_add_left ..)
        (htasks ▸ List.Subset.refl _) rfl
    · rw [roll, htasks, claims_succ (h := h) rfl, add_left_comm]
      rfl
    · rw [tally, htasks, hworks, claims_succ (h := h) rfl, add_left_comm]
      rfl
  · have hadds := h.machine.adds_resume l o
    rw [← hm, ← hmachine] at hadds
    refine .of_adds hadds ?_ rfl hworks rfl (claims_succ rfl)
    rw [hmachine, hm, Machine.bottoms_resume]
    rcases hl with rfl | rfl <;> rfl

lemma grows_ask (h : Host) (o : Operation) (hs : o.Starts) :
    ∃ new, h.Grows (h.act (.ask o hs)) new := by
  cases o with
  | newQueue | newChannel | isComplete =>
    exact ⟨0, .of_adds ⟨List.prefix_rfl, rfl, rfl, rfl, rfl⟩ (zero_add _).symm rfl
      (List.append_nil _) rfl (claims_same rfl)⟩
  | nextName =>
    -- the books change, but in nothing that is spoken of here
    refine ⟨0, List.prefix_rfl, List.prefix_rfl, rfl, rfl, rfl, (zero_add _).symm, fun hin e he => ?_,
      (zero_add _).symm, ?_⟩
    · exact (hin e he).mono le_rfl (List.Subset.refl _) rfl
    · rw [Multiset.map_zero, zero_add, tally]
      change Multiset.ofList ((h.works ++ []).map _) + _ + _ + _ = _
      rw [List.append_nil]
      rfl
  | send q v =>
    exact ⟨0, .of_adds (Machine.adds_send ..) ((Machine.bottoms_send ..).trans (zero_add _).symm)
      rfl (List.append_nil _) rfl (claims_same rfl)⟩
  | tryRecv q =>
    exact ⟨0, .of_adds ⟨List.prefix_rfl, rfl, rfl, rfl, rfl⟩
      ((Machine.bottoms_setQueue _ _ (Queue.waiting_tryRecv _)).trans (zero_add _).symm) rfl
      (List.append_nil _) rfl (claims_same rfl)⟩
  | recv q tag =>
    exact ⟨_, .of_adds (Machine.adds_recv ..) (Machine.bottoms_recv ..) rfl (List.append_nil _) rfl
      (claims_succ rfl)⟩
  | countSteps n tag =>
    exact ⟨_, .of_adds (Machine.adds_advance ..) (Machine.bottoms_advance _ _ _ (by simp)) rfl
      (List.append_nil _) rfl (claims_succ rfl)⟩
  | await task tag => exact ⟨_, grows_await h task tag⟩
  | spawn task => exact ⟨_, grows_spawn h task⟩
  | giveBack w =>
    cases w with
    | steps n e => exact ⟨_, grows_giveBack h n e⟩
    | stillborn f => exact hs.elim

/-- The end of a task goes from the hands of the host to those of the machine. -/
lemma grows_finish (hn : (h.undecided.map (·.1)).Nodup) {task : Atom}
    (hs : (s, task) ∈ h.undecided) (e : Ending) : h.Grows (h.finish s task e) 0 := by
  have hadds := Machine.adds_advance h.machine 0 e [.settle task s]
  have hbottoms := Machine.bottoms_advance h.machine 0 e (k := [.settle task s]) (by simp)
  have hperm := Table.perm_erase hn hs
  have hactive : (h.finish s task e).active = h.active := by
    simp only [active, finish]
    rw [hbottoms, hadds.tasks,
      Multiset.coe_eq_coe.mpr (hperm.map fun t => Frame.settle t.2 t.1), coe_map_cons]
    change {Frame.settle task s} + h.machine.bottoms + _ + _ = _
    abel
  refine ⟨hadds.jobs, hadds.awaiting ▸ List.prefix_rfl, hadds.events, hadds.policy, rfl,
    hactive.trans (zero_add _).symm, fun hin t ht => ?_, ?_, ?_⟩
  · exact (hin t (hadds.tasks ▸ ht)).mono hactive.ge (hadds.tasks ▸ List.Subset.refl _) rfl
  · simp only [roll, finish]
    rw [hadds.tasks, Multiset.map_zero, zero_add]
    rfl
  · simp only [tally, finish]
    rw [hadds.tasks, Multiset.coe_eq_coe.mpr (hperm.map fun t => Party.task t.1), coe_map_concat,
      coe_map_cons, Multiset.map_zero]
    change _ + _ + _ + h.claims = _
    abel

/-- What a step does: no process goes away but that of a party that ends, and who awaits a task
goes on doing so until it ends and is told then. -/
structure Shrinks (h h' : Host) (gone : Multiset Frame) : Prop where
  active : h.active = gone + h'.active
  ended : h'.ended = gone.map Frame.party + h.ended
  ends : h.ends <+: h'.ends
  events : h.machine.events.toList <+: h'.machine.events.toList
  awaiting : ∀ w ∈ h.machine.awaiting,
    (w ∈ h'.machine.awaiting ∧ ∀ task, .settle task w.1 ∉ gone) ∨
      ∃ x, (w.1, x) ∈ h'.ends ∧ ⟨x.told h.machine.policy, w.2⟩ ∈ h'.machine.jobs
  entered : (∀ e ∈ h.machine.tasks.running, h.Entered e) →
    ∀ e ∈ h'.machine.tasks.running, h'.Entered e
  started : h'.machine.tasks.started = h.machine.tasks.started
  calls : h'.machine.tasks.calls = h.machine.tasks.calls
  policy : h'.machine.policy = h.machine.policy

section Steps

variable {gone : Multiset Frame}

lemma active_of_bottoms (hu : h'.undecided = h.undecided)
    (hc : h'.machine.tasks.calls = h.machine.tasks.calls)
    (hb : h.machine.bottoms = gone + h'.machine.bottoms) : h.active = gone + h'.active := by
  rw [active, hb, ← hu, ← hc, add_assoc, add_assoc, ← add_assoc h'.machine.bottoms]
  rfl

/-- An entry stays true as long as it is not that of a task that goes away. -/
lemma Entered.of_gone {e : Atom × Entry} (he : h.Entered e) (ha : h.active = gone + h'.active)
    (hgone : ∀ s, e.2 = .live s → .settle e.1 s ∉ gone)
    (hc : h'.machine.tasks.calls = h.machine.tasks.calls) (hends : h.ends ⊆ h'.ends) :
    h'.Entered e := by
  obtain ⟨task, entry⟩ := e
  cases entry with
  | live s =>
    change _ ∈ h.active at he
    rw [ha] at he
    exact (Multiset.mem_add.mp he).resolve_left (hgone s rfl)
  | unready s =>
    change _ ∈ h'.machine.tasks.calls
    rw [hc]
    exact he
  | stranded s => exact hends he

lemma shrinks_close {task : Atom} {x : Fate} {j : Job} {rest : List Job}
    (hu : h'.undecided = h.undecided) (hends : h'.ends = h.ends ++ h.machine.ending?.toList)
    (hj : h.machine.jobs = j :: rest) (hbottom : j.stack.bottom = .settle task s)
    (hending : h.machine.ending? = some (s, x))
    (hcloses : Machine.Closes { h.machine with jobs := rest } task s x h'.machine) :
    h.Shrinks h' {.settle task s} := by
  rw [hending, Option.toList_some] at hends
  have hprefix : h.ends <+: h'.ends := hends ▸ List.prefix_append ..
  have hactive : h.active = {.settle task s} + h'.active := by
    refine active_of_bottoms hu hcloses.calls_eq ?_
    rw [Machine.bottoms_of_jobs hj, ← hcloses.bottoms_eq, hbottom]
  refine {
    active := hactive
    ended := ?_
    ends := hprefix
    events := hcloses.events ▸ List.prefix_rfl
    awaiting := fun w hw => ?_
    entered := fun hin e he => ?_
    started := hcloses.started_eq
    calls := hcloses.calls_eq
    policy := hcloses.policy }
  · rw [ended, hends, hcloses.events, coe_map_concat, add_assoc]
    rfl
  · -- it was this task, or another
    by_cases hserial : w.1 = s
    · refine .inr ⟨x, ?_, ?_⟩
      · rw [hends, hserial]
        exact List.mem_append_right _ (List.mem_singleton_self _)
      · rw [hcloses.jobs]
        refine List.mem_append_right _ (List.mem_map.mpr ⟨w, ?_, rfl⟩)
        exact List.mem_filter.mpr ⟨hw, decide_eq_true hserial⟩
    · refine .inl ⟨?_, fun t hmem => ?_⟩
      · rw [hcloses.awaiting]
        exact List.mem_filter.mpr ⟨hw, decide_eq_true hserial⟩
      · cases Multiset.mem_singleton.mp hmem
        exact hserial rfl
  · rcases hcloses.mem_running he with ⟨he, hne⟩ | ⟨rfl, rfl⟩
    · refine (hin e he).of_gone hactive (fun i hlive hmem => hne ?_) hcloses.calls_eq
        hprefix.subset
      obtain ⟨name, entry⟩ := e
      subst hlive
      cases Multiset.mem_singleton.mp hmem
      rfl
    · change (s, Fate.stranded) ∈ h'.ends
      rw [hends]
      exact List.mem_append_right _ (List.mem_singleton_self _)

lemma shrinks_report {rest : List Job} (hu : h'.undecided = h.undecided)
    (hends : h'.ends = h.ends ++ h.machine.ending?.toList)
    (hj : h.machine.jobs = ⟨o, [.report i]⟩ :: rest)
    (hreports : h'.machine = ({ h.machine with jobs := rest } : Machine).report i o) :
    h.Shrinks h' {.report i} := by
  have hending : h.machine.ending? = none := by rw [Machine.ending?, hj]
  have hevents : h'.machine.events.toList = h.machine.events.toList ++
      [⟨i, o, h.machine.steps, h.machine.tasks.running.length, h.machine.tasks.settled,
        h.machine.log.size⟩] := by
    rw [hreports, Machine.report, Array.toList_push]
  have htasks : h'.machine.tasks = h.machine.tasks := by rw [hreports]; rfl
  rw [hending, Option.toList_none, List.append_nil] at hends
  have hactive : h.active = {.report i} + h'.active := by
    refine active_of_bottoms hu (by rw [htasks]) ?_
    rw [Machine.bottoms_of_jobs hj, hreports]
    rfl
  refine {
    active := hactive
    ended := ?_
    ends := hends ▸ List.prefix_rfl
    events := hevents ▸ List.prefix_append ..
    awaiting := fun w hw => .inl ⟨hreports ▸ hw, fun t => by simp⟩
    entered := fun hin e he => ?_
    started := by rw [htasks]
    calls := by rw [htasks]
    policy := hreports ▸ rfl }
  · rw [ended, hends, hevents, coe_map_concat, add_left_comm]
    rfl
  · exact (hin e (htasks ▸ he)).of_gone hactive (fun _ _ => by simp) (by rw [htasks])
      (hends ▸ List.Subset.refl _)

lemma shrinks_work {R : Nat → Fate → Prop} (hd : h.machine.Delivering R) :
    ∃ gone, h.Shrinks h.work gone := by
  have hu : h.work.undecided = h.undecided := rfl
  have hends : h.work.ends = h.ends ++ h.machine.ending?.toList := rfl
  have hupshot : h.machine.Upshot h.work.machine := hd.upshot
  generalize h.work = h' at hu hends hupshot
  cases hupshot with
  | move bottoms awaiting events tasks policy ending =>
    rw [ending, Option.toList_none, List.append_nil] at hends
    have hactive : h.active = 0 + h'.active :=
      active_of_bottoms hu (by rw [tasks]) (by rw [bottoms, zero_add])
    refine ⟨0, {
      active := hactive
      ended := ?_
      ends := hends ▸ List.prefix_rfl
      events := events ▸ List.prefix_rfl
      awaiting := fun w hw => .inl ⟨awaiting ▸ hw, fun _ => Multiset.notMem_zero _⟩
      entered := fun hin e he => ?_
      started := by rw [tasks]
      calls := by rw [tasks]
      policy }⟩
    · rw [ended, hends, events, Multiset.map_zero, zero_add, ended]
    · exact (hin e (tasks ▸ he)).of_gone hactive (fun _ _ => Multiset.notMem_zero _) (by rw [tasks])
        (hends ▸ List.Subset.refl _)
  | close jobs bottom ending closes => exact ⟨_, shrinks_close hu hends jobs bottom ending closes⟩
  | report jobs reports => exact ⟨_, shrinks_report hu hends jobs reports⟩

end Steps

lemma act_entrust (h : Host) :
    (∃ task s calls, h.machine.tasks.calls = (task, s) :: calls ∧ h.act .entrust = h.keep s task) ∨
      h.act .entrust = h := by
  cases hc : h.machine.tasks.calls with
  | cons c calls => exact .inl ⟨c.1, c.2, calls, rfl, by simp only [act, hc]⟩
  | nil => exact .inr (by simp only [act, hc])

lemma act_decide (h : Host) (s : Nat) (e : Ending) :
    (∃ task, (s, task) ∈ h.undecided ∧ h.act (.decide s e) = h.finish s task e) ∨
      h.act (.decide s e) = h := by
  cases hs : Table.find? h.undecided s with
  | some task => exact .inl ⟨task, Table.mem_of_find? hs, by simp only [act, hs]⟩
  | none => exact .inr (by simp only [act, hs])

/-! ### What holds of every host -/

/-- A task can only come to what it was given to do. -/
def Owes (policy : Policy) (works : Table Nat (Nat × Ending)) (s : Nat) (x : Fate) : Prop :=
  ∃ w, (s, w) ∈ works ∧ w.2.Gives policy w.1 x

/-- Every process belongs to a party of its own. The entries of running tasks tell the truth, a
task in the hands of the host has nothing to do yet, and every other task does what it was given
to do. -/
structure Sound (h : Host) : Prop where
  parties : h.parties = h.roll
  entered : ∀ e ∈ h.machine.tasks.running, h.Entered e
  tally : h.tally = h.roll
  delivering : h.machine.Delivering (Owes h.machine.policy h.works)
  ends : ∀ e ∈ h.ends, Owes h.machine.policy h.works e.1 e.2

lemma Owes.mono {policy : Policy} {works works' : Table Nat (Nat × Ending)} (hw : works <+: works')
    (s : Nat) (x : Fate) (h : Owes policy works s x) : Owes policy works' s x :=
  h.imp fun _ hm => ⟨hw.subset hm.1, hm.2⟩

lemma sound_initial (policy : Policy) : Sound { machine := { policy } } where
  parties := rfl
  entered := by simp
  tally := rfl
  delivering := ⟨by simp, by simp, by simp [Machine.queue, Table.find?], by simp⟩
  ends := by simp

namespace Sound

lemma nodup_parties (hs : h.Sound) : h.parties.Nodup := hs.parties ▸ h.nodup_roll

lemma unique (hs : h.Sound) {p : Party} {x y : Option Fate} (hx : (p, x) ∈ h.standing)
    (hy : (p, y) ∈ h.standing) : x = y := by
  have hinj := Multiset.inj_on_of_nodup_map (h.map_standing ▸ hs.nodup_parties)
  exact congrArg Prod.snd (hinj _ hx _ hy rfl)

lemma nodup_of_tasks {α : Type} {l : List (Nat × α)}
    (hn : (Multiset.ofList (l.map fun e => Party.task e.1)).Nodup) : (l.map (·.1)).Nodup :=
  .of_map Party.task (by rw [List.map_map]; exact Multiset.coe_nodup.mp hn)

lemma nodup_given (hs : h.Sound) :
    (h.works.map (·.1)).Nodup ∧ (h.undecided.map (·.1)).Nodup := by
  have hnodup : h.tally.Nodup := hs.tally ▸ h.nodup_roll
  have htasks := (Multiset.nodup_add.mp (Multiset.nodup_add.mp hnodup).1).1
  have hgiven := Multiset.nodup_add.mp htasks
  exact ⟨nodup_of_tasks hgiven.1, nodup_of_tasks hgiven.2.1⟩

lemma nodup_ends (hs : h.Sound) : (h.ends.map (·.1)).Nodup := by
  have hended := (Multiset.nodup_add.mp hs.nodup_parties).2.1
  exact nodup_of_tasks (Multiset.nodup_add.mp hended).1

lemma grow (hs : h.Sound) (hg : h.Grows h' new) (hw : h.works <+: h'.works)
    (hd : h'.machine.Delivering (Owes h.machine.policy h'.works)) : h'.Sound where
  parties := by
    rw [Host.parties, ended, hg.active, hg.ends, hg.events, hg.roll, ← hs.parties, Host.parties,
      Multiset.map_add, add_assoc, ended]
  entered := hg.entered hs.entered
  tally := by rw [hg.tally, hs.tally, hg.roll]
  delivering := hg.policy ▸ hd
  ends e he := by
    rw [hg.ends] at he
    rw [hg.policy]
    exact (hs.ends e he).mono hw

lemma entrust (hs : h.Sound) : (h.act .entrust).Sound := by
  rcases h.act_entrust with ⟨task, s, calls, hc, heq⟩ | heq
  · rw [heq]
    exact hs.grow (grows_keep hc) List.prefix_rfl { hs.delivering with }
  · rwa [heq]

lemma finish (hs : h.Sound) {task : Atom} (hm : (s, task) ∈ h.undecided) (e : Ending) :
    (h.finish s task e).Sound := by
  have hw : h.works <+: (h.finish s task e).works := List.prefix_append ..
  refine hs.grow (grows_finish hs.nodup_given.2 hm e) hw ?_
  refine (hs.delivering.mono (Owes.mono hw)).advance (n := 0) (e := e) (k := [.settle task s])
    fun x hx => ?_
  exact ⟨(0, e), List.mem_append_right _ (List.mem_singleton_self _), hx⟩

lemma decide (hs : h.Sound) (s : Nat) (e : Ending) : (h.act (.decide s e)).Sound := by
  rcases h.act_decide s e with ⟨task, hm, heq⟩ | heq
  · rw [heq]
    exact hs.finish hm e
  · rwa [heq]

lemma ask (hs : h.Sound) (o : Operation) (ho : o.Starts) : (h.act (.ask o ho)).Sound := by
  obtain ⟨new, hg⟩ := h.grows_ask o ho
  have hw : h.works <+: (h.act (.ask o ho)).works := List.prefix_append ..
  have hstarts : (o.numbered h.requests).Starts := by cases o <;> exact ho
  have hgiven : h.machine.given? (o.numbered h.requests) = h.machine.given? o := by
    cases o <;> rfl
  refine hs.grow hg hw ((hs.delivering.mono (Owes.mono hw)).operate hstarts ?_)
  intro s n e heq x hx
  refine ⟨(n, e), List.mem_append_right _ ?_, hx⟩
  rw [← hgiven, heq]
  exact List.mem_singleton_self _

/-- **A step keeps a host sound.** -/
lemma work (hs : h.Sound) : h.work.Sound := by
  obtain ⟨gone, hshrinks⟩ := shrinks_work hs.delivering
  have hroll : h.work.roll = h.roll := by
    rw [roll, hshrinks.started]
    rfl
  refine ⟨?_, hshrinks.entered hs.entered, ?_, ?_, ?_⟩
  · rw [Host.parties, hshrinks.ended, hroll, ← hs.parties, Host.parties, hshrinks.active,
      Multiset.map_add, ← add_assoc, add_comm (Multiset.map _ gone)]
  · rw [Host.tally, hshrinks.calls, hroll]
    exact hs.tally
  · rw [hshrinks.policy]
    exact hs.delivering.step
  · intro e he
    rw [hshrinks.policy]
    rcases List.mem_append.mp he with he | he
    · exact hs.ends e he
    · exact hs.delivering.ending (Option.mem_toList.mp he)

lemma act (hs : h.Sound) (a : Act) : (h.act a).Sound := by
  cases a with
  | ask o ho => exact hs.ask o ho
  | entrust => exact hs.entrust
  | decide s e => exact hs.decide s e
  | step =>
    simp only [Host.act]
    split
    · exact hs.work
    · exact hs

lemma foldl (hs : h.Sound) (acts : List Act) : (acts.foldl Host.act h).Sound := by
  induction acts generalizing h with
  | nil => exact hs
  | cons a acts ih => exact ih (hs.act a)

lemma along (hs : h.Sound) (acts : Nat → Act) (n : Nat) : (h.along acts n).Sound := by
  induction n with
  | zero => exact hs
  | succ n ih => exact ih.act (acts n)

/-- An act that does not let the machine work only adds. -/
lemma grows (hs : h.Sound) {a : Act} (ha : ¬ a.Works h) : ∃ new, h.Grows (h.act a) new := by
  cases a with
  | ask o ho => exact h.grows_ask o ho
  | entrust =>
    rcases h.act_entrust with ⟨task, s, calls, hc, heq⟩ | heq
    · exact ⟨0, heq ▸ grows_keep hc⟩
    · exact ⟨0, by rw [heq]; exact .refl h⟩
  | decide s e =>
    rcases h.act_decide s e with ⟨task, hm, heq⟩ | heq
    · exact ⟨0, heq ▸ grows_finish hs.nodup_given.2 hm e⟩
    · exact ⟨0, by rw [heq]; exact .refl h⟩
  | step =>
    have hcalls : h.machine.tasks.calls ≠ [] := fun hc => ha ⟨rfl, hc⟩
    simp only [Host.act, if_neg hcalls]
    exact ⟨0, .refl h⟩

/-- What acts that only add keep, and steps too, all acts keep. -/
lemma keep {P : Host → Prop} (hs : h.Sound) (hgrow : ∀ {h h' new}, Grows h h' new → P h → P h')
    (hwork : ∀ {h}, Sound h → P h → P h.work) (hp : P h) (a : Act) : P (h.act a) := by
  by_cases ha : a.Works h
  · obtain ⟨rfl, hc⟩ := ha
    simp only [Host.act, if_pos hc]
    exact hwork hs hp
  · obtain ⟨new, hg⟩ := hs.grows ha
    exact hgrow hg hp

lemma keep_along {P : Host → Prop} (hs : h.Sound)
    (hgrow : ∀ {h h' new}, Grows h h' new → P h → P h')
    (hwork : ∀ {h}, Sound h → P h → P h.work) (acts : Nat → Act) {n k : Nat} (hk : n ≤ k)
    (hp : P (h.along acts n)) : P (h.along acts k) := by
  induction k, hk using Nat.le_induction with
  | base => exact hp
  | succ k hk ih => exact (hs.along acts k).keep hgrow hwork ih (acts k)

lemma policy_act (hs : h.Sound) (a : Act) : (h.act a).machine.policy = h.machine.policy := by
  refine hs.keep (P := fun x => x.machine.policy = h.machine.policy)
    (fun hg hp => hg.policy.trans hp) (fun hs hp => ?_) rfl a
  obtain ⟨gone, hshrinks⟩ := shrinks_work hs.delivering
  exact hshrinks.policy.trans hp

end Sound

lemma sound_run (policy : Policy) (acts : List Act) : (run policy acts).Sound :=
  (sound_initial policy).foldl acts

lemma policy_run (policy : Policy) (acts : List Act) :
    (run policy acts).machine.policy = policy := by
  induction acts using List.reverseRecOn with
  | nil => rfl
  | append_singleton acts a ih =>
    have hrun : run policy (acts ++ [a]) = (run policy acts).act a := by
      simp [run, List.foldl_append]
    rw [hrun, (sound_run policy acts).policy_act, ih]

end Host

end Parley
