import Parley.Proofs.Observation
import Parley.Proofs.Turn

/-!
Two machines side by side.

A tie says which values, faults and stacks of the one machine correspond to which of the other.
Machines whose contents correspond stay so while they do corresponding things, whatever the tie
is: this is shown here for every operation of the machine, for turns, and for the job that is
next. What is left for a tie of one's own is to show that the frames it relates take turns that
correspond. A tie may hold between a machine and itself, and is then something that the run of
one machine keeps.
-/

namespace Parley

/-- What is held to correspond between two machines. -/
structure Tie where
  value : Value → Value → Prop
  fault : Fault → Fault → Prop
  stack : Stack → Stack → Prop
  /-- The lists of jobs as wholes, since one machine may have a job that the other has not. -/
  jobs : List Job → List Job → Prop
  events : Array Event → Array Event → Prop

/-! ### What corresponds -/

/-- Tables with the same keys in the same order and values that correspond. -/
abbrev Table.Tied {κ α : Type} (R : α → α → Prop) (t t' : Table κ α) : Prop :=
  List.Forall₂ (fun e e' => e.1 = e'.1 ∧ R e.2 e'.2) t t'

namespace Table.Tied

variable {κ α : Type} [DecidableEq κ] {R : α → α → Prop} {t t' : Table κ α}

lemma find? (h : Table.Tied R t t') (key : κ) :
    Option.Rel R (Table.find? t key) (Table.find? t' key) := by
  induction h with
  | nil => exact .none
  | @cons e e' _ _ he _ ih =>
    obtain ⟨n, a⟩ := e
    obtain ⟨n', a'⟩ := e'
    obtain ⟨rfl, ha⟩ : n = n' ∧ R a a' := he
    by_cases hn : n = key
    · simpa only [Table.find?, if_pos hn] using .some ha
    · simpa only [Table.find?, if_neg hn] using ih

omit [DecidableEq κ] in
lemma of_columns (hkeys : t'.map (·.1) = t.map (·.1))
    (h : List.Forall₂ R (t.map (·.2)) (t'.map (·.2))) : Table.Tied R t t' := by
  induction t generalizing t' with
  | nil =>
    obtain rfl : t' = [] := List.map_eq_nil_iff.mp hkeys
    exact .nil
  | cons e rest ih =>
    obtain ⟨e', rest', rfl, hkey, hrest⟩ := List.map_eq_cons_iff.mp hkeys
    obtain ⟨hval, hvals⟩ := List.forall₂_cons.mp h
    exact .cons ⟨hkey.symm, hval⟩ (ih hrest hvals)

lemma set (h : Table.Tied R t t') (key : κ) {a a' : α} (ha : R a a') :
    Table.Tied R (Table.set t key a) (Table.set t' key a') := by
  induction h with
  | nil => exact .cons ⟨rfl, ha⟩ .nil
  | @cons e e' rest rest' he hrest ih =>
    obtain ⟨n, b⟩ := e
    obtain ⟨n', b'⟩ := e'
    obtain ⟨rfl, hb⟩ : n = n' ∧ R b b' := he
    by_cases hn : n = key
    · simpa only [Table.set, if_pos hn] using .cons ⟨rfl, ha⟩ hrest
    · simpa only [Table.set, if_neg hn] using .cons ⟨rfl, hb⟩ ih

end Table.Tied

inductive Except.Tied {α : Type} (E : Fault → Fault → Prop) (R : α → α → Prop) :
    Except Fault α → Except Fault α → Prop
  | ok {a a' : α} (h : R a a') : Tied E R (.ok a) (.ok a')
  | error {f f' : Fault} (h : E f f') : Tied E R (.error f) (.error f')

namespace Tie

section

variable (T : Tie)

abbrev outcome : Outcome → Outcome → Prop := Except.Tied T.fault T.value

inductive note : Note → Note → Prop
  | enter (caption : String) : note (.enter caption) (.enter caption)
  | leave (caption : String) {v v' : Value} (h : T.value v v') :
      note (.leave caption v) (.leave caption v')
  | sent {v v' : Value} (h : T.value v v') (on : Endpoint) : note (.sent v on) (.sent v' on)
  | received {v v' : Value} (h : T.value v v') (on : Endpoint) :
      note (.received v on) (.received v' on)
  | finished (task : Atom) {v v' : Value} (h : T.value v v') :
      note (.finished task v) (.finished task v')
  | failed (task : Atom) {f f' : Fault} (h : T.fault f f') :
      note (.failed task f) (.failed task f')

structure queue (c c' : Queue Value Stack) : Prop where
  buffer : List.Forall₂ T.value c.buffer c'.buffer
  waiting : List.Forall₂ T.stack c.waiting c'.waiting

structure tasks (t t' : Tasks) : Prop where
  running : t'.running = t.running
  failures : Table.Tied T.fault t.failures t'.failures
  settled : t'.settled = t.settled
  named : t'.named = t.named
  started : t'.started = t.started

inductive deed : Deed → Deed → Prop
  | note {t t' : Note} (h : T.note t t') : deed (.note t) (.note t')
  | send (on : Endpoint) {v v' : Value} (h : T.value v v') : deed (.send on v) (.send on v')
  | fork {e e' : Expr} {env env' : Env} (h : ∀ task serial,
      T.stack [.eval e env, .settle task serial] [.eval e' env', .settle task serial]) :
      deed (.fork e env) (.fork e' env')
  | channel : deed .channel .channel

inductive sequel (k k' : Stack) : Sequel → Sequel → Prop
  | hand {fs fs' : Stack} {o o' : Outcome} (hk : T.stack (fs ++ k) (fs' ++ k'))
      (ho : T.outcome o o') : sequel k k' (.hand fs o) (.hand fs' o')
  | count {fs fs' : Stack} (hk : T.stack (fs ++ k) (fs' ++ k')) :
      sequel k k' (.count fs) (.count fs')
  | receive {on : Endpoint} (hk : T.stack (.received on :: k) (.received on :: k')) :
      sequel k k' (.receive on) (.receive on)

structure turn (k k' : Stack) (t t' : Turn) : Prop where
  deeds : List.Forall₂ T.deed t.deeds t'.deeds
  sequel : T.sequel k k' t.sequel t'.sequel

/-- Two jobs do corresponding things when they are performed. -/
inductive Meets : Job → Job → Prop
  | drop {o o' : Outcome} : Meets ⟨o, []⟩ ⟨o', []⟩
  | turn {f f' : Frame} {v v' : Value} {k k' : Stack} (hf : ¬ f.IsBottom) (hf' : ¬ f'.IsBottom)
      (h : ∀ tracing n, T.turn k k' (f.turn tracing n v) (f'.turn tracing n v')) :
      Meets ⟨.ok v, f :: k⟩ ⟨.ok v', f' :: k'⟩
  | fault {f f' : Frame} {e e' : Fault} {k k' : Stack} (hf : ¬ f.IsBottom) (hf' : ¬ f'.IsBottom)
      (hk : T.stack k k') (he : T.fault e e') : Meets ⟨.error e, f :: k⟩ ⟨.error e', f' :: k'⟩
  | settle {task : Atom} {serial : Nat} {o o' : Outcome} {k k' : Stack} (ho : T.outcome o o') :
      Meets ⟨o, .settle task serial :: k⟩ ⟨o', .settle task serial :: k'⟩
  | report {tag : Nat} {o o' : Outcome} {k k' : Stack}
      (h : ∀ {es es' : Array Event} (e e' : Event), T.events es es' → e'.counts = e.counts →
        e.outcome = o → e'.outcome = o' → T.events (es.push e) (es'.push e')) :
      Meets ⟨o, .report tag :: k⟩ ⟨o', .report tag :: k'⟩

structure Lawful : Prop where
  unit : T.value .unit .unit
  limit : ∀ a, T.fault (.stepLimitExceeded a) (.stepLimitExceeded a)
  showable : ∀ {v v'}, T.value v v' → v'.showable = v.showable
  /-- New jobs come last. -/
  append : ∀ {js js' o o' k k'}, T.jobs js js' → T.outcome o o' → T.stack k k' →
    T.jobs (js ++ [⟨o, k⟩]) (js' ++ [⟨o', k'⟩])

structure Refines (T' : Tie) : Prop where
  value : ∀ {v v'}, T.value v v' → T'.value v v'
  fault : ∀ {f f'}, T.fault f f' → T'.fault f f'
  stack : ∀ {k k'}, T.stack k k' → T'.stack k k'

end

lemma note.refines {T T' : Tie} (hT : T.Refines T') {t t' : Note} (h : T.note t t') :
    T'.note t t' := by
  cases h with
  | enter caption => exact .enter caption
  | leave caption h => exact .leave caption (hT.value h)
  | sent h on => exact .sent (hT.value h) on
  | received h on => exact .received (hT.value h) on
  | finished task h => exact .finished task (hT.value h)
  | failed task h => exact .failed task (hT.fault h)

lemma tasks.settle {T : Tie} {t t' : Tasks} (h : T.tasks t t') (p : Policy) (task : Atom)
    {o o' : Outcome} (ho : T.outcome o o') : T.tasks (t.settle p task o) (t'.settle p task o') := by
  obtain ⟨hrunning, hfailures, hsettled, hnamed, hstarted⟩ := h
  have hrest : Table.erase t'.running task = Table.erase t.running task := by rw [hrunning]
  have hcount : t'.settled + 1 = t.settled + 1 := by rw [hsettled]
  cases ho with
  | ok hv => exact ⟨hrest, hfailures, hcount, hnamed, hstarted⟩
  | error hf =>
    have hkept := hfailures.set task hf
    simp only [Tasks.settle, ← hkept.length_eq]
    split
    · exact ⟨hrest, hfailures, hcount, hnamed, hstarted⟩
    · refine ⟨hrest, ?_, hcount, hnamed, hstarted⟩
      simp only
      split
      · exact List.forall₂_drop 1 hkept
      · exact hkept

end Tie

namespace Machine

/-- Everything in two machines corresponds, and nobody waits for a task. -/
structure Tied (T : Tie) (m m' : Machine) : Prop where
  policy : m'.policy = m.policy
  jobs : T.jobs m.jobs m'.jobs
  parked : List.Forall₂ T.stack m.parked m'.parked
  steps : m'.steps = m.steps
  queues : Table.Tied T.queue m.queues m'.queues
  allocated : m'.allocated = m.allocated
  tasks : T.tasks m.tasks m'.tasks
  awaiting : m.awaiting = [] ∧ m'.awaiting = []
  log : List.Forall₂ T.note m.log.toList m'.log.toList
  events : T.events m.events m'.events

namespace Tied

variable {T : Tie} {m m' : Machine} {k k' : Stack}

/-- A change of the tie, while jobs come and go and reports are made. -/
lemma refines {T' : Tie} (hT : T.Refines T') (h : Tied T m m') {js js' : List Job}
    (hj : T'.jobs js js') {es es' : Array Event} (he : T'.events es es') :
    Tied T' { m with jobs := js, events := es } { m' with jobs := js', events := es' } :=
  { h with
    jobs := hj
    events := he
    parked := h.parked.imp fun _ _ => hT.stack
    queues := h.queues.imp fun _ _ hc => ⟨hc.1, hc.2.buffer.imp fun _ _ => hT.value,
      hc.2.waiting.imp fun _ _ => hT.stack⟩
    tasks := { h.tasks with failures := h.tasks.failures.imp fun _ _ he => ⟨he.1, hT.fault he.2⟩ }
    log := h.log.imp fun _ _ ht => ht.refines hT }

lemma fresh (policy : Policy) (hj : T.jobs [] []) (he : T.events #[] #[]) :
    Tied T { policy } { policy } where
  policy := rfl
  jobs := hj
  parked := .nil
  steps := rfl
  queues := .nil
  allocated := rfl
  tasks := ⟨rfl, .nil, rfl, rfl, rfl⟩
  awaiting := ⟨rfl, rfl⟩
  log := .nil
  events := he

/-! ### Operations -/

lemma resume (hT : T.Lawful) (h : Tied T m m') {o o' : Outcome} (hk : T.stack k k')
    (ho : T.outcome o o') : Tied T (m.resume k o) (m'.resume k' o') :=
  { h with jobs := hT.append h.jobs ho hk }

lemma note (h : Tied T m m') {t t' : Note} (ht : T.note t t') : Tied T (m.note t) (m'.note t') := by
  refine { h with log := ?_ }
  simpa only [Machine.note, Array.toList_push] using List.rel_append h.log (.cons ht .nil)

lemma trace (h : Tied T m m') {t t' : Note} (ht : T.note t t') :
    Tied T (m.trace t) (m'.trace t') := by
  unfold Machine.trace
  rw [h.policy]
  split
  · exact h.note ht
  · exact h

lemma canTrace (hT : T.Lawful) (h : Tied T m m') {v v' : Value} (hv : T.value v v') :
    m'.canTrace v' = m.canTrace v := by
  simp only [Machine.canTrace, h.policy, hT.showable hv]

lemma check (hT : T.Lawful) (h : Tied T m m') (hk : T.stack k k') :
    Tied T (m.check k) (m'.check k') := by
  have hcount : Tied T { m with steps := m.steps + 1 } { m' with steps := m'.steps + 1 } :=
    { h with steps := by simp only [h.steps] }
  have hforbids : m'.policy.forbids (m'.steps + 1) = m.policy.forbids (m.steps + 1) := by
    rw [h.policy, h.steps]
  have hpauses : m'.policy.pauses (m'.steps + 1) = m.policy.pauses (m.steps + 1) := by
    rw [h.policy, h.steps]
  simp only [Machine.check, hforbids, hpauses]
  split
  · refine hcount.resume hT hk (.error ?_)
    rw [h.policy]
    exact hT.limit _
  · split
    · exact { hcount with parked := List.rel_append h.parked (.cons hk .nil) }
    · exact hcount.resume hT hk (.ok hT.unit)

lemma queue (h : Tied T m m') (q : QueueId) : T.queue (m.queue q) (m'.queue q) := by
  have hq := h.queues.find? q
  unfold Machine.queue
  generalize Table.find? m.queues q = c, Table.find? m'.queues q = c' at hq
  cases hq with
  | some hc => exact hc
  | none => exact ⟨.nil, .nil⟩

lemma setQueue (h : Tied T m m') (q : QueueId) {c c' : Queue Value Stack} (hc : T.queue c c') :
    Tied T (m.setQueue q c) (m'.setQueue q c') :=
  { h with queues := h.queues.set q hc }

lemma send (hT : T.Lawful) (h : Tied T m m') (q : QueueId) {v v' : Value} (hv : T.value v v') :
    Tied T (m.send q v) (m'.send q v') := by
  obtain ⟨hbuffer, hwaiting⟩ := h.queue q
  cases hw : (m.queue q).waiting with
  | nil =>
    have hw' : (m'.queue q).waiting = [] := List.forall₂_nil_left_iff.mp (hw ▸ hwaiting)
    rw [send_of_nil v hw, send_of_nil v' hw']
    exact h.setQueue q ⟨List.rel_append hbuffer (.cons hv .nil), .nil⟩
  | cons k rest =>
    rw [hw] at hwaiting
    obtain ⟨k', rest', hk, hrest, hw'⟩ := List.forall₂_cons_left_iff.mp hwaiting
    have hc : T.queue ⟨(m.queue q).buffer, rest⟩ ⟨(m'.queue q).buffer, rest'⟩ := ⟨hbuffer, hrest⟩
    rw [send_of_cons v hw, send_of_cons v' hw']
    exact (h.setQueue q hc).resume hT hk (.ok hv)

lemma recv (hT : T.Lawful) (h : Tied T m m') (q : QueueId) (hk : T.stack k k') :
    Tied T (m.recv q k) (m'.recv q k') := by
  obtain ⟨hbuffer, hwaiting⟩ := h.queue q
  cases hb : (m.queue q).buffer with
  | nil =>
    have hb' : (m'.queue q).buffer = [] := List.forall₂_nil_left_iff.mp (hb ▸ hbuffer)
    rw [recv_of_nil k hb, recv_of_nil k' hb']
    exact h.setQueue q ⟨.nil, List.rel_append hwaiting (.cons hk .nil)⟩
  | cons v rest =>
    rw [hb] at hbuffer
    obtain ⟨v', rest', hv, hrest, hb'⟩ := List.forall₂_cons_left_iff.mp hbuffer
    have hc : T.queue ⟨rest, (m.queue q).waiting⟩ ⟨rest', (m'.queue q).waiting⟩ :=
      ⟨hrest, hwaiting⟩
    rw [recv_of_cons k hb, recv_of_cons k' hb']
    exact (h.setQueue q hc).resume hT hk (.ok hv)

lemma fork (hT : T.Lawful) (h : Tied T m m') {e e' : Expr} {env env' : Env}
    (hk : ∀ task serial,
      T.stack [.eval e env, .settle task serial] [.eval e' env', .settle task serial]) :
    Tied T (m.fork e env) (m'.fork e' env') := by
  obtain ⟨hrunning, hfailures, hsettled, hnamed, hstarted⟩ := h.tasks
  have hname : m'.tasks.nextName = m.tasks.nextName := by simp only [Tasks.nextName, hnamed]
  have henrolled : Tied T (m.nextName.2.register m.nextName.1).2
      (m'.nextName.2.register m'.nextName.1).2 := by
    refine { h with tasks := ⟨?_, hfailures, hsettled, ?_, ?_⟩ } <;>
      simp only [Machine.nextName, Machine.register, hname, hrunning, hnamed, hstarted]
  refine henrolled.check hT ?_
  show T.stack [.eval e env, .settle m.tasks.nextName m.tasks.started]
    [.eval e' env', .settle m'.tasks.nextName m'.tasks.started]
  rw [hname, hstarted]
  exact hk _ _

lemma newChannel (h : Tied T m m') : Tied T m.newChannel.2 m'.newChannel.2 :=
  { h with allocated := by simp only [Machine.newChannel, Machine.newQueue, h.allocated] }

lemma settle (hT : T.Lawful) (h : Tied T m m') (task : Atom) (serial : Nat) {o o' : Outcome}
    (ho : T.outcome o o') : Tied T (m.settle task serial o) (m'.settle task serial o') := by
  have hclosed : Tied T { m with tasks := m.tasks.settle m.policy task o }
      { m' with tasks := m'.tasks.settle m'.policy task o' } :=
    { h with tasks := by rw [h.policy]; exact h.tasks.settle m.policy task ho }
  rw [settle_of_nobody h.awaiting.1, settle_of_nobody h.awaiting.2]
  cases ho with
  | ok hv =>
    simp only [hclosed.canTrace hT hv]
    split
    · exact hclosed.trace (.finished task hv)
    · exact hclosed
  | error hf => exact hclosed.note (.failed task hf)

lemma report (h : Tied T m m') {tag : Nat} {o o' : Outcome}
    (he : ∀ {es es' : Array Event} (e e' : Event), T.events es es' → e'.counts = e.counts →
      e.outcome = o → e'.outcome = o' → T.events (es.push e) (es'.push e')) :
    Tied T (m.report tag o) (m'.report tag o') := by
  refine { h with events := he _ _ h.events ?_ rfl rfl }
  simp only [Event.counts, h.steps, h.tasks.running, h.tasks.settled, ← Array.length_toList,
    h.log.length_eq]

/-! ### Turns and jobs -/

lemma deed (hT : T.Lawful) (h : Tied T m m') {d d' : Deed} (hd : T.deed d d') :
    Tied T (d.apply m) (d'.apply m') := by
  cases hd with
  | note ht => exact h.trace ht
  | send on hv => exact (h.trace (.sent hv on)).send hT on.write hv
  | fork hk => exact h.fork hT hk
  | channel => exact h.newChannel

lemma deeds (hT : T.Lawful) (h : Tied T m m') {ds ds' : List Deed}
    (hds : List.Forall₂ T.deed ds ds') :
    Tied T (ds.foldl Deed.apply m) (ds'.foldl Deed.apply m') := by
  induction hds generalizing m m' with
  | nil => exact h
  | cons hd _ ih => exact ih (h.deed hT hd)

lemma sequel (hT : T.Lawful) (h : Tied T m m') {s s' : Sequel} (hs : T.sequel k k' s s') :
    Tied T (s.apply k m) (s'.apply k' m') := by
  cases hs with
  | hand hk ho => exact h.resume hT hk ho
  | count hk => exact h.check hT hk
  | receive hk => exact h.recv hT _ hk

/-- **Corresponding turns keep machines tied.** -/
theorem turn (hT : T.Lawful) (h : Tied T m m') {t t' : Turn} (ht : T.turn k k' t t') :
    Tied T (t.apply k m) (t'.apply k' m') :=
  (h.deeds hT ht.deeds).sequel hT ht.sequel

/-- **Jobs that meet keep machines tied** when both machines perform them. -/
theorem perform (hT : T.Lawful) (hm : m.Unscripted) (hm' : m'.Unscripted) {j j' : Job}
    {rest rest' : List Job} (hj : m.jobs = j :: rest) (hj' : m'.jobs = j' :: rest')
    (h : Tied T { m with jobs := rest } { m' with jobs := rest' }) (hmeet : T.Meets j j') :
    Tied T m.step m'.step := by
  have hpolicy : m'.policy = m.policy := h.policy
  have hallocated : m'.allocated = m.allocated := h.allocated
  cases hmeet with
  | drop =>
    rw [← (Moves.drop hj).eq_step_of_unscripted hm,
      ← (Moves.drop hj').eq_step_of_unscripted hm']
    exact h
  | turn hf hf' ht =>
    rw [← (Moves.turn hj hf).eq_step_of_unscripted hm,
      ← (Moves.turn hj' hf').eq_step_of_unscripted hm']
    refine h.turn hT ?_
    rw [hpolicy, hallocated]
    exact ht _ _
  | fault hf hf' hk he =>
    rw [← (Moves.fault hj hf).eq_step_of_unscripted hm,
      ← (Moves.fault hj' hf').eq_step_of_unscripted hm']
    exact h.resume hT hk (.error he)
  | settle ho =>
    rw [← (Moves.settle hj).eq_step_of_unscripted hm,
      ← (Moves.settle hj').eq_step_of_unscripted hm']
    exact h.settle hT _ _ ho
  | report he =>
    rw [← (Moves.report hj).eq_step_of_unscripted hm,
      ← (Moves.report hj').eq_step_of_unscripted hm']
    exact h.report he

/-- Machines without jobs release what was parked first. -/
lemma release (hT : T.Lawful) (h : Tied T m m') (hj : m.jobs = []) (hj' : m'.jobs = []) :
    Tied T m.step m'.step := by
  cases hp : m.parked with
  | nil =>
    have hp' : m'.parked = [] := List.forall₂_nil_left_iff.mp (hp ▸ h.parked)
    rwa [step_of_quiet (by simp [quiet, hj, hp]), step_of_quiet (by simp [quiet, hj', hp'])]
  | cons k rest =>
    have hparked := h.parked
    rw [hp] at hparked
    obtain ⟨k', rest', hk, hrest, hp'⟩ := List.forall₂_cons_left_iff.mp hparked
    rw [step_of_parked hj hp, step_of_parked hj' hp']
    have hjobs := hT.append (hj ▸ hj' ▸ h.jobs) (.ok hT.unit) hk
    exact { h with jobs := hjobs, parked := hrest }

end Tied

end Machine

/-! ### What is seen of machines that correspond -/

lemma Finished.exists_of_ofMachine {fuel : Nat} {m : Machine} {f : Finished}
    (h : ofMachine fuel 0 m = some f) : ∃ n, (Machine.step^[n] m).quiet = true ∧
      f = ⟨Machine.step^[n] m, Guard.conclude ((Machine.step^[n] m).outcome? 0), []⟩ := by
  obtain ⟨r, hr, rfl⟩ := Option.map_eq_some_iff.mp h
  obtain ⟨n, rfl⟩ := Machine.exists_iterate_of_drain hr
  exact ⟨n, Machine.quiet_of_drain hr, rfl⟩

lemma Finished.ofMachine_of_quiet {m : Machine} {n : Nat}
    (h : (Machine.step^[n] m).quiet = true) : ofMachine (n + 1) 0 m =
      some ⟨Machine.step^[n] m, Guard.conclude ((Machine.step^[n] m).outcome? 0), []⟩ := by
  unfold ofMachine
  rw [Machine.drain_iterate h]
  rfl

structure Tie.Faithful (T : Tie) : Prop where
  render : ∀ {v v'}, T.value v v' → v'.render = v.render
  category : ∀ {f f'}, T.fault f f' → f'.category = f.category
  message : ∀ {f f'}, T.fault f f' → f'.message = f.message

lemma map_eq_of_forall₂ {α β : Type} {R : α → α → Prop} {g : α → β} {l l' : List α}
    (h : List.Forall₂ R l l') (hg : ∀ a a', R a a' → g a' = g a) : l'.map g = l.map g := by
  induction h with
  | nil => rfl
  | cons ha _ ih => rw [List.map_cons, List.map_cons, hg _ _ ha, ih]

lemma find?_of_forall₂ {α : Type} {R : α → α → Prop} {p : α → Bool} {l l' : List α}
    (h : List.Forall₂ R l l') (hp : ∀ a a', R a a' → p a' = p a) :
    Option.Rel R (l.find? p) (l'.find? p) := by
  induction h with
  | nil => exact .none
  | @cons a a' _ _ ha _ ih =>
    simp only [List.find?_cons, hp a a' ha]
    split
    · exact .some ha
    · exact ih

namespace Tie.Faithful

variable {T : Tie}

lemma shown (hT : T.Faithful) {o o' : Outcome} (h : T.outcome o o') : o'.shown = o.shown := by
  cases h with
  | ok hv => simp only [Outcome.shown, hT.render hv]
  | error hf => simp only [Outcome.shown, hT.category hf, hT.message hf]

lemma line (hT : T.Faithful) {t t' : Note} (h : T.note t t') : t'.line = t.line := by
  cases h with
  | enter => rfl
  | failed task hf => simp only [Note.line, Note.text, Note.isWarning, hT.message hf]
  | leave _ hv | sent hv | received hv | finished _ hv =>
    simp only [Note.line, Note.text, Note.isWarning, hT.render hv]

/-- **Machines that correspond give the same account** of runs that end in corresponding ways. -/
theorem report_eq (hT : T.Faithful) {m m' : Machine} (h : m.Tied T m') {o o' : Outcome}
    (ho : T.outcome o o') :
    (⟨m', o', []⟩ : Finished).report = (⟨m, o, []⟩ : Finished).report := by
  have hlines := map_eq_of_forall₂ h.log fun _ _ => hT.line
  have hfailures : m'.tasks.failures.map (fun e => (e.1, e.2.message)) =
      m.tasks.failures.map fun e => (e.1, e.2.message) :=
    map_eq_of_forall₂ h.tasks.failures fun e e' he => by
      simp only [Prod.mk.injEq]
      exact ⟨he.1.symm, hT.message he.2⟩
  simp only [Finished.report, hT.shown ho, h.steps, h.tasks.running, h.tasks.settled, hfailures,
    hlines, h.allocated]

end Tie.Faithful

end Parley
