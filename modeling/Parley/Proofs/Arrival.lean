import Parley.Proofs.Budget

/-!
First in, first out, as a traced run shows it. What the notes say was sent on a queue is what
they say was received from it, then what is on its way to processes that have asked for it, and
then what the queue holds, all in one order. So at every moment the values received are the first
of the values sent, whoever shares the ends of the channel, and when nothing is left to do the
queue holds the others.
-/

namespace Parley

variable {q : QueueId}

/-! ### What the notes say -/

namespace Note

def sent? (q : QueueId) : Note → Option Value
  | .sent v on => if on.write = q then some v else none
  | _ => none

def received? (q : QueueId) : Note → Option Value
  | .received v on => if on.read = q then some v else none
  | _ => none

end Note

def sentOn (q : QueueId) (l : List Note) : List Value := l.filterMap (Note.sent? q)

def receivedOn (q : QueueId) (l : List Note) : List Value := l.filterMap (Note.received? q)

lemma sentOn_concat (q : QueueId) (l : List Note) (t : Note) :
    sentOn q (l ++ [t]) = sentOn q l ++ (t.sent? q).toList := by
  unfold sentOn
  rw [List.filterMap_append]
  cases h : t.sent? q <;> simp [h]

lemma receivedOn_concat (q : QueueId) (l : List Note) (t : Note) :
    receivedOn q (l ++ [t]) = receivedOn q l ++ (t.received? q).toList := by
  unfold receivedOn
  rw [List.filterMap_append]
  cases h : t.received? q <;> simp [h]

/-- At every moment of a log, what was received is the first of what was sent. -/
def InTurn (q : QueueId) (l : List Note) : Prop := ∀ p, p <+: l → receivedOn q p <+: sentOn q p

lemma InTurn.concat {l : List Note} {t : Note} (h : InTurn q l)
    (ht : receivedOn q (l ++ [t]) <+: sentOn q (l ++ [t])) : InTurn q (l ++ [t]) := by
  intro p hp
  rcases List.prefix_concat_iff.mp hp with rfl | hp
  · exact ht
  · exact h p hp

/-! ### What is on its way -/

/-- The value that a job brings to a process that has asked for one from a queue. -/
def Job.arriving? (q : QueueId) : Job → Option Value
  | ⟨.ok v, .received on :: _⟩ => if on.read = q then some v else none
  | _ => none

def Stack.IsDry (k : Stack) : Prop := ∀ on, .received on ∉ k

namespace Stack

variable {k fs : Stack}

lemma IsDry.cons {f : Frame} (hf : ∀ on, f ≠ .received on) (hk : k.IsDry) : IsDry (f :: k) := by
  intro on hin
  rcases List.mem_cons.mp hin with rfl | hin
  · exact hf on rfl
  · exact hk on hin

lemma IsDry.append (hf : ∀ f ∈ fs, f.IsInner) (hk : k.IsDry) : IsDry (fs ++ k) := by
  intro on hin
  rcases List.mem_append.mp hin with hin | hin
  · exact hf _ hin
  · exact hk on hin

lemma IsDry.tail (hk : k.IsDry) : IsDry k.tail := fun on hin => hk on (List.mem_of_mem_tail hin)

lemma arriving?_of_isDry (hk : k.IsDry) (q : QueueId) (o : Outcome) :
    Job.arriving? q ⟨o, k⟩ = none := by
  unfold Job.arriving?
  split
  · next on rest h =>
    cases h
    exact absurd (List.mem_cons_self ..) (hk on)
  · rfl

lemma arriving?_of_awaits {r : QueueId} (hk : k.Awaits r) (q : QueueId) (v : Value) :
    Job.arriving? q ⟨.ok v, k⟩ = if r = q then some v else none := by
  obtain ⟨on, rest, rfl, rfl⟩ := hk
  rfl

end Stack

namespace Machine

variable {m m' : Machine} {k : Stack}

/-- The values that were sent on a queue and not received from it: those on their way, and those
that it holds. -/
def content (m : Machine) (q : QueueId) : List Value :=
  m.jobs.filterMap (Job.arriving? q) ++ (m.queue q).buffer

/-- A process asks for a value only with the top of its stack, and it waits on that queue or has
the value on its way. Nobody waits on a queue that holds something. -/
structure Tidy (m : Machine) : Prop where
  jobs : ∀ j ∈ m.jobs, Stack.IsDry j.stack.tail
  parked : ∀ k ∈ m.parked, k.IsDry
  settled : ∀ q, (m.queue q).Settled
  waiting : ∀ q, ∀ k ∈ (m.queue q).waiting, k.Awaits q ∧ Stack.IsDry k.tail

namespace Tidy

lemma of_queues_eq (h : m.Tidy) (hj : ∀ j ∈ m'.jobs, Stack.IsDry j.stack.tail)
    (hp : ∀ k ∈ m'.parked, k.IsDry) (hq : m'.queues = m.queues) : m'.Tidy := by
  have hqueue : ∀ q, m'.queue q = m.queue q := fun q => by unfold queue; rw [hq]
  exact ⟨hj, hp, fun q => hqueue q ▸ h.settled q, fun q => hqueue q ▸ h.waiting q⟩

lemma resume (h : m.Tidy) (hk : Stack.IsDry k.tail) (o : Outcome) : (m.resume k o).Tidy := by
  refine h.of_queues_eq (fun j hj => ?_) h.parked rfl
  rcases List.mem_append.mp hj with hj | hj
  · exact h.jobs j hj
  · rw [List.mem_singleton.mp hj]
    exact hk

lemma below {o : Outcome} {f : Frame} {rest : List Job} (h : m.Tidy)
    (hj : m.jobs = ⟨o, f :: k⟩ :: rest) : k.IsDry :=
  h.jobs ⟨o, f :: k⟩ (hj ▸ List.mem_cons_self ..)

lemma setQueue (h : m.Tidy) {c : Queue Value Stack} (hc : c.Settled)
    (hw : ∀ k ∈ c.waiting, k.Awaits q ∧ Stack.IsDry k.tail) : (m.setQueue q c).Tidy := by
  refine ⟨h.jobs, h.parked, fun r => ?_, fun r => ?_⟩
  · by_cases hr : r = q
    · rw [hr, queue_setQueue_self]
      exact hc
    · rw [queue_setQueue_of_ne _ _ hr]
      exact h.settled r
  · by_cases hr : r = q
    · rw [hr, queue_setQueue_self]
      exact hw
    · rw [queue_setQueue_of_ne _ _ hr]
      exact h.waiting r

lemma send (h : m.Tidy) (q : QueueId) (v : Value) : (m.send q v).Tidy := by
  cases hq : (m.queue q).waiting with
  | nil =>
    rw [send_of_nil v hq]
    exact h.setQueue (.inr rfl) (by simp)
  | cons k rest =>
    have hwaiting := h.waiting q
    rw [hq] at hwaiting
    rw [send_of_cons v hq]
    refine Tidy.resume (h.setQueue ?_ fun l hl => hwaiting l (List.mem_cons_of_mem _ hl))
      (hwaiting k (List.mem_cons_self ..)).2 _
    exact .inl ((h.settled q).resolve_right (by simp [hq]))

lemma recv (h : m.Tidy) (hk : k.IsDry) (on : Endpoint) :
    (m.recv on.read (.received on :: k)).Tidy := by
  cases hq : (m.queue on.read).buffer with
  | nil =>
    rw [recv_of_nil _ hq]
    refine h.setQueue (.inl rfl) fun l hl => ?_
    rcases List.mem_append.mp hl with hl | hl
    · exact h.waiting on.read l hl
    · rw [List.mem_singleton.mp hl]
      exact ⟨⟨on, k, rfl, rfl⟩, hk⟩
  | cons v rest =>
    rw [recv_of_cons _ hq]
    refine Tidy.resume (k := .received on :: k)
      (h.setQueue (c := ⟨rest, (m.queue on.read).waiting⟩) ?_ (h.waiting on.read)) hk _
    exact .inr ((h.settled on.read).resolve_left (by simp [hq]))

end Tidy

lemma content_resume (m : Machine) (k : Stack) (o : Outcome) (q : QueueId) :
    (m.resume k o).content q =
      m.jobs.filterMap (Job.arriving? q) ++ (Job.arriving? q ⟨o, k⟩).toList ++
        (m.queue q).buffer := by
  have hflight : (m.jobs ++ [Job.mk o k]).filterMap (Job.arriving? q) =
      m.jobs.filterMap (Job.arriving? q) ++ (Job.arriving? q ⟨o, k⟩).toList := by
    rw [List.filterMap_append]
    cases h : Job.arriving? q ⟨o, k⟩ <;> simp [h]
  unfold content
  rw [← hflight]
  rfl

lemma content_resume_of_isDry (hk : k.IsDry) (o : Outcome) (q : QueueId) :
    (m.resume k o).content q = m.content q := by
  rw [content_resume, Stack.arriving?_of_isDry hk, Option.toList_none, List.append_nil]
  rfl

lemma content_send (h : m.Tidy) (q r : QueueId) (v : Value) :
    (m.send q v).content r = m.content r ++ (if q = r then [v] else []) := by
  cases hq : (m.queue q).waiting with
  | nil =>
    rw [send_of_nil v hq]
    unfold content
    by_cases hr : q = r
    · subst hr
      rw [queue_setQueue_self, if_pos rfl, List.append_assoc]
      rfl
    · rw [queue_setQueue_of_ne _ _ (Ne.symm hr), if_neg hr, List.append_nil]
      rfl
  | cons k rest =>
    obtain ⟨hawaits, -⟩ := h.waiting q k (hq ▸ List.mem_cons_self ..)
    have hbuffer : (m.queue q).buffer = [] := (h.settled q).resolve_right (by simp [hq])
    rw [send_of_cons v hq, content_resume, Stack.arriving?_of_awaits hawaits]
    unfold content
    by_cases hr : q = r
    · subst hr
      rw [queue_setQueue_self, if_pos rfl, if_pos rfl, hbuffer, List.append_nil, List.append_nil]
      rfl
    · rw [queue_setQueue_of_ne _ _ (Ne.symm hr), if_neg hr, if_neg hr, List.append_nil]
      rw [Option.toList_none, List.append_nil]
      rfl

/-- Asking for a value takes nothing from what is to be received. -/
lemma content_recv (m : Machine) (on : Endpoint) (k : Stack) (r : QueueId) :
    (m.recv on.read (.received on :: k)).content r = m.content r := by
  have hawaits : Stack.Awaits (.received on :: k) on.read := ⟨on, k, rfl, rfl⟩
  cases hq : (m.queue on.read).buffer with
  | nil =>
    rw [recv_of_nil _ hq]
    unfold content
    by_cases hr : on.read = r
    · subst hr
      rw [queue_setQueue_self, hq]
      rfl
    · rw [queue_setQueue_of_ne _ _ (Ne.symm hr)]
      rfl
  | cons v rest =>
    rw [recv_of_cons _ hq, content_resume, Stack.arriving?_of_awaits hawaits]
    unfold content
    by_cases hr : on.read = r
    · subst hr
      rw [queue_setQueue_self, if_pos rfl, hq, List.append_assoc]
      rfl
    · rw [queue_setQueue_of_ne _ _ (Ne.symm hr), if_neg hr, Option.toList_none, List.append_nil]
      rfl

/-! ### The law -/

/-- A traced run delivers in order: what was sent on a queue was received from it or is its
content. What is sent has a text. -/
structure Fifo (m : Machine) : Prop where
  tidy : m.Tidy
  law : ∀ q, sentOn q m.log.toList = receivedOn q m.log.toList ++ m.content q
  inTurn : ∀ q, InTurn q m.log.toList
  shown : ∀ q, ∀ v ∈ sentOn q m.log.toList, v.showable = true

namespace Fifo

lemma fresh (policy : Policy) : ({ policy } : Machine).Fifo where
  tidy := ⟨by simp, by simp, fun _ => .inl rfl, by simp [queue, Table.find?]⟩
  law _ := rfl
  inTurn q p hp := by
    obtain rfl := List.prefix_nil.mp hp
    exact List.prefix_rfl
  shown := by simp [sentOn]

lemma of_content_eq (h : m.Fifo) (ht : m'.Tidy) (hc : ∀ q, m'.content q = m.content q)
    (hl : m'.log = m.log) : m'.Fifo := by
  refine ⟨ht, fun q => ?_, fun q => ?_, fun q => ?_⟩
  · rw [hl, hc]
    exact h.law q
  · rw [hl]
    exact h.inTurn q
  · rw [hl]
    exact h.shown q

/-- A note is taken, and with it something may be sent or received. -/
lemma concat {t : Note} (h : m.Fifo) (ht : m'.Tidy) (hl : m'.log = m.log.push t)
    (hlaw : ∀ q, sentOn q m.log.toList ++ (t.sent? q).toList =
      receivedOn q m.log.toList ++ (t.received? q).toList ++ m'.content q)
    (hshown : ∀ q, ∀ v ∈ t.sent? q, v.showable = true) : m'.Fifo := by
  have hlog : m'.log.toList = m.log.toList ++ [t] := by
    rw [hl]
    exact Array.toList_push ..
  have hlaw' : ∀ q, sentOn q m'.log.toList = receivedOn q m'.log.toList ++ m'.content q := by
    intro q
    rw [hlog, sentOn_concat, receivedOn_concat]
    exact hlaw q
  refine ⟨ht, hlaw', fun q => ?_, fun q v hv => ?_⟩
  · have hprefix : receivedOn q m'.log.toList <+: sentOn q m'.log.toList := ⟨_, (hlaw' q).symm⟩
    rw [hlog] at hprefix ⊢
    exact (h.inTurn q).concat hprefix
  · rw [hlog, sentOn_concat] at hv
    rcases List.mem_append.mp hv with hv | hv
    · exact h.shown q v hv
    · exact hshown q v (Option.mem_toList.mp hv)

lemma resume (h : m.Fifo) (hk : k.IsDry) (o : Outcome) : (m.resume k o).Fifo :=
  h.of_content_eq (h.tidy.resume hk.tail o) (content_resume_of_isDry hk o) rfl

lemma check (h : m.Fifo) (hk : k.IsDry) : (m.check k).Fifo := by
  have hcounted : ({ m with steps := m.steps + 1 } : Machine).Fifo :=
    h.of_content_eq (h.tidy.of_queues_eq h.tidy.jobs h.tidy.parked rfl) (fun _ => rfl) rfl
  simp only [Machine.check]
  split
  · exact hcounted.resume hk _
  · split
    · refine h.of_content_eq (h.tidy.of_queues_eq h.tidy.jobs (fun l hl => ?_) rfl)
        (fun _ => rfl) rfl
      rcases List.mem_append.mp hl with hl | hl
      · exact h.tidy.parked l hl
      · rw [List.mem_singleton.mp hl]
        exact hk
    · exact hcounted.resume hk _

lemma note (h : m.Fifo) {t : Note} (hs : ∀ q, t.sent? q = none) (hr : ∀ q, t.received? q = none) :
    (m.note t).Fifo := by
  refine h.concat (t := t) (h.tidy.of_queues_eq h.tidy.jobs h.tidy.parked rfl) rfl (fun q => ?_) ?_
  · rw [hs, hr, Option.toList_none, List.append_nil, List.append_nil]
    exact h.law q
  · simp [hs]

lemma trace (h : m.Fifo) {t : Note} (hs : ∀ q, t.sent? q = none) (hr : ∀ q, t.received? q = none) :
    (m.trace t).Fifo := by
  unfold Machine.trace
  split
  · exact h.note hs hr
  · exact h

lemma send (h : m.Fifo) {v : Value} (hv : v.showable = true) (on : Endpoint) :
    ((m.note (.sent v on)).send on.write v).Fifo := by
  have htidy : (m.note (.sent v on)).Tidy :=
    h.tidy.of_queues_eq h.tidy.jobs h.tidy.parked rfl
  have hlog : ((m.note (.sent v on)).send on.write v).log = m.log.push (.sent v on) := by
    unfold Machine.send
    split <;> rfl
  refine h.concat (htidy.send ..) hlog (fun q => ?_) fun q w hw => ?_
  · rw [content_send htidy, h.law]
    simp only [Note.sent?, Note.received?, Option.toList_none, List.append_nil, List.append_assoc]
    congr 2
    split <;> rfl
  · simp only [Note.sent?, Option.mem_def] at hw
    split at hw
    · cases hw
      exact hv
    · cases hw

lemma recv (h : m.Fifo) (hk : k.IsDry) (on : Endpoint) :
    (m.recv on.read (.received on :: k)).Fifo := by
  refine h.of_content_eq (h.tidy.recv hk on) (content_recv m on k) ?_
  unfold Machine.recv
  split <;> rfl

lemma received {v : Value} {on : Endpoint} {rest : List Job} (h : m.Fifo)
    (hj : m.jobs = ⟨.ok v, .received on :: k⟩ :: rest) :
    (({ m with jobs := rest } : Machine).note (.received v on)).Fifo := by
  have hcontent : ∀ q, m.content q = (if on.read = q then some v else none).toList ++
      ({ m with jobs := rest } : Machine).content q := by
    intro q
    unfold content
    rw [hj, List.filterMap_cons, Stack.arriving?_of_awaits ⟨on, k, rfl, rfl⟩]
    by_cases hr : on.read = q
    · rw [if_pos hr]
      rfl
    · rw [if_neg hr]
      rfl
  have htidy : (({ m with jobs := rest } : Machine).note (.received v on)).Tidy :=
    h.tidy.of_queues_eq (fun j hin => h.tidy.jobs j (hj ▸ List.mem_cons_of_mem _ hin))
      h.tidy.parked rfl
  refine h.concat (t := .received v on) htidy rfl (fun q => ?_) (by simp [Note.sent?])
  rw [h.law, hcontent, ← List.append_assoc]
  exact List.append_nil _

lemma settle (h : m.Fifo) (ha : m.awaiting = []) (task : Atom) (serial : Nat) (o : Outcome) :
    (m.settle task serial o).Fifo := by
  have hclosed : ({ m with tasks := m.tasks.settle m.policy task o } : Machine).Fifo :=
    h.of_content_eq (h.tidy.of_queues_eq h.tidy.jobs h.tidy.parked rfl) (fun _ => rfl) rfl
  rw [settle_of_nobody ha]
  cases o with
  | ok v =>
    simp only
    split
    · exact hclosed.trace (fun _ => rfl) fun _ => rfl
    · exact hclosed
  | error f => exact hclosed.note (fun _ => rfl) fun _ => rfl

/-- The process whose turn it is has not asked for a value. -/
lemma take {o : Outcome} {rest : List Job} (h : m.Fifo) (hj : m.jobs = ⟨o, k⟩ :: rest)
    (hk : ∀ q, Job.arriving? q ⟨o, k⟩ = none) : ({ m with jobs := rest } : Machine).Fifo := by
  refine h.of_content_eq (h.tidy.of_queues_eq
    (fun j hin => h.tidy.jobs j (hj ▸ List.mem_cons_of_mem _ hin)) h.tidy.parked rfl)
    (fun q => ?_) rfl
  unfold content
  rw [hj, List.filterMap_cons, hk]
  rfl

/-- A turn of a process that has not asked for a value. -/
lemma turn {f : Frame} {v : Value} {t : Turn} (h : m.Fifo) (ht : f.Takes true v t)
    (htracing : m.policy.tracing = true) (hf : ∀ on, f ≠ .received on) (hk : k.IsDry) :
    (t.apply k m).Fifo := by
  have hplain : ∀ {fs : Stack}, (∀ g ∈ fs, g.IsPlain) → Stack.IsDry (fs ++ k) :=
    fun hp => hk.append fun g hg => (hp g hg).isInner
  induction ht generalizing m with
  | hand o => exact h.resume hk o
  | leave => exact (h.trace (fun _ => rfl) fun _ => rfl).resume hk _
  | received hon w => exact absurd hon (hf _)
  | push _ hp _ w => exact h.resume (hplain hp) _
  | @send on arg _ hshow w =>
    have hnote : m.trace (.sent arg on) = m.note (.sent arg on) := if_pos htracing
    rw [apply_after]
    simp only [Deed.apply, hnote]
    exact (h.send (hshow rfl) on).resume (hplain (by simp [Frame.IsPlain])) _
  | @count e env gs _ hi _ => exact h.check ((hk.append hi).cons (by simp))
  | receive _ => exact h.recv hk _
  | @fork e a env env' fs _ hp _ w =>
    have hbooks : (m.nextName.2.register m.nextName.1).2.Fifo :=
      h.of_content_eq (h.tidy.of_queues_eq h.tidy.jobs h.tidy.parked rfl) (fun _ => rfl) rfl
    have hchild : Stack.IsDry [.eval e env, .settle (.text m.tasks.nextName) m.tasks.started] := by
      simp [Stack.IsDry]
    exact Fifo.resume (m := m.fork e env) (hbooks.check hchild) (hplain hp) _
  | channel _ hp _ w =>
    have hnew : m.newChannel.2.Fifo :=
      h.of_content_eq (h.tidy.of_queues_eq h.tidy.jobs h.tidy.parked rfl) (fun _ => rfl) rfl
    exact hnew.resume (hplain hp) _
  | enter _ _ ih =>
    exact ih (h.trace (fun _ => rfl) fun _ => rfl) ((congrArg _ (policy_trace ..)).trans htracing)

/-- The turn of a process that has asked for a value and is handed it. -/
lemma turn_received {on : Endpoint} {v : Value} {rest : List Job} (h : m.Fifo)
    (hj : m.jobs = ⟨.ok v, .received on :: k⟩ :: rest) (htracing : m.policy.tracing = true)
    (hon : (Value.channel on).showable = true) :
    (((Frame.received on).turn m.policy.tracing m.allocated v).apply k
      { m with jobs := rest }).Fifo := by
  have hv : v.showable = true := by
    refine h.shown on.read v ?_
    rw [h.law]
    refine List.mem_append_right _ (List.mem_append_left _ ?_)
    rw [hj]
    exact List.mem_filterMap.mpr ⟨_, List.mem_cons_self .., if_pos rfl⟩
  have hcan : ({ m with jobs := rest } : Machine).canTrace (.pair v (.channel on)) = true := by
    have hpair : (Value.pair v (.channel on)).showable = true := by
      rw [Value.showable, hv, hon]
      rfl
    simp [canTrace, hpair]
  have hnote : ({ m with jobs := rest } : Machine).trace (.received v on) =
      ({ m with jobs := rest } : Machine).note (.received v on) := if_pos htracing
  have happly := apply_noting (m := { m with jobs := rest }) (k := k) (.pair v (.channel on))
    (.note (.received v on)) (.hand [] (.pair v (.channel on)))
  rw [if_pos hcan] at happly
  simp only [Frame.turn]
  rw [happly]
  simp only [Deed.apply, hnote]
  exact (h.received hj).resume (h.tidy.below hj) _

/-- **A step keeps to first in, first out.** -/
theorem step {D : Discipline} (h : m.Fifo) (hm : m.Obeys D) (htracing : m.policy.tracing = true)
    (hD : ∀ n e, D.ends n e → (Value.channel e).showable = true) : m.step.Fifo := by
  have hmoves := step_moves hm
  generalize m.step = m' at hmoves
  cases hmoves with
  | rest _ => exact h
  | @release k rest hj hp =>
    have hk : k.IsDry := h.tidy.parked k (hp ▸ List.mem_cons_self ..)
    refine h.of_content_eq (h.tidy.of_queues_eq (by simpa using hk.tail)
      (fun l hl => h.tidy.parked l (hp ▸ List.mem_cons_of_mem _ hl)) rfl) (fun q => ?_) rfl
    unfold content
    rw [hj, List.filterMap_cons, Stack.arriving?_of_isDry hk]
    rfl
  | drop hj => exact h.take hj fun _ => by cases ‹Outcome› <;> rfl
  | @turn f v k rest hj hf =>
    -- only the frame that has asked for a value takes what is on its way
    by_cases hreceived : ∃ on, f = .received on
    · obtain ⟨on, rfl⟩ := hreceived
      obtain ⟨-, hstack⟩ := hm.jobs _ (hj ▸ List.mem_cons_self ..)
      have hon : D.ends m.allocated on := (hstack _ (List.mem_cons_self ..)).resolve_right hf
      exact h.turn_received hj htracing (hD _ _ hon)
    · have hne : ∀ on, f ≠ .received on := fun on hon => hreceived ⟨on, hon⟩
      have htakes := f.takes m.policy.tracing m.allocated v
      rw [htracing] at htakes ⊢
      refine (h.take hj fun q => ?_).turn htakes htracing hne (h.tidy.below hj)
      cases f <;> first | rfl | exact absurd rfl (hne _)
  | @fault f e k rest hj hf => exact (h.take hj fun _ => rfl).resume (h.tidy.below hj) _
  | @settle task serial o k rest hj =>
    exact (h.take hj fun _ => by cases o <;> rfl).settle hm.awaiting task serial o
  | @report tag o k rest hj =>
    have hrest := h.take hj fun _ => by cases o <;> rfl
    exact hrest.of_content_eq (hrest.tidy.of_queues_eq hrest.tidy.jobs hrest.tidy.parked rfl)
      (fun _ => rfl) rfl

end Fifo

end Machine

/-! ### Runs -/

/-- The discipline of any program: the ends of channels are those of queues that were
allocated. -/
def Discipline.wired : Discipline :=
  { any with ends := fun _ e => ∃ r w, e = ⟨.allocated r, .allocated w⟩ }

lemma Discipline.lawful_wired : wired.Lawful where
  small _ _ := trivial
  named _ := trivial
  body _ := .of_forall (fun _ => trivial) _
  params _ _ _ _ := trivial
  fresh n := ⟨⟨n, n + 1, rfl⟩, ⟨n + 1, n, rfl⟩⟩
  grow h := h

structure Discipline.Open (D : Discipline) : Prop where
  lawful : D.Lawful
  global : ∀ name g, D.global name g
  fault : ∀ f, f ≠ .deadlock → D.fault f

lemma Discipline.open_wired : wired.Open := ⟨lawful_wired, fun _ _ => trivial, fun _ hf => hf⟩

def Source.program? : Source → Option Program
  | program p => some p
  | document doc => (validate doc).toOption.map (·.program)
  | unlisted => none

namespace Source

variable (s : Source) (policy : Policy)

/-- A run keeps to a discipline if the globals of its program do. -/
lemma obeys_start {D : Discipline} (hD : D.Lawful) (hfault : ∀ f, f ≠ .deadlock → D.fault f)
    (hglobal : ∀ p, s.program? = some p → ∀ g, .global g ∈ p.declarations → D.global g.name g) :
    (s.start policy).Obeys D := by
  have hm := Machine.Obeys.fresh D policy
  have hpass : ∀ fs : Stack, (∀ f ∈ fs, f = .pass) →
      Stack.Obeys D ({ policy } : Machine).allocated (fs ++ [.report 0]) := by
    intro fs hfs
    refine .append (fun f hf => hfs f hf ▸ trivial) fun f hf => ?_
    rw [List.mem_singleton.mp hf]
    exact .inr trivial
  have hnil := hpass [] (by simp)
  have hgiven : ∀ f : Fault, f ≠ .deadlock → Outcome.Obeys D 0 (.error f) :=
    fun f hf => .given (hfault f hf)
  have hprogram : ∀ p, s.program? = some p → ∀ fs : Stack, (∀ f ∈ fs, f = .pass) →
      (({ policy } : Machine).startProgram p (fs ++ [.report 0])).Obeys D := by
    intro p hp fs hfs
    cases hg : p.main? with
    | some g => exact hm.startProgram hD (hpass fs hfs) (Program.globals_obeys (hglobal p hp)) hg
    | none =>
      simp only [Machine.startProgram, hg]
      exact hm.resume (hpass fs hfs) (hgiven _ (by simp))
  cases s with
  | program p => exact hprogram p rfl [] (by simp)
  | unlisted => exact hm.resume hnil (hgiven _ (by simp))
  | document doc =>
    -- refused, or started above one frame or two
    simp only [start, Machine.startDocument]
    split
    · next r _ => exact hm.resume hnil (hgiven _ (by cases r <;> simp [Refusal.fault]))
    · next v hv =>
      have hp : (document doc).program? = some v.program := by simp [program?, hv, Except.toOption]
      split
      · exact hprogram _ hp [.pass] (by simp)
      · exact hprogram _ hp [.pass, .pass] (by simp)

lemma obeys_open {D : Discipline} (hD : D.Open) : (s.start policy).Obeys D :=
  s.obeys_start policy hD.lawful hD.fault fun _ _ g _ => hD.global _ g

lemma obeys_wired : (s.start policy).Obeys .wired := s.obeys_open policy Discipline.open_wired

lemma fifo_start : (s.start policy).Fifo := by
  obtain ⟨q, hq, hstart⟩ := s.opens
  have hmain : Stack.IsDry [.report 0] := by simp [Stack.IsDry]
  have hdry : ∀ {fs : Stack}, (∀ g ∈ fs, g.IsPlain) → Stack.IsDry (fs ++ [.report 0]) :=
    fun hp => hmain.append fun g hg => (hp g hg).isInner
  rw [hstart]
  cases hq with
  | hand hp hl o => exact (Machine.Fifo.fresh policy).resume (hdry hp) o
  | count hp hl => exact (Machine.Fifo.fresh policy).check ((hdry hp).cons (by simp))

lemma fifo (n : Nat) : (Machine.step^[n] (s.start { policy with tracing := true })).Fifo := by
  have hobeys := s.obeys_wired { policy with tracing := true }
  induction n with
  | zero => exact s.fifo_start _
  | succ n ih =>
    rw [Function.iterate_succ_apply']
    refine ih.step (hobeys.iterate Discipline.lawful_wired n) ?_ ?_
    · rw [Machine.policy_iterate Discipline.lawful_wired hobeys, policy_start]
    · rintro n e ⟨r, w, rfl⟩
      rfl

/-- **Delivery is first in, first out.** In a traced run, at every moment of the log, the values
received from a queue are the first of those sent on it. The others are on their way to processes
that have asked for them, or they are in the queue, in the order they were sent; when nothing is
left to do they are in the queue. -/
theorem received_in_order_of_sending (s : Source) (policy : Policy) (n : Nat) (q : QueueId) :
    let m := Machine.step^[n] (s.start { policy with tracing := true })
    (∀ l, l <+: m.log.toList → receivedOn q l <+: sentOn q l) ∧
    sentOn q m.log.toList = receivedOn q m.log.toList ++ m.content q ∧
    (m.quiet = true → sentOn q m.log.toList = receivedOn q m.log.toList ++ (m.queue q).buffer) := by
  intro m
  have h : m.Fifo := s.fifo policy n
  refine ⟨h.inTurn q, h.law q, fun hq => ?_⟩
  simp only [Machine.quiet, Bool.and_eq_true, List.isEmpty_iff] at hq
  rw [h.law q, Machine.content, hq.1]
  rfl

end Source

end Parley
