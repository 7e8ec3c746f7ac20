import Parley.Proofs.Limit

/-!
The books on tasks over a whole run. The history of a run says which tasks were forked, which of
them failed and which finished, each in order, as it is seen from the moves of the run; the books
and the notes are compared with it. Every task that was forked is in exactly one place: among
those that failed, among those that finished, or still running.
-/

namespace Parley

def latest {α : Type} (n : Nat) (l : List α) : List α := l.drop (l.length - n)

lemma length_latest {α : Type} (n : Nat) (l : List α) : (latest n l).length = min n l.length := by
  unfold latest
  rw [List.length_drop]
  omega

/-- An entry more, and the first is dropped if there are too many. -/
lemma latest_concat {α : Type} {n : Nat} (hn : 0 < n) (l : List α) (a : α) :
    latest n (l ++ [a]) =
      if n < (latest n l ++ [a]).length then (latest n l ++ [a]).drop 1 else latest n l ++ [a] := by
  have hlen : (latest n l ++ [a]).length = min n l.length + 1 := by
    rw [List.length_append, length_latest, List.length_singleton]
  rw [hlen]
  unfold latest
  rw [List.length_append, List.length_singleton]
  split
  · next hlt =>
    have hcut : l.length + 1 - n = l.length - n + 1 := by omega
    have hle : l.length - n + 1 ≤ l.length := by omega
    have hone : 1 ≤ (l.drop (l.length - n)).length := by
      rw [List.length_drop]
      omega
    rw [hcut, List.drop_append_of_le_length hle, List.drop_append_of_le_length hone,
      List.drop_drop]
  · next hlt =>
    have hcut : l.length + 1 - n = 0 := by omega
    have hcut' : l.length - n = 0 := by omega
    rw [hcut, hcut', List.drop_zero, List.drop_zero]

/-! ### The history of a run -/

namespace Machine

/-- What the moves of a run have to say, in order, up to a moment. -/
def history {α : Type} (says? : Machine → Option α) (m : Machine) (n : Nat) : List α :=
  (List.range n).filterMap fun i => says? (Machine.step^[i] m)

lemma history_succ {α : Type} (says? : Machine → Option α) (m : Machine) (n : Nat) :
    m.history says? (n + 1) = m.history says? n ++ (says? (Machine.step^[n] m)).toList := by
  unfold history
  rw [List.range_succ, List.filterMap_append]
  cases h : says? (Machine.step^[n] m) <;> simp [h]

def forks (m : Machine) : Bool :=
  match m.jobs with
  | ⟨.ok _, .eval (.fork _) _ :: _⟩ :: _ => true
  | _ => false

/-- The name that the next move enters last on the books, if it evaluates a fork. -/
def spawning? (m : Machine) : Option Atom :=
  if m.forks then m.step.tasks.running.getLast?.map (·.1) else none

/-- The task that the next move ends with a fault. -/
def failing? (m : Machine) : Option (Atom × Fault) :=
  match m.jobs with
  | ⟨.error f, .settle task _ :: _⟩ :: _ => some (task, f)
  | _ => none

def finishing? (m : Machine) : Option (Atom × Value) :=
  match m.jobs with
  | ⟨.ok v, .settle task _ :: _⟩ :: _ => some (task, v)
  | _ => none

def forked (m : Machine) (n : Nat) : Nat :=
  (List.range n).countP fun i => (Machine.step^[i] m).forks

lemma forked_succ (m : Machine) (n : Nat) :
    m.forked (n + 1) = m.forked n + (Machine.step^[n] m).forks.toNat := by
  unfold forked
  rw [List.range_succ, List.countP_append]
  cases h : (Machine.step^[n] m).forks <;> simp [h]

end Machine

/-! ### What a turn does to the books -/

def Deed.note? : Deed → Option Note
  | .note t => some t
  | .send on v => some (.sent v on)
  | _ => none

/-- A note about something else than the end of a task. -/
def Note.isChatter : Note → Bool
  | .finished _ _ | .failed _ _ => false
  | _ => true

def Frame.forks : Frame → Bool
  | .eval (.fork _) _ => true
  | _ => false

lemma Frame.forks_turn (tracing : Bool) (n : Nat) (f : Frame) (v : Value) :
    (f.turn tracing n v).deeds.countP Deed.forks = f.forks.toNat := by
  rw [Turn.countP_deeds fun _ => rfl, acts_turn]
  cases f with
  | eval e env => cases e <;> rfl
  | call arg =>
    cases v with
    | sender on =>
      simp only [act?]
      split <;> rfl
    | _ => rfl
  | _ => rfl

lemma Frame.Takes.chatter {tracing : Bool} {f : Frame} {v : Value} {t : Turn}
    (h : f.Takes tracing v t) : ∀ note ∈ t.deeds.filterMap Deed.note?, note.isChatter = true := by
  induction h with
  | enter hf ht ih =>
    intro note hnote
    rcases List.mem_cons.mp hnote with rfl | hnote
    · rfl
    · exact ih note hnote
  | hand | push | count | receive | fork | channel =>
    intro note hnote
    exact absurd hnote List.not_mem_nil
  | leave | received | send =>
    intro note hnote
    rw [List.mem_singleton.mp hnote]
    rfl

/-- The parts of an expression are started without a note. -/
lemma Expr.notes_partsTurn (tracing : Bool) (n : Nat) (e : Expr) (env : Env) :
    (e.partsTurn tracing n env).deeds.filterMap Deed.note? = [] := by
  cases e with
  | int l | nat l =>
    simp only [partsTurn]
    split <;> rfl
  | var name =>
    simp only [partsTurn]
    split
    · next g _ => cases g.call env <;> rfl
    · rfl
    · rfl
  | _ => rfl

def Tasks.enroll (t : Tasks) : Tasks where
  running := Table.set t.running (.text t.nextName) (.live t.started)
  failures := t.failures
  settled := t.settled
  named := t.named + 1
  started := t.started + 1
  calls := t.calls

namespace Machine

variable {m m' : Machine} {k : Stack}

lemma tasks_trace (m : Machine) (t : Note) : (m.trace t).tasks = m.tasks := by
  unfold trace
  split <;> rfl

lemma log_trace (m : Machine) (t : Note) :
    (m.trace t).log.toList = m.log.toList ++ if m.policy.tracing then [t] else [] := by
  unfold trace
  split
  · exact Array.toList_push
  · rw [List.append_nil]

lemma send_books (m : Machine) (q : QueueId) (v : Value) :
    (m.send q v).tasks = m.tasks ∧ (m.send q v).log = m.log := by
  unfold send
  split <;> exact ⟨rfl, rfl⟩

lemma recv_books (m : Machine) (q : QueueId) (k : Stack) :
    (m.recv q k).tasks = m.tasks ∧ (m.recv q k).log = m.log := by
  unfold recv
  split <;> exact ⟨rfl, rfl⟩

lemma log_check (m : Machine) (k : Stack) : (m.check k).log = m.log := by
  simp only [check]
  split
  · rfl
  · split <;> rfl

lemma tasks_deed (m : Machine) (d : Deed) :
    (d.apply m).tasks = Tasks.enroll^[d.forks.toNat] m.tasks := by
  cases d with
  | note t => exact tasks_trace ..
  | send on v => exact (send_books ..).1.trans (tasks_trace ..)
  | fork e env => exact (check_same ..).2.1
  | channel => rfl

lemma log_deed (m : Machine) (d : Deed) : (d.apply m).log.toList =
    m.log.toList ++ if m.policy.tracing then d.note?.toList else [] := by
  cases d with
  | note t => exact log_trace ..
  | send on v => exact (congrArg Array.toList (send_books ..).2).trans (log_trace ..)
  | fork e env =>
    have hlog : (m.fork e env).log = m.log := log_check ..
    simp [Deed.apply, Deed.note?, hlog]
  | channel => simp [Deed.apply, Deed.note?, newChannel, newQueue]

lemma tasks_turn (m : Machine) (t : Turn) (k : Stack) :
    (t.apply k m).tasks = Tasks.enroll^[t.deeds.countP Deed.forks] m.tasks := by
  have hdeeds : ∀ (ds : List Deed) (m : Machine),
      (ds.foldl Deed.apply m).tasks = Tasks.enroll^[ds.countP Deed.forks] m.tasks := by
    intro ds
    induction ds with
    | nil => exact fun m => rfl
    | cons d ds ih =>
      intro m
      have hcount : (d :: ds).countP Deed.forks = ds.countP Deed.forks + d.forks.toNat := by
        rw [List.countP_cons]
        cases d.forks <;> rfl
      rw [List.foldl_cons, ih, tasks_deed, hcount, Function.iterate_add_apply]
  rw [← hdeeds]
  unfold Turn.apply
  cases t.sequel with
  | hand fs o => rfl
  | count fs => exact (check_same ..).2.1
  | receive on => exact (recv_books ..).1

lemma log_deeds (m : Machine) (ds : List Deed) : (ds.foldl Deed.apply m).log.toList =
    m.log.toList ++ if m.policy.tracing then ds.filterMap Deed.note? else [] := by
  induction ds generalizing m with
  | nil => simp
  | cons d ds ih =>
    rw [List.foldl_cons, ih, log_deed, policy_deed]
    cases m.policy.tracing with
    | false => simp
    | true => cases h : d.note? <;> simp [h]

lemma log_turn (m : Machine) (t : Turn) (k : Stack) : (t.apply k m).log.toList =
    m.log.toList ++ if m.policy.tracing then t.deeds.filterMap Deed.note? else [] := by
  rw [← log_deeds]
  unfold Turn.apply
  cases t.sequel with
  | hand fs o => rfl
  | count fs => exact congrArg Array.toList (log_check ..)
  | receive on => exact congrArg Array.toList (recv_books ..).2

end Machine

/-! ### Results that have a text -/

/-- In a traced run the result of a task is noted before the task ends: above the bottom of its
stack there is the frame that notes it, unless the task has only begun or has just been noted. -/
def Stack.Sealed (k : Stack) : Prop :=
  ∀ fs task serial, k = fs ++ [.settle task serial] →
    fs = [] ∨ (∃ e env, fs = [.eval e env]) ∨ ∃ gs caption, fs = gs ++ [.leave caption]

/-- The frame that notes the result of a task is still to come. -/
def Stack.Covered (k : Stack) : Prop :=
  ∀ fs task serial, k = fs ++ [.settle task serial] → ∃ gs caption, fs = gs ++ [.leave caption]

def Job.Noted (j : Job) : Prop :=
  ∀ v task serial, j = ⟨.ok v, [.settle task serial]⟩ → v.showable = true

lemma Stack.concat_inj (fs gs : Stack) {b c : Frame} (h : fs ++ [b] = gs ++ [c]) :
    fs = gs ∧ b = c := by
  obtain ⟨hfs, hb⟩ := List.append_inj' h rfl
  exact ⟨hfs, List.head_eq_of_cons_eq hb⟩

lemma Stack.Covered.append {k : Stack} (h : k.Covered) (hk : k ≠ []) (gs : Stack) :
    Stack.Covered (gs ++ k) := by
  intro fs task serial heq
  obtain ⟨k', b, rfl⟩ := (List.eq_nil_or_concat k).resolve_left hk
  rw [List.concat_eq_append, ← List.append_assoc] at heq
  obtain ⟨rfl, rfl⟩ := concat_inj _ _ heq
  obtain ⟨hs, caption, rfl⟩ := h k' task serial List.concat_eq_append
  exact ⟨gs ++ hs, caption, (List.append_assoc ..).symm⟩

lemma Stack.Covered.isSealed {k : Stack} (h : k.Covered) : k.Sealed :=
  fun fs task serial heq => .inr (.inr (h fs task serial heq))

/-- Below the top of a stack the frame that notes the result is still to come, unless the top is
that frame or the task has only begun. -/
lemma Stack.Sealed.below {f : Frame} {k : Stack} (h : Stack.Sealed (f :: k)) :
    k.Covered ∨ (∃ task serial, k = [.settle task serial]) ∧
      ((∃ e env, f = .eval e env) ∨ ∃ caption, f = .leave caption) := by
  by_cases hk : ∃ task serial, k = [.settle task serial]
  · obtain ⟨task, serial, rfl⟩ := hk
    refine .inr ⟨⟨task, serial, rfl⟩, ?_⟩
    rcases h [f] task serial rfl with hnil | ⟨e, env, he⟩ | ⟨gs, caption, hg⟩
    · cases hnil
    · exact .inl ⟨e, env, List.head_eq_of_cons_eq he⟩
    · exact .inr ⟨caption, (concat_inj [] gs hg).2⟩
  · refine .inl fun fs task serial heq => ?_
    have hne : fs ≠ [] := by
      rintro rfl
      exact hk ⟨task, serial, heq⟩
    obtain ⟨fs', b, rfl⟩ := (List.eq_nil_or_concat fs).resolve_left hne
    have hstack : f :: k = f :: fs'.concat b ++ [.settle task serial] := by rw [heq]; rfl
    rcases h _ task serial hstack with hnil | ⟨e, env, he⟩ | ⟨gs, caption, hg⟩
    · cases hnil
    · simp at he
    · rw [List.concat_eq_append, ← List.cons_append] at hg
      rw [List.concat_eq_append, (concat_inj _ gs hg).2]
      exact ⟨fs', caption, rfl⟩

def Sequel.Seals (q : Sequel) (k : Stack) : Prop :=
  match q with
  | .hand fs (.ok v) => Stack.Sealed (fs ++ k) ∧ Job.Noted ⟨.ok v, fs ++ k⟩
  | .hand _ (.error _) => True
  | .count fs => Stack.Sealed (fs ++ k)
  | .receive on => Stack.Sealed (.received on :: k)

lemma Sequel.seals_of_covered {k : Stack} (h : k.Covered) (hk : k ≠ []) (q : Sequel) :
    q.Seals k := by
  have hcovered : ∀ gs, Stack.Covered (gs ++ k) := h.append hk
  cases q with
  | hand fs o =>
    cases o with
    | ok v =>
      refine ⟨(hcovered fs).isSealed, fun w task serial heq => ?_⟩
      obtain ⟨gs, caption, hnil⟩ := hcovered fs [] task serial (congrArg Job.stack heq)
      simp at hnil
    | error f => trivial
  | count fs => exact (hcovered fs).isSealed
  | receive on => exact (hcovered [.received on]).isSealed

/-- Frames that end with the one that notes the result. -/
lemma Stack.covered_of_leave (fs : Stack) (caption : String) (b : Frame) :
    Stack.Covered (fs ++ [.leave caption, b]) := by
  intro gs task serial heq
  have hsplit : fs ++ [.leave caption, b] = (fs ++ [.leave caption]) ++ [b] := by simp
  rw [hsplit] at heq
  exact ⟨fs, caption, (concat_inj _ gs heq).1.symm⟩

lemma Sequel.seals_hand (fs : Stack) (caption : String) (v : Value) (b : Frame) :
    (Sequel.hand (fs ++ [.leave caption]) (.ok v)).Seals [b] := by
  have hcovered := Stack.covered_of_leave fs caption b
  have hsplit : fs ++ [.leave caption] ++ [b] = fs ++ [.leave caption, b] := by simp
  simp only [Seals, hsplit]
  refine ⟨hcovered.isSealed, fun w task serial heq => ?_⟩
  obtain ⟨gs, c, hnil⟩ := hcovered [] task serial (congrArg Job.stack heq)
  simp at hnil

lemma Sequel.seals_count (fs : Stack) (caption : String) (b : Frame) :
    (Sequel.count (fs ++ [.leave caption])).Seals [b] := by
  have hsplit : fs ++ [.leave caption] ++ [b] = fs ++ [.leave caption, b] := by simp
  simp only [Seals, hsplit]
  exact (Stack.covered_of_leave fs caption b).isSealed

/-- A traced evaluation puts the frame that notes the result above everything below it. -/
lemma Expr.seals_partsTurn (n : Nat) (e : Expr) (env : Env) (b : Frame) :
    (e.partsTurn true n env).sequel.Seals [b] := by
  cases e with
  | unit | label | lambda | fork | channel => exact Sequel.seals_hand [] _ _ b
  | int l | nat l =>
    simp only [partsTurn]
    split
    · exact Sequel.seals_hand [] _ _ b
    · trivial
  | var name =>
    simp only [partsTurn]
    split
    · next g _ =>
      cases g.call env with
      | value v => exact Sequel.seals_hand [] _ _ b
      | body a env' => exact Sequel.seals_count [.eval a env'] _ b
      | fault f => trivial
    · exact Sequel.seals_hand [] _ _ b
    · trivial
  | unknown | missing => trivial
  | _ => exact Sequel.seals_count [_, _] _ b

lemma Expr.seals_turn (n : Nat) (e : Expr) (env : Env) (b : Frame) :
    (e.turn true n env).sequel.Seals [b] := by
  have hparts := e.seals_partsTurn n env b
  cases e with
  | missing => exact hparts
  | _ =>
    simp only [turn]
    generalize Expr.caption? _ = caption
    cases caption with
    | some caption => exact hparts
    | none => trivial

/-- Every traced turn keeps to the frame that notes the result. -/
lemma Frame.seals_turn {f : Frame} {k : Stack} (h : Stack.Sealed (f :: k)) (hk : k ≠ []) (n : Nat)
    (v : Value) : (f.turn true n v).sequel.Seals k := by
  rcases h.below with hcovered | ⟨⟨task, serial, rfl⟩, ⟨e, env, rfl⟩ | ⟨caption, rfl⟩⟩
  · exact Sequel.seals_of_covered hcovered hk _
  · exact e.seals_turn n env _
  · simp only [turn, Turn.noting]
    split
    · next hv =>
      refine ⟨fun fs task' serial' heq => ?_, fun w task' serial' heq => ?_⟩
      · exact .inl (Stack.concat_inj [] fs heq).1.symm
      · cases heq
        simpa using hv
    · trivial

namespace Machine

variable {m m' : Machine} {k : Stack}

/-- Every task whose result is still to come has the frame that notes it on its stack. -/
structure Sealed (m : Machine) : Prop where
  live : ∀ k ∈ m.live, k.Sealed
  noted : ∀ j ∈ m.jobs, j.Noted
  awaits : ∀ q, ∀ k ∈ (m.queue q).waiting, k.Awaits q

namespace Sealed

lemma congr (h : m.Sealed) (hj : m'.jobs = m.jobs) (hp : m'.parked = m.parked)
    (hq : m'.queues = m.queues) : m'.Sealed := by
  refine ⟨fun k hk => h.live k ?_, fun j hm => h.noted j (hj ▸ hm), fun q k hk => h.awaits q k ?_⟩
  · rwa [← live_congr hj hp hq]
  · unfold queue at hk ⊢
    rwa [← hq]

lemma resume_ok (h : m.Sealed) {v : Value} (hk : k.Sealed) (hv : Job.Noted ⟨.ok v, k⟩) :
    (m.resume k (.ok v)).Sealed := by
  refine ⟨fun l hl => ?_, fun j hj => ?_, h.awaits⟩
  · rw [live_resume_ok] at hl
    rcases Multiset.mem_add.mp hl with hl | hl
    · rwa [Multiset.mem_singleton.mp hl]
    · exact h.live l hl
  · rcases List.mem_append.mp hj with hj | hj
    · exact h.noted j hj
    · rwa [List.mem_singleton.mp hj]

lemma resume_error (h : m.Sealed) (k : Stack) (f : Fault) : (m.resume k (.error f)).Sealed := by
  refine ⟨fun l hl => ?_, fun j hj => ?_, h.awaits⟩
  · rw [live_resume_error] at hl
    exact h.live l hl
  · rcases List.mem_append.mp hj with hj | hj
    · exact h.noted j hj
    · intro v task serial heq
      rw [List.mem_singleton.mp hj] at heq
      cases heq

lemma noted_unit (k : Stack) : Job.Noted ⟨.ok .unit, k⟩ := by
  intro v task serial heq
  cases heq
  rfl

lemma check (h : m.Sealed) (hk : k.Sealed) : (m.check k).Sealed := by
  have hcounted : ({ m with steps := m.steps + 1 } : Machine).Sealed := h.congr rfl rfl rfl
  simp only [Machine.check]
  split
  · exact hcounted.resume_error ..
  · split
    · refine ⟨fun l hl => ?_, h.noted, h.awaits⟩
      have hlive : m.live + {k} = Machine.live { m with parked := m.parked ++ [k] } := by
        unfold Machine.live
        rw [← Multiset.coe_add, Multiset.coe_singleton]
        exact (add_right_comm ..).trans (congrArg (· + _) (add_assoc ..))
      have hin : l ∈ m.live + {k} := by rwa [hlive]
      rcases Multiset.mem_add.mp hin with hin | hin
      · exact h.live l hin
      · rwa [Multiset.mem_singleton.mp hin]
    · exact hcounted.resume_ok hk (noted_unit k)

lemma send (h : m.Sealed) (q : QueueId) (v : Value) : (m.send q v).Sealed := by
  have hset : ∀ c : Queue Value Stack, (∀ k ∈ c.waiting, k ∈ (m.queue q).waiting) →
      ∀ r, ∀ k ∈ ((m.setQueue q c).queue r).waiting, k.Awaits r := by
    intro c hc r k hk
    by_cases hr : r = q
    · subst hr
      rw [queue_setQueue_self] at hk
      exact h.awaits r k (hc k hk)
    · rw [queue_setQueue_of_ne _ _ hr] at hk
      exact h.awaits r k hk
  have hlive : ∀ k ∈ (m.send q v).live, k.Sealed := by
    intro k hk
    rw [(send_same ..).1] at hk
    exact h.live k hk
  cases hq : (m.queue q).waiting with
  | nil =>
    rw [send_of_nil v hq] at hlive ⊢
    exact ⟨hlive, h.noted, hset _ (by simp)⟩
  | cons k rest =>
    rw [send_of_cons v hq] at hlive ⊢
    refine ⟨hlive, fun j hj => ?_, hset _ fun l hl => hq ▸ List.mem_cons_of_mem _ hl⟩
    rcases List.mem_append.mp hj with hj | hj
    · exact h.noted j hj
    · intro w task serial heq
      obtain ⟨on, below, hk, -⟩ := h.awaits q k (hq ▸ List.mem_cons_self ..)
      rw [List.mem_singleton.mp hj, hk] at heq
      cases heq

lemma recv (h : m.Sealed) (on : Endpoint) (hk : Stack.Sealed (.received on :: k)) :
    (m.recv on.read (.received on :: k)).Sealed := by
  have hset : ∀ c : Queue Value Stack, (∀ k ∈ c.waiting, k.Awaits on.read) →
      ∀ r, ∀ k ∈ ((m.setQueue on.read c).queue r).waiting, k.Awaits r := by
    intro c hc r k hk
    by_cases hr : r = on.read
    · subst hr
      rw [queue_setQueue_self] at hk
      exact hc k hk
    · rw [queue_setQueue_of_ne _ _ hr] at hk
      exact h.awaits r k hk
  have hlive : ∀ l ∈ (m.recv on.read (.received on :: k)).live, l.Sealed := by
    intro l hl
    rw [(recv_same ..).1] at hl
    rcases Multiset.mem_add.mp hl with hl | hl
    · rwa [Multiset.mem_singleton.mp hl]
    · exact h.live l hl
  -- with nothing to receive the process joins those that wait
  cases hq : (m.queue on.read).buffer with
  | nil =>
    rw [recv_of_nil _ hq] at hlive ⊢
    refine ⟨hlive, h.noted, hset _ fun l hl => ?_⟩
    rcases List.mem_append.mp hl with hl | hl
    · exact h.awaits _ l hl
    · rw [List.mem_singleton.mp hl]
      exact ⟨on, k, rfl, rfl⟩
  | cons v rest =>
    rw [recv_of_cons _ hq] at hlive ⊢
    refine ⟨hlive, fun j hj => ?_, hset _ (h.awaits on.read)⟩
    rcases List.mem_append.mp hj with hj | hj
    · exact h.noted j hj
    · intro w task serial heq
      rw [List.mem_singleton.mp hj] at heq
      cases heq

lemma trace (h : m.Sealed) (t : Note) : (m.trace t).Sealed := by
  obtain ⟨hj, hp, hq⟩ := trace_same m t
  exact h.congr hj hp hq

lemma deed (h : m.Sealed) (d : Deed) : (d.apply m).Sealed := by
  cases d with
  | note t => exact h.trace t
  | send on v => exact (h.trace _).send ..
  | fork e env =>
    have hbooks : (m.nextName.2.register m.nextName.1).2.Sealed := h.congr rfl rfl rfl
    refine hbooks.check fun fs task serial heq => .inr (.inl ⟨e, env, ?_⟩)
    exact (Stack.concat_inj [.eval e env] fs heq).1.symm
  | channel => exact h.congr rfl rfl rfl

lemma turn {t : Turn} (h : m.Sealed) (ht : t.sequel.Seals k) : (t.apply k m).Sealed := by
  have hdeeds : ∀ (ds : List Deed) (m : Machine), m.Sealed → (ds.foldl Deed.apply m).Sealed := by
    intro ds
    induction ds with
    | nil => exact fun m h => h
    | cons d ds ih => exact fun m h => ih _ (h.deed d)
  have hm := hdeeds t.deeds m h
  unfold Turn.apply
  cases hq : t.sequel with
  | hand fs o =>
    rw [hq] at ht
    cases o with
    | ok v => exact hm.resume_ok ht.1 ht.2
    | error f => exact hm.resume_error ..
  | count fs =>
    rw [hq] at ht
    exact hm.check ht
  | receive on =>
    rw [hq] at ht
    exact hm.recv on ht

/-- The process whose turn it is is taken off the list. -/
lemma take {o : Outcome} {rest : List Job} (h : m.Sealed) (hj : m.jobs = ⟨o, k⟩ :: rest) :
    ({ m with jobs := rest } : Machine).Sealed := by
  refine ⟨fun l hl => h.live l ?_, fun j hm => h.noted j (hj ▸ List.mem_cons_of_mem _ hm), h.awaits⟩
  cases o with
  | ok v =>
    rw [live_of_ok hj]
    exact Multiset.mem_add.mpr (.inr hl)
  | error f => rwa [live_of_error hj]

/-- **A traced step keeps to the frames that note results.** -/
theorem step (h : m.Sealed) (hm : m.InOrder) (htracing : m.policy.tracing = true) :
    m.step.Sealed := by
  have hmoves := step_moves hm.obeys
  generalize m.step = m' at hmoves
  cases hmoves with
  | rest _ => exact h
  | @release k rest hj hp =>
    refine ⟨fun l hl => h.live l ?_, fun j hin => ?_, h.awaits⟩
    · rwa [← live_release hj hp]
    · rw [List.mem_singleton.mp hin]
      exact noted_unit k
  | drop hj => exact h.take hj
  | @turn f v k rest hj hf =>
    have hin : f :: k ∈ m.live := by
      rw [live_of_ok hj]
      exact Multiset.mem_add.mpr (.inl (Multiset.mem_singleton_self _))
    have hplace : f :: k ∈ 0 + m.places := by
      rw [zero_add, ← live_add_faulted]
      exact Multiset.mem_add.mpr (.inl hin)
    -- a frame that is no bottom has the bottom below it
    have hk : k ≠ [] := by
      rcases (hm.balanced.grounded _ hplace).cases with ⟨hbottom, -⟩ | ⟨-, ⟨fs, b, rfl, -⟩, -⟩
      · exact absurd hbottom hf
      · simp
    rw [htracing]
    exact (h.take hj).turn (Frame.seals_turn (h.live _ hin) hk m.allocated v)
  | fault hj hf => exact (h.take hj).resume_error ..
  | @settle task serial o k rest hj =>
    obtain ⟨-, hjobs, hparked, hqueues, -⟩ :=
      settle_same (m := { m with jobs := rest }) hm.obeys.awaiting task serial o
    exact (h.take hj).congr hjobs hparked hqueues
  | report hj => exact (h.take hj).congr rfl rfl rfl

end Sealed

end Machine

/-! ### The books are right -/

def taskName (i : Nat) : Atom := .text ("fork-" ++ toString i)

lemma taskName_injective : Function.Injective taskName := by
  intro i j h
  exact Nat.repr_injective ((String.append_right_inj _).mp (Atom.text.inj h))

def tellsOfTask (line : String) : Bool := "fork ".toList.isPrefixOf line.toList

def taskLines (ls : List Line) : List String := (traceLines ls).filter tellsOfTask

lemma tellsOfTask_eq_false {start : String} (rest : String)
    (h : ∃ c cs, start.toList = c :: cs ∧ c ≠ 'f') : tellsOfTask (start ++ rest) = false := by
  obtain ⟨c, cs, hstart, hc⟩ := h
  have hhead : ('f' == c) = false := beq_false_of_ne (Ne.symm hc)
  rw [tellsOfTask, String.toList_append, hstart, List.cons_append]
  show ('f' == c && _) = false
  rw [hhead]
  rfl

lemma Note.isChatter.lines {t : Note} (h : t.isChatter = true) :
    t.line.warning = false ∧ tellsOfTask t.line.text = false := by
  have hstart : ∀ (start rest : String) (c : Char) (cs : List Char), start.toList = c :: cs →
      c ≠ 'f' → tellsOfTask (start ++ rest) = false :=
    fun start rest c cs hs hc => tellsOfTask_eq_false rest ⟨c, cs, hs, hc⟩
  cases t with
  | enter caption => exact ⟨rfl, hstart _ _ _ _ rfl (by decide)⟩
  | leave caption v =>
    refine ⟨rfl, ?_⟩
    simp only [line, text, String.append_assoc]
    exact hstart _ _ _ _ rfl (by decide)
  | sent v on =>
    refine ⟨rfl, ?_⟩
    simp only [line, text, String.append_assoc]
    exact hstart _ _ _ _ rfl (by decide)
  | received v on =>
    refine ⟨rfl, ?_⟩
    simp only [line, text, String.append_assoc]
    exact hstart _ _ _ _ rfl (by decide)
  | finished | failed => cases h

lemma warningLines_append (ls more : List Line) :
    warningLines (ls ++ more) = warningLines ls ++ warningLines more := by
  unfold warningLines
  rw [List.filter_append, List.map_append]

lemma taskLines_append (ls more : List Line) :
    taskLines (ls ++ more) = taskLines ls ++ taskLines more := by
  unfold taskLines traceLines
  rw [List.filter_append, List.map_append, List.filter_append]

lemma lines_of_chatter {ns : List Note} (h : ∀ t ∈ ns, t.isChatter = true) :
    warningLines (ns.map Note.line) = [] ∧ taskLines (ns.map Note.line) = [] := by
  constructor
  · unfold warningLines
    rw [List.map_eq_nil_iff, List.filter_eq_nil_iff]
    intro l hl
    obtain ⟨t, ht, rfl⟩ := List.mem_map.mp hl
    rw [(Note.isChatter.lines (h t ht)).1]
    exact Bool.false_ne_true
  · unfold taskLines
    rw [List.filter_eq_nil_iff]
    intro text htext
    obtain ⟨l, hl, rfl⟩ := List.mem_map.mp htext
    obtain ⟨t, ht, rfl⟩ := List.mem_map.mp (List.mem_filter.mp hl).1
    rw [(Note.isChatter.lines (h t ht)).2]
    exact Bool.false_ne_true

def failureLine (r : Atom × Fault) : String := "fork " ++ r.1.display ++ " failed: " ++ r.2.message

def resultLine (r : Atom × Value) : String :=
  "fork " ++ r.1.display ++ " finished => " ++ r.2.render

lemma lines_failed (task : Atom) (f : Fault) :
    warningLines ([Note.failed task f].map Note.line) = [failureLine (task, f)] ∧
      taskLines ([Note.failed task f].map Note.line) = [] := ⟨rfl, rfl⟩

lemma lines_finished (task : Atom) (v : Value) :
    warningLines ([Note.finished task v].map Note.line) = [] ∧
      taskLines ([Note.finished task v].map Note.line) = [resultLine (task, v)] := by
  refine ⟨rfl, ?_⟩
  have htells : tellsOfTask (resultLine (task, v)) = true := by
    simp only [tellsOfTask, resultLine, String.append_assoc]
    rw [String.toList_append]
    rfl
  exact List.filter_cons_of_pos htells

/-- A task comes onto the books after all that are running. -/
lemma Tasks.InOrder.running_enroll {t : Tasks} (ht : t.InOrder) :
    t.enroll.running = t.running ++ [(taskName t.named, .live t.started)] :=
  Table.set_of_not_mem ht.fresh _

namespace Machine

variable {m m' : Machine} {k : Stack} {limit : Nat} {spawned : List Atom}
  {failed : List (Atom × Fault)} {finished : List (Atom × Value)}

def lines (m : Machine) : List Line := m.log.toList.map Note.line

/-- The books and the notes of a run agree with its history. -/
structure Books (limit : Nat) (m : Machine) (spawned : List Atom) (failed : List (Atom × Fault))
    (finished : List (Atom × Value)) : Prop where
  names : spawned = (List.range m.tasks.named).map taskName
  /-- Every task has failed, has finished or is running. -/
  roll : (failed.map (·.1) ++ finished.map (·.1) ++ m.tasks.running.map (·.1)).Perm spawned
  settled : m.tasks.settled = failed.length + finished.length
  failures : m.tasks.failures = latest limit failed
  warnings : warningLines m.lines = failed.map failureLine
  results : taskLines m.lines = if m.policy.tracing then finished.map resultLine else []

namespace Books

lemma nodup (h : m.Books limit spawned failed finished) : spawned.Nodup := by
  rw [h.names]
  exact List.nodup_range.map taskName_injective

lemma chat (h : m.Books limit spawned failed finished) {ns : List Note}
    (hns : ∀ t ∈ ns, t.isChatter = true) (ht : m'.tasks = m.tasks) (hp : m'.policy = m.policy)
    (hl : m'.log.toList = m.log.toList ++ ns) : m'.Books limit spawned failed finished := by
  have hlines : m'.lines = m.lines ++ ns.map Note.line := by
    unfold lines
    rw [hl, List.map_append]
  obtain ⟨hwarning, htask⟩ := lines_of_chatter hns
  refine ⟨ht ▸ h.names, ht ▸ h.roll, ht ▸ h.settled, ht ▸ h.failures, ?_, ?_⟩
  · rw [hlines, warningLines_append, hwarning, List.append_nil, h.warnings]
  · rw [hlines, taskLines_append, htask, List.append_nil, h.results, hp]

lemma same (h : m.Books limit spawned failed finished) (ht : m'.tasks = m.tasks)
    (hp : m'.policy = m.policy) (hl : m'.log = m.log) : m'.Books limit spawned failed finished :=
  h.chat (List.forall_mem_nil _) ht hp (by rw [hl, List.append_nil])

lemma enroll (h : m.Books limit spawned failed finished) (hm : m.tasks.InOrder) :
    ({ m with tasks := m.tasks.enroll } : Machine).Books limit
      (spawned ++ [taskName m.tasks.named]) failed finished := by
  refine ⟨?_, ?_, h.settled, h.failures, h.warnings, h.results⟩
  · have hnamed : m.tasks.enroll.named = m.tasks.named + 1 := rfl
    rw [hnamed, List.range_succ, List.map_append, h.names]
    rfl
  · rw [hm.running_enroll, List.map_append, ← List.append_assoc]
    exact h.roll.append_right _

lemma not_failed (h : m.Books limit spawned failed finished) {task : Atom} {e : Entry}
    (hin : (task, e) ∈ m.tasks.running) : ∀ r ∈ failed, r.1 ≠ task := by
  intro r hr heq
  have hnodup := h.roll.nodup_iff.mpr h.nodup
  have hdisjoint := (List.nodup_append.mp hnodup).2.2
  refine hdisjoint r.1 ?_ task (List.mem_map.mpr ⟨_, hin, rfl⟩) heq
  exact List.mem_append_left _ (List.mem_map.mpr ⟨r, hr, rfl⟩)

lemma perm_running (hm : m.tasks.InOrder) {task : Atom} {e : Entry}
    (hin : (task, e) ∈ m.tasks.running) :
    (m.tasks.running.map (·.1)).Perm (task :: (Table.erase m.tasks.running task).map (·.1)) :=
  (Table.perm_erase hm.nodup hin).map (·.1)

lemma finish (h : m.Books limit spawned failed finished) (hm : m.tasks.InOrder) {task : Atom}
    {e : Entry} (hin : (task, e) ∈ m.tasks.running) (v : Value)
    (ht : m'.tasks = m.tasks.settle m.policy task (.ok v)) (hp : m'.policy = m.policy)
    (hl : m'.log.toList = m.log.toList ++ if m.policy.tracing then [.finished task v] else []) :
    m'.Books limit spawned failed (finished ++ [(task, v)]) := by
  have hlines : m'.lines = m.lines ++
      (if m.policy.tracing then [Note.finished task v] else []).map Note.line := by
    unfold lines
    rw [hl, List.map_append]
  obtain ⟨hwarning, htask⟩ := lines_finished task v
  refine ⟨?_, ?_, ?_, ?_, ?_, ?_⟩
  · rw [ht]
    exact h.names
  · refine List.Perm.trans ?_ h.roll
    have hrunning : m'.tasks.running = Table.erase m.tasks.running task := by rw [ht]; rfl
    rw [hrunning, List.map_append, ← List.append_assoc, List.append_assoc]
    exact (perm_running hm hin).symm.append_left _
  · have hsettled : m'.tasks.settled = m.tasks.settled + 1 := by rw [ht]; rfl
    rw [hsettled, h.settled, List.length_append, List.length_singleton]
    omega
  · rw [ht]
    exact h.failures
  · rw [hlines, warningLines_append, h.warnings]
    cases m.policy.tracing with
    | false => exact List.append_nil _
    | true => exact List.append_nil _
  · rw [hlines, taskLines_append, h.results, hp]
    cases m.policy.tracing with
    | false => rfl
    | true =>
      simp only [if_true, htask, List.map_append]
      rfl

lemma fail (h : m.Books limit spawned failed finished) (hm : m.tasks.InOrder)
    (hkept : m.policy.kept = .integer limit) {task : Atom} {e : Entry}
    (hin : (task, e) ∈ m.tasks.running) (f : Fault)
    (ht : m'.tasks = m.tasks.settle m.policy task (.error f)) (hp : m'.policy = m.policy)
    (hl : m'.log.toList = m.log.toList ++ [.failed task f]) :
    m'.Books limit spawned (failed ++ [(task, f)]) finished := by
  have hlines : m'.lines = m.lines ++ [Note.failed task f].map Note.line := by
    unfold lines
    rw [hl, List.map_append]
  obtain ⟨hwarning, htask⟩ := lines_failed task f
  have hsame := m.tasks.settle_same m.policy task (.error f)
  have hset : Table.set m.tasks.failures task f = latest limit failed ++ [(task, f)] := by
    rw [h.failures]
    refine Table.set_of_not_mem (fun r hr => ?_) f
    exact h.not_failed hin r (List.mem_of_mem_drop hr)
  refine ⟨?_, ?_, ?_, ?_, ?_, ?_⟩
  · rw [ht, hsame.2]
    exact h.names
  · refine List.Perm.trans ?_ h.roll
    rw [ht, hsame.1, List.map_append, List.append_assoc, List.append_assoc, List.append_assoc]
    refine List.Perm.append_left _ ?_
    have hmiddle : (task :: (finished.map (·.1) ++
        (Table.erase m.tasks.running task).map (·.1))).Perm (finished.map (·.1) ++
          (task :: (Table.erase m.tasks.running task).map (·.1))) := List.perm_middle.symm
    exact hmiddle.trans ((perm_running hm hin).symm.append_left _)
  · have hsettled : m'.tasks.settled = m.tasks.settled + 1 := by
      rw [ht]
      simp only [Tasks.settle]
      split <;> rfl
    rw [hsettled, h.settled, List.length_append, List.length_singleton]
    omega
  · rw [ht]
    simp only [Tasks.settle, Policy.forgetful, Policy.overflows, hkept, hset]
    -- with a limit of nought no fault is kept, and none has been
    by_cases hzero : limit = 0
    · subst hzero
      simp only [CharP.cast_eq_zero, decide_true, if_true]
      rw [h.failures]
      simp [latest]
    · have hpos : 0 < limit := Nat.pos_of_ne_zero hzero
      have hne : ¬ (Number.integer limit = .integer 0) := by
        intro heq
        have : (limit : Int) = 0 := Number.integer.inj heq
        omega
      rw [decide_eq_false hne]
      simp only [Bool.false_eq_true, if_false]
      rw [latest_concat hpos]
      simp only [Number.below, decide_eq_true_eq, Nat.cast_lt]
  · rw [hlines, warningLines_append, h.warnings, hwarning, List.map_append]
    rfl
  · rw [hlines, taskLines_append, h.results, htask, hp, List.append_nil]

end Books

lemma InOrder.running_of_settle (hm : m.InOrder) {task : Atom} {serial : Nat} {o : Outcome}
    {rest : List Job} (hj : m.jobs = ⟨o, .settle task serial :: k⟩ :: rest) :
    k = [] ∧ (task, .live serial) ∈ m.tasks.running := by
  have hin : .settle task serial :: k ∈ 0 + m.places := by
    unfold places
    rw [hj]
    simp
  rcases (hm.balanced.grounded _ hin).cases with ⟨-, rfl⟩ | ⟨hf, -⟩
  · have hpending : .settle task serial ∈ m.pending := by
      rw [← hm.balanced.owners]
      exact Multiset.mem_map.mpr ⟨_, hin, rfl⟩
    rcases Multiset.mem_add.mp hpending with hmain | htask
    · split at hmain <;> simp at hmain
    · obtain ⟨⟨name, e⟩, he, hb⟩ := List.mem_filterMap.mp (Multiset.mem_coe.mp htask)
      cases e with
      | live s => cases hb; exact ⟨rfl, he⟩
      | unready | stranded => cases hb
  · exact absurd trivial hf

lemma Moves.tasks_of_forks (hmoves : Moves m m') (hforks : m.forks = true) :
    m'.tasks = m.tasks.enroll := by
  unfold forks at hforks
  split at hforks
  · next v e env k rest hj =>
    cases hmoves with
    | turn hj' hf =>
      rw [hj] at hj'
      cases hj'
      rw [tasks_turn, Frame.forks_turn]
      rfl
    | rest hq => simp [quiet, hj] at hq
    | release hj' | drop hj' | fault hj' | settle hj' | report hj' =>
      rw [hj] at hj'
      cases hj'
  · cases hforks

lemma InOrder.spawning?_eq (hm : m.InOrder) :
    m.spawning? = if m.forks then some (taskName m.tasks.named) else none := by
  unfold spawning?
  cases hforks : m.forks with
  | false => rfl
  | true =>
    rw [(step_moves hm.obeys).tasks_of_forks hforks, hm.balanced.tasks.running_enroll,
      List.getLast?_append]
    rfl

lemma Books.turn (h : m.Books limit spawned failed finished) (hm : m.tasks.InOrder) (f : Frame)
    (v : Value) (k : Stack) (rest : List Job) :
    ((f.turn m.policy.tracing m.allocated v).apply k { m with jobs := rest }).Books limit
      (spawned ++ (if f.forks then some (taskName m.tasks.named) else none).toList)
      failed finished := by
  have hchat := (f.takes m.policy.tracing m.allocated v).chatter
  have htasks := tasks_turn { m with jobs := rest } (f.turn m.policy.tracing m.allocated v) k
  have hlog := log_turn { m with jobs := rest } (f.turn m.policy.tracing m.allocated v) k
  have hpolicy := policy_turn { m with jobs := rest } (f.turn m.policy.tracing m.allocated v) k
  rw [Frame.forks_turn] at htasks
  have hentered : ({ m with tasks := Tasks.enroll^[f.forks.toNat] m.tasks } : Machine).Books
      limit (spawned ++ (if f.forks then some (taskName m.tasks.named) else none).toList)
      failed finished := by
    cases f.forks with
    | false => simpa using h
    | true => exact h.enroll hm
  refine hentered.chat (fun t ht => ?_) htasks hpolicy hlog
  split at ht
  · exact hchat t ht
  · exact absurd ht List.not_mem_nil

/-- A task that ends is entered with its fault or its result. -/
lemma Books.settle (h : m.Books limit spawned failed finished) (hm : m.InOrder)
    (hkept : m.policy.kept = .integer limit) (hsealed : m.policy.tracing = true → m.Sealed)
    {task : Atom} {serial : Nat} {o : Outcome} {rest : List Job}
    (hj : m.jobs = ⟨o, .settle task serial :: k⟩ :: rest) :
    (({ m with jobs := rest } : Machine).settle task serial o).Books limit spawned
      (failed ++ m.failing?.toList) (finished ++ m.finishing?.toList) := by
  obtain ⟨hk, hin⟩ := hm.running_of_settle hj
  have hrest : ({ m with jobs := rest } : Machine).Books limit spawned failed finished :=
    h.same rfl rfl rfl
  have hnobody : ({ m with jobs := rest } : Machine).awaiting = [] := hm.obeys.awaiting
  have heq : ({ m with jobs := rest } : Machine).settle task serial o = _ :=
    settle_of_nobody hnobody
  cases o with
  | ok v =>
    have hfailing : m.failing? = none := by simp only [failing?, hj]
    have hfinishing : m.finishing? = some (task, v) := by simp only [finishing?, hj]
    rw [hfailing, hfinishing, Option.toList_none, List.append_nil, Option.toList_some, heq]
    simp only
    -- a result without a text would have become a fault before
    have hcan : ({ m with jobs := rest, tasks := m.tasks.settle m.policy task (.ok v) } :
        Machine).canTrace v = true := by
      cases htracing : m.policy.tracing with
      | false => simp [canTrace, htracing]
      | true =>
        have hv : v.showable = true :=
          (hsealed htracing).noted _ (hj ▸ List.mem_cons_self ..) v task serial (by rw [hk])
        simp [canTrace, hv]
    rw [if_pos hcan]
    refine hrest.finish hm.balanced.tasks hin v ?_ (policy_trace ..) (log_trace ..)
    exact tasks_trace ..
  | error f =>
    have hfailing : m.failing? = some (task, f) := by simp only [failing?, hj]
    have hfinishing : m.finishing? = none := by simp only [finishing?, hj]
    rw [hfailing, hfinishing, Option.toList_none, List.append_nil, Option.toList_some, heq]
    exact hrest.fail hm.balanced.tasks hkept hin f rfl rfl Array.toList_push

/-- **Every move keeps the books**, and the history has an entry more if a task is forked or
ends. -/
theorem Moves.books (hmoves : Moves m m') (h : m.Books limit spawned failed finished)
    (hm : m.InOrder) (hkept : m.policy.kept = .integer limit)
    (hsealed : m.policy.tracing = true → m.Sealed) :
    m'.Books limit
      (spawned ++ (if m.forks then some (taskName m.tasks.named) else none).toList)
      (failed ++ m.failing?.toList) (finished ++ m.finishing?.toList) := by
  -- a move that neither forks nor ends a task
  have hnothing : ∀ {c : Machine}, m.forks = false → m.failing? = none → m.finishing? = none →
      c.Books limit spawned failed finished → c.Books limit
        (spawned ++ (if m.forks then some (taskName m.tasks.named) else none).toList)
        (failed ++ m.failing?.toList) (finished ++ m.finishing?.toList) := by
    intro c hforks hfailing hfinishing hbooks
    simpa [hforks, hfailing, hfinishing] using hbooks
  cases hmoves with
  | rest hq =>
    simp only [quiet, Bool.and_eq_true, List.isEmpty_iff] at hq
    refine hnothing ?_ ?_ ?_ h <;> simp [forks, failing?, finishing?, hq.1]
  | release hj hp =>
    refine hnothing ?_ ?_ ?_ (h.same rfl rfl rfl) <;> simp [forks, failing?, finishing?, hj]
  | @drop o rest hj =>
    refine hnothing ?_ ?_ ?_ (h.same rfl rfl rfl) <;>
      cases o <;> simp [forks, failing?, finishing?, hj]
  | @turn f v k rest hj hf =>
    have hforks : m.forks = f.forks := by
      unfold forks
      rw [hj]
      cases f with
      | eval e env => cases e <;> rfl
      | _ => rfl
    have hfailing : m.failing? = none := by simp only [failing?, hj]
    have hfinishing : m.finishing? = none := by
      unfold finishing?
      rw [hj]
      cases f <;> first | rfl | exact absurd trivial hf
    rw [hforks, hfailing, hfinishing, Option.toList_none, List.append_nil, Option.toList_none,
      List.append_nil]
    exact h.turn hm.balanced.tasks f v k rest
  | @fault f e k rest hj hf =>
    have hfailing : m.failing? = none := by
      unfold failing?
      rw [hj]
      cases f <;> first | rfl | exact absurd trivial hf
    refine hnothing ?_ hfailing ?_ (h.same rfl rfl rfl) <;> simp [forks, finishing?, hj]
  | @settle task serial o k rest hj =>
    have hforks : m.forks = false := by
      unfold forks
      rw [hj]
      cases o <;> rfl
    rw [hforks, if_neg Bool.false_ne_true, Option.toList_none, List.append_nil]
    exact h.settle hm hkept hsealed hj
  | @report tag o k rest hj =>
    refine hnothing ?_ ?_ ?_ (h.same rfl rfl rfl) <;>
      cases o <;> simp [forks, failing?, finishing?, hj]

end Machine

def Policy.keeping (p : Policy) (limit : Nat) : Policy := { p with kept := .integer limit }

namespace Source

variable (s : Source) (policy : Policy)

/-- The main process is no task, so there is no result of it to note. -/
lemma sealed_start : (s.start policy).Sealed := by
  obtain ⟨q, -, hstart⟩ := s.opens
  have hmain : Stack.Covered [.report 0] := by
    intro fs task serial heq
    have hbottom := (Stack.concat_inj [] fs heq).2
    cases hbottom
  have hfresh : ({ policy } : Machine).Sealed := by
    refine ⟨fun k hk => ?_, fun j hj => absurd hj List.not_mem_nil, fun q k hk => ?_⟩
    · exact absurd hk (by simp [Machine.live, Machine.waiters])
    · exact absurd hk (by simp [Machine.queue, Table.find?])
  rw [hstart]
  exact hfresh.turn (t := ⟨[], q⟩) (Sequel.seals_of_covered hmain (by simp) q)

lemma books_start (limit : Nat) : (s.start policy).Books limit [] [] [] := by
  obtain ⟨q, -, hstart⟩ := s.opens
  have htasks := Machine.tasks_turn { policy } ⟨[], q⟩ [.report 0]
  have hlog := Machine.log_turn { policy } ⟨[], q⟩ [.report 0]
  have hfresh : ({ policy } : Machine).Books limit [] [] [] := by
    refine ⟨rfl, .refl _, rfl, List.drop_nil.symm, rfl, ?_⟩
    exact (ite_self _).symm
  rw [hstart]
  refine hfresh.chat (List.forall_mem_nil _) htasks (Machine.policy_turn _ ⟨[], q⟩ _) ?_
  exact hlog.trans (congrArg _ (ite_self _))

/-- A run that is traced notes the results of its tasks at every moment. -/
lemma sealed_iterate (htracing : policy.tracing = true) (n : Nat) :
    (Machine.step^[n] (s.start policy)).Sealed := by
  have h₀ := (s.starts policy).inOrder
  induction n with
  | zero => exact s.sealed_start policy
  | succ n ih =>
    rw [Function.iterate_succ_apply']
    refine ih.step (h₀.iterate n) ?_
    rw [Machine.policy_iterate Discipline.lawful_any h₀.obeys, policy_start, htracing]

lemma books_iterate (limit n : Nat) :
    let m₀ := s.start (policy.keeping limit)
    (Machine.step^[n] m₀).Books limit (m₀.history Machine.spawning? n)
      (m₀.history Machine.failing? n) (m₀.history Machine.finishing? n) := by
  intro m₀
  have h₀ : m₀.InOrder := (s.starts _).inOrder
  induction n with
  | zero => exact s.books_start _ limit
  | succ n ih =>
    have hpolicy : (Machine.step^[n] m₀).policy = policy.keeping limit := by
      rw [Machine.policy_iterate Discipline.lawful_any h₀.obeys, policy_start]
    have hmoves := Machine.step_moves (h₀.iterate n).obeys
    rw [Function.iterate_succ_apply', Machine.history_succ, Machine.history_succ,
      Machine.history_succ]
    rw [(h₀.iterate n).spawning?_eq]
    refine hmoves.books ih (h₀.iterate n) (by rw [hpolicy]; rfl) fun htracing => ?_
    exact s.sealed_iterate _ (hpolicy ▸ htracing) n

lemma length_spawned (n : Nat) :
    ((s.start policy).history Machine.spawning? n).length = (s.start policy).forked n := by
  induction n with
  | zero => rfl
  | succ n ih =>
    rw [Machine.history_succ, List.length_append, ih, Machine.forked_succ,
      ((s.starts policy).inOrder.iterate n).spawning?_eq]
    cases (Machine.step^[n] (s.start policy)).forks <;> rfl

/-- **The books on tasks agree with the history of the run, at every moment.** Every fork so far
is running or settled, and the names handed out are `fork-0`, `fork-1` and so on. The faults
remembered are the latest of those there were, as many as the policy keeps, in order. There is
one warning for every task that failed, and in a traced run one line for every task that
finished. -/
theorem books_agree_with_history (s : Source) (policy : Policy) (limit n : Nat) :
    let m₀ := s.start (policy.keeping limit)
    let m := Machine.step^[n] m₀
    let spawned := m₀.history Machine.spawning? n
    let failed := m₀.history Machine.failing? n
    let finished := m₀.history Machine.finishing? n
    m₀.forked n = m.tasks.running.length + m.tasks.settled ∧
    spawned = (List.range (m₀.forked n)).map taskName ∧ spawned.Nodup ∧
    (failed.map (·.1) ++ finished.map (·.1) ++ m.tasks.running.map (·.1)).Perm spawned ∧
    m.tasks.failures = failed.drop (failed.length - limit) ∧
    m.tasks.failures.length = min limit failed.length ∧
    warningLines m.lines = failed.map failureLine ∧
    finished.length = m.tasks.settled - failed.length ∧
    taskLines m.lines = if policy.tracing then finished.map resultLine else [] := by
  intro m₀ m spawned failed finished
  have hbooks : m.Books limit spawned failed finished := s.books_iterate policy limit n
  have hforked : spawned.length = m₀.forked n := s.length_spawned _ n
  have hnamed : m.tasks.named = m₀.forked n := by
    rw [← hforked, hbooks.names, List.length_map, List.length_range]
  have hroll := hbooks.roll.length_eq
  have hsettled := hbooks.settled
  simp only [List.length_append, List.length_map] at hroll
  have hpolicy : m.policy = policy.keeping limit := by
    rw [Machine.policy_iterate Discipline.lawful_any (s.starts _).inOrder.obeys, policy_start]
  refine ⟨by omega, hnamed ▸ hbooks.names, hbooks.nodup, hbooks.roll, hbooks.failures, ?_,
    hbooks.warnings, by omega, ?_⟩
  · rw [hbooks.failures, length_latest]
  · rw [hbooks.results, hpolicy]
    rfl

end Source

end Parley
