import Parley.Proofs.Turn

/-!
A limit on steps bounds all work. Every process has a weight, more for a frame that may still
call for a step than for one that hands on what it is handed, and a process that has faulted only
has as many frames as it has to leave. A step that is counted pays for the frames that it puts
on a stack, or for the process that it starts, out of what is left of the limit. So the work left
goes down with every step of the machine, and there comes a time when nothing is left to do.
-/

namespace Parley

/-! ### Processes that have faulted and those that have not -/

def Job.live? : Job → Option Stack
  | ⟨.ok _, k⟩ => some k
  | ⟨.error _, _⟩ => none

def Job.faulted? : Job → Option Stack
  | ⟨.ok _, _⟩ => none
  | ⟨.error _, k⟩ => some k

namespace Machine

def live (m : Machine) : Multiset Stack := m.jobs.filterMap Job.live? + m.parked + m.waiters

def faulted (m : Machine) : Multiset Stack := m.jobs.filterMap Job.faulted?

variable {m m' : Machine} {k : Stack}

lemma live_add_faulted (m : Machine) : m.live + m.faulted = m.places := by
  have hjobs : (m.jobs.filterMap Job.live? + m.jobs.filterMap Job.faulted? : Multiset Stack) =
      m.jobs.map (·.stack) := by
    induction m.jobs with
    | nil => rfl
    | cons j rest ih =>
      obtain ⟨o, k⟩ := j
      rw [List.map_cons, ← Multiset.cons_coe, ← ih]
      cases o with
      | ok v =>
        simp only [List.filterMap_cons, Job.live?, Job.faulted?, ← Multiset.cons_coe]
        exact Multiset.cons_add ..
      | error f =>
        simp only [List.filterMap_cons, Job.live?, Job.faulted?, ← Multiset.cons_coe]
        exact Multiset.add_cons ..
  unfold live faulted places
  rw [← hjobs]
  abel

lemma faulted_resume_ok (m : Machine) (k : Stack) (v : Value) :
    (m.resume k (.ok v)).faulted = m.faulted := by
  unfold faulted resume
  rw [List.filterMap_append]
  exact congrArg _ (List.append_nil _)

lemma faulted_resume_error (m : Machine) (k : Stack) (f : Fault) :
    (m.resume k (.error f)).faulted = {k} + m.faulted := by
  unfold faulted resume
  rw [List.filterMap_append, ← Multiset.coe_add, add_comm]
  rfl

lemma live_resume_ok (m : Machine) (k : Stack) (v : Value) :
    (m.resume k (.ok v)).live = {k} + m.live := by
  have h := (m.resume k (.ok v)).live_add_faulted
  rw [places_resume, faulted_resume_ok, ← live_add_faulted, ← add_assoc] at h
  exact add_right_cancel h

lemma live_resume_error (m : Machine) (k : Stack) (f : Fault) :
    (m.resume k (.error f)).live = m.live := by
  have h := (m.resume k (.error f)).live_add_faulted
  rw [places_resume, faulted_resume_error, ← live_add_faulted, add_left_comm] at h
  exact add_right_cancel (add_left_cancel h)

/-- A step that is one too many makes its process fault. -/
lemma check_of_forbids (h : m.policy.forbids (m.steps + 1) = true) (k : Stack) :
    m.check k = ({ m with steps := m.steps + 1 } : Machine).resume k
      (.error (.stepLimitExceeded (.number m.policy.maxSteps))) := by
  simp [check, h]

lemma check_of_allows (h : m.policy.forbids (m.steps + 1) = false) (k : Stack) :
    (m.check k).live = {k} + m.live ∧ (m.check k).faulted = m.faulted ∧
      (m.check k).steps = m.steps + 1 ∧ (m.check k).parked.length ≤ m.parked.length + 1 := by
  simp only [check, h, Bool.false_eq_true, if_false]
  split
  · refine ⟨?_, rfl, rfl, by simp⟩
    unfold live
    rw [← Multiset.coe_add, Multiset.coe_singleton]
    calc _ = (m.jobs.filterMap Job.live? + (m.parked + {k}) + m.waiters : Multiset Stack) := rfl
      _ = _ := by abel
  · exact ⟨live_resume_ok .., faulted_resume_ok .., rfl, by simp [resume]⟩

lemma live_congr (hj : m'.jobs = m.jobs) (hp : m'.parked = m.parked) (hq : m'.queues = m.queues) :
    m'.live = m.live := by
  unfold live waiters
  rw [hj, hp, hq]

lemma faulted_congr (hj : m'.jobs = m.jobs) : m'.faulted = m.faulted := by
  unfold faulted
  rw [hj]

lemma send_same (m : Machine) (q : QueueId) (v : Value) :
    (m.send q v).live = m.live ∧ (m.send q v).faulted = m.faulted := by
  have hf : (m.send q v).faulted = m.faulted := by
    unfold send
    split
    · exact faulted_resume_ok ..
    · rfl
  have h := (m.send q v).live_add_faulted
  rw [places_send, ← live_add_faulted, hf] at h
  exact ⟨add_right_cancel h, hf⟩

lemma recv_same (m : Machine) (q : QueueId) (k : Stack) :
    (m.recv q k).live = {k} + m.live ∧ (m.recv q k).faulted = m.faulted := by
  have hf : (m.recv q k).faulted = m.faulted := by
    unfold recv
    split
    · exact faulted_resume_ok ..
    · rfl
  have h := (m.recv q k).live_add_faulted
  rw [places_recv, ← live_add_faulted, hf, ← add_assoc] at h
  exact ⟨add_right_cancel h, hf⟩

lemma live_of_ok {v : Value} {rest : List Job} (hj : m.jobs = ⟨.ok v, k⟩ :: rest) :
    m.live = {k} + ({ m with jobs := rest } : Machine).live := by
  unfold live
  rw [hj, ← add_assoc, ← add_assoc]
  rfl

lemma live_of_error {f : Fault} {rest : List Job} (hj : m.jobs = ⟨.error f, k⟩ :: rest) :
    m.live = ({ m with jobs := rest } : Machine).live := by
  unfold live
  rw [hj]
  rfl

lemma live_release {rest : List Stack} (hj : m.jobs = []) (hp : m.parked = k :: rest) :
    ({ m with parked := rest, jobs := [⟨.ok .unit, k⟩] } : Machine).live = m.live := by
  unfold live
  rw [hj, hp, ← Multiset.cons_coe, ← Multiset.singleton_add, ← add_assoc]
  rfl

/-! ### What stays the same -/

@[simp] lemma steps_trace (m : Machine) (t : Note) : (m.trace t).steps = m.steps := by
  unfold trace; split <;> rfl

lemma trace_same (m : Machine) (t : Note) : (m.trace t).jobs = m.jobs ∧
    (m.trace t).parked = m.parked ∧ (m.trace t).queues = m.queues := by
  unfold trace
  split <;> exact ⟨rfl, rfl, rfl⟩

lemma send_untouched (m : Machine) (q : QueueId) (v : Value) :
    (m.send q v).policy = m.policy ∧ (m.send q v).steps = m.steps ∧
      (m.send q v).parked = m.parked := by
  unfold send
  split <;> exact ⟨rfl, rfl, rfl⟩

lemma recv_untouched (m : Machine) (q : QueueId) (k : Stack) :
    (m.recv q k).policy = m.policy ∧ (m.recv q k).steps = m.steps ∧
      (m.recv q k).parked = m.parked := by
  unfold recv
  split <;> exact ⟨rfl, rfl, rfl⟩

lemma policy_deed (m : Machine) (d : Deed) : (d.apply m).policy = m.policy := by
  cases d with
  | note t => exact policy_trace ..
  | send on v => exact (send_untouched ..).1.trans (policy_trace ..)
  | fork e env => exact policy_fork ..
  | channel => rfl

lemma policy_deeds (m : Machine) (ds : List Deed) : (ds.foldl Deed.apply m).policy = m.policy := by
  induction ds generalizing m with
  | nil => rfl
  | cons d ds ih => exact (ih _).trans (policy_deed m d)

lemma policy_turn (m : Machine) (t : Turn) (k : Stack) : (t.apply k m).policy = m.policy := by
  unfold Turn.apply
  rw [← policy_deeds m t.deeds]
  cases t.sequel with
  | hand fs o => rfl
  | count fs => exact policy_check ..
  | receive on => exact (recv_untouched ..).1

lemma settle_same (hm : m.awaiting = []) (task : Atom) (serial : Nat) (o : Outcome) :
    (m.settle task serial o).policy = m.policy ∧ (m.settle task serial o).jobs = m.jobs ∧
      (m.settle task serial o).parked = m.parked ∧ (m.settle task serial o).queues = m.queues ∧
      (m.settle task serial o).steps = m.steps := by
  rw [settle_of_nobody hm]
  cases o with
  | ok v =>
    simp only
    split
    · obtain ⟨hj, hp, hq⟩ := trace_same
        ({ m with tasks := m.tasks.settle m.policy task (.ok v) } : Machine) (.finished task v)
      exact ⟨policy_trace .., hj, hp, hq, steps_trace ..⟩
    · exact ⟨rfl, rfl, rfl, rfl, rfl⟩
  | error f => exact ⟨rfl, rfl, rfl, rfl, rfl⟩

lemma Moves.policy (h : Moves m m') (hm : m.awaiting = []) : m'.policy = m.policy := by
  cases h with
  | turn => exact policy_turn ..
  | @settle task serial o k rest hj => exact (settle_same (m := { m with jobs := rest }) hm ..).1
  | _ => rfl

lemma policy_iterate {D : Discipline} (hD : D.Lawful) (hm : m.Obeys D) (n : Nat) :
    (Machine.step^[n] m).policy = m.policy := by
  induction n generalizing m with
  | zero => rfl
  | succ n ih => exact (ih (hm.step hD)).trans ((step_moves hm).policy hm.awaiting)

end Machine

/-! ### Weights -/

def Frame.weight : Frame → Nat
  | .pass | .leave _ | .received _ | .settle _ _ | .report _ => 1
  | _ => 5

def Stack.weight (k : Stack) : Nat := (k.map Frame.weight).sum

namespace Stack

@[simp] lemma weight_nil : weight [] = 0 := rfl

@[simp] lemma weight_cons (f : Frame) (k : Stack) : weight (f :: k) = f.weight + k.weight := by
  simp [weight]

@[simp] lemma weight_append (fs k : Stack) : weight (fs ++ k) = fs.weight + k.weight := by
  simp [weight]

end Stack

namespace Frame

lemma weight_pos (f : Frame) : 1 ≤ f.weight := by
  cases f <;> simp [weight]

lemma weight_le (f : Frame) : f.weight ≤ 5 := by
  cases f <;> simp [weight]

lemma IsPlain.weight_eq {f : Frame} (h : f.IsPlain) : f.weight = 1 := by
  obtain rfl | ⟨caption, rfl⟩ := h <;> rfl

lemma weight_of_not_isLight {f : Frame} (h : ¬ f.IsLight) : f.weight = 5 := by
  cases f <;> simp_all [IsLight, weight]

end Frame

namespace Stack

lemma length_le_weight (k : Stack) : k.length ≤ k.weight := by
  induction k with
  | nil => simp
  | cons f k ih =>
    have := f.weight_pos
    rw [List.length_cons, weight_cons]
    omega

lemma weight_le (k : Stack) : k.weight ≤ 5 * k.length := by
  induction k with
  | nil => simp
  | cons f k ih =>
    have := f.weight_le
    rw [List.length_cons, weight_cons]
    omega

lemma weight_of_isPlain {k : Stack} (h : ∀ f ∈ k, f.IsPlain) : k.weight = k.length := by
  induction k with
  | nil => rfl
  | cons f k ih =>
    rw [List.length_cons, weight_cons, (h f (List.mem_cons_self ..)).weight_eq,
      ih fun g hg => h g (List.mem_cons_of_mem _ hg), Nat.add_comm]

end Stack

def Deed.cost : Deed → Nat
  | .fork _ _ => 3
  | _ => 0

def Sequel.cost : Sequel → Nat
  | .hand fs (.ok _) => fs.weight
  | .hand fs (.error _) => fs.length
  | .count fs => fs.length
  | .receive _ => 1

def Turn.cost (t : Turn) : Nat := (t.deeds.map Deed.cost).sum + t.sequel.cost

/-- The frames that a counted step puts on a stack are paid for. -/
def Sequel.IsCovered (q : Sequel) : Prop := ∀ fs, q = .count fs → fs.weight ≤ 15

/-- A turn leaves less to do than the frame that took it. -/
lemma Frame.Takes.cost_lt {tracing : Bool} {f : Frame} {v : Value} {t : Turn}
    (h : f.Takes tracing v t) : t.cost < f.weight ∧ t.sequel.IsCovered := by
  have hheavy : ∀ {a env}, f = .eval a env → f.weight = 5 := fun hf => by subst hf; rfl
  have hpos := f.weight_pos
  -- only a turn that notes a beginning contains another
  induction h with
  | hand o => cases o <;> exact ⟨hpos, by simp [Sequel.IsCovered]⟩
  | leave | received => exact ⟨hpos, by simp [Sequel.IsCovered, Turn.after, Turn.hand]⟩
  | push hf hp hl w =>
    rw [weight_of_not_isLight hf]
    refine ⟨?_, by simp [Sequel.IsCovered, Turn.hand]⟩
    simp only [Turn.cost, Turn.hand, Sequel.cost, Stack.weight_of_isPlain hp, List.map_nil,
      List.sum_nil]
    omega
  | send hf =>
    rw [weight_of_not_isLight hf]
    exact ⟨(by decide : 2 < 5), by simp [Sequel.IsCovered, Turn.after, Turn.hand]⟩
  | @count e env gs hf hi hl =>
    rw [weight_of_not_isLight hf]
    have hgs := Stack.weight_le gs
    refine ⟨?_, ?_⟩
    · simp only [Turn.cost, Turn.eval, Sequel.cost, List.map_nil, List.sum_nil, List.length_cons]
      omega
    · rintro fs hfs
      cases hfs
      rw [Stack.weight_cons]
      have : (Frame.eval e env).weight = 5 := rfl
      omega
  | receive hf =>
    rw [weight_of_not_isLight hf]
    exact ⟨(by decide : 1 < 5), by simp [Sequel.IsCovered]⟩
  | fork hf hp hl w =>
    rw [hheavy hf]
    refine ⟨?_, by simp [Sequel.IsCovered, Turn.after, Turn.hand]⟩
    simp only [Turn.cost, Turn.after, Turn.hand, Sequel.cost, Stack.weight_of_isPlain hp,
      List.map_cons, List.map_nil, List.sum_cons, List.sum_nil, Deed.cost]
    omega
  | channel hf hp hl w =>
    rw [hheavy hf]
    refine ⟨?_, by simp [Sequel.IsCovered, Turn.after, Turn.hand]⟩
    simp only [Turn.cost, Turn.after, Turn.hand, Sequel.cost, Stack.weight_of_isPlain hp,
      List.map_cons, List.map_nil, List.sum_cons, List.sum_nil, Deed.cost]
    omega
  | enter _ _ ih =>
    refine ⟨?_, ih.2⟩
    simpa [Turn.cost, Turn.after, Deed.cost] using ih.1

/-! ### The work that is left -/

namespace Machine

variable {m m' : Machine} {k : Stack} {limit : Nat}

/-- The work that is left, with a limit on steps: every process has its weight, one that has let
others go first has yet to come back, and every step left pays for sixteen. -/
def work (limit : Nat) (m : Machine) : Nat :=
  (m.live.map fun k => k.weight + 1).sum + (m.faulted.map fun k => k.length + 1).sum +
    m.parked.length + 16 * (limit - m.steps)

def IsLimited (limit : Nat) (m : Machine) : Prop := m.policy.maxSteps = .integer limit

lemma IsLimited.of_policy_eq (hm : m.IsLimited limit) (h : m'.policy = m.policy) :
    m'.IsLimited limit :=
  (congrArg Policy.maxSteps h).trans hm

lemma IsLimited.forbids (hm : m.IsLimited limit) (i : Nat) :
    m.policy.forbids i = decide (limit < i) := by
  unfold Policy.forbids
  rw [hm]
  simp [Number.below]

lemma work_congr (hl : m'.live = m.live) (hf : m'.faulted = m.faulted)
    (hp : m'.parked = m.parked) (hs : m'.steps = m.steps) : m'.work limit = m.work limit := by
  unfold work
  rw [hl, hf, hp, hs]

lemma work_resume_ok (m : Machine) (k : Stack) (v : Value) :
    (m.resume k (.ok v)).work limit = m.work limit + k.weight + 1 := by
  unfold work
  rw [live_resume_ok, faulted_resume_ok, Multiset.map_add, Multiset.sum_add, Multiset.map_singleton,
    Multiset.sum_singleton]
  simp only [resume]
  omega

lemma work_resume_error (m : Machine) (k : Stack) (f : Fault) :
    (m.resume k (.error f)).work limit = m.work limit + k.length + 1 := by
  unfold work
  rw [live_resume_error, faulted_resume_error, Multiset.map_add, Multiset.sum_add,
    Multiset.map_singleton, Multiset.sum_singleton]
  simp only [resume]
  omega

/-- A step that is counted is paid for by the limit, and one too many leaves only frames to be
left. -/
lemma work_check_le (hm : m.IsLimited limit) (fs : Stack) (hfs : fs.weight ≤ 15) (k : Stack) :
    (m.check (fs ++ k)).work limit ≤ m.work limit + fs.length + k.weight + 1 := by
  cases h : m.policy.forbids (m.steps + 1) with
  | true =>
    have hsteps : ({ m with steps := m.steps + 1 } : Machine).work limit ≤ m.work limit := by
      unfold work
      have : (limit - (m.steps + 1)) ≤ limit - m.steps := by omega
      exact Nat.add_le_add_left (Nat.mul_le_mul_left 16 this) _
    have hk := k.length_le_weight
    rw [check_of_forbids h, work_resume_error, List.length_append]
    omega
  | false =>
    obtain ⟨hlive, hfaulted, hsteps, hparked⟩ := check_of_allows h (fs ++ k)
    have hle : m.steps + 1 ≤ limit := by
      have := hm.forbids (m.steps + 1)
      rw [h] at this
      simpa using this.symm
    unfold work
    rw [hlive, hfaulted, hsteps, Multiset.map_add, Multiset.sum_add, Multiset.map_singleton,
      Multiset.sum_singleton, Stack.weight_append]
    omega

lemma work_recv (m : Machine) (q : QueueId) (k : Stack) :
    (m.recv q k).work limit = m.work limit + k.weight + 1 := by
  obtain ⟨hlive, hfaulted⟩ := recv_same m q k
  obtain ⟨-, hsteps, hparked⟩ := recv_untouched m q k
  unfold work
  rw [hlive, hfaulted, hsteps, hparked, Multiset.map_add, Multiset.sum_add, Multiset.map_singleton,
    Multiset.sum_singleton]
  omega

lemma work_trace (m : Machine) (t : Note) : (m.trace t).work limit = m.work limit := by
  obtain ⟨hj, hp, hq⟩ := trace_same m t
  exact work_congr (live_congr hj hp hq) (faulted_congr hj) hp (steps_trace ..)

lemma work_deed_le (hm : m.IsLimited limit) (d : Deed) :
    (d.apply m).work limit ≤ m.work limit + d.cost := by
  cases d with
  | note t => exact Nat.le_of_eq (work_trace ..)
  | send on v =>
    obtain ⟨hlive, hfaulted⟩ := send_same (m.trace (.sent v on)) on.write v
    obtain ⟨-, hsteps, hparked⟩ := send_untouched (m.trace (.sent v on)) on.write v
    exact Nat.le_of_eq ((work_congr hlive hfaulted hparked hsteps).trans (work_trace ..))
  | fork e env =>
    have hbooks : (m.nextName.2.register m.nextName.1).2.IsLimited limit := hm
    have hcheck := work_check_le hbooks
      [.eval e env, .settle (.text m.tasks.nextName) m.tasks.started] (by decide : 6 ≤ 15) []
    exact hcheck
  | channel => exact Nat.le_refl _

lemma work_deeds_le (hm : m.IsLimited limit) (ds : List Deed) :
    (ds.foldl Deed.apply m).work limit ≤ m.work limit + (ds.map Deed.cost).sum := by
  induction ds generalizing m with
  | nil => exact Nat.le_refl _
  | cons d ds ih =>
    have hd := work_deed_le hm d
    have hds := @ih (d.apply m) (hm.of_policy_eq (policy_deed ..))
    rw [List.map_cons, List.sum_cons]
    exact hds.trans (by omega)

lemma work_sequel_le (hm : m.IsLimited limit) {q : Sequel} (hq : q.IsCovered) (k : Stack) :
    (q.apply k m).work limit ≤ m.work limit + q.cost + k.weight + 1 := by
  have hk := k.length_le_weight
  cases q with
  | hand fs o =>
    cases o with
    | ok v =>
      simp only [Sequel.apply, Sequel.cost, work_resume_ok, Stack.weight_append]
      omega
    | error f =>
      simp only [Sequel.apply, Sequel.cost, work_resume_error, List.length_append]
      omega
  | count fs => exact work_check_le hm fs (hq fs rfl) k
  | receive on =>
    simp only [Sequel.apply, Sequel.cost, work_recv, Stack.weight_cons, Frame.weight]
    omega

lemma work_turn_le (hm : m.IsLimited limit) {t : Turn} (ht : t.sequel.IsCovered) (k : Stack) :
    (t.apply k m).work limit ≤ m.work limit + t.cost + k.weight + 1 := by
  have hdeeds := work_deeds_le hm t.deeds
  have hsequel := work_sequel_le (hm.of_policy_eq (policy_deeds m t.deeds)) ht k
  unfold Turn.apply Turn.cost
  omega

lemma work_of_ok {v : Value} {rest : List Job} (hj : m.jobs = ⟨.ok v, k⟩ :: rest) :
    m.work limit = ({ m with jobs := rest } : Machine).work limit + k.weight + 1 := by
  have hlive := live_of_ok hj
  have hfaulted : m.faulted = ({ m with jobs := rest } : Machine).faulted := by
    unfold faulted
    rw [hj]
    rfl
  unfold work
  rw [hlive, hfaulted, Multiset.map_add, Multiset.sum_add, Multiset.map_singleton,
    Multiset.sum_singleton]
  simp only
  omega

lemma work_of_error {f : Fault} {rest : List Job} (hj : m.jobs = ⟨.error f, k⟩ :: rest) :
    m.work limit = ({ m with jobs := rest } : Machine).work limit + k.length + 1 := by
  have hlive := live_of_error hj
  have hfaulted : m.faulted = {k} + ({ m with jobs := rest } : Machine).faulted := by
    unfold faulted
    rw [hj]
    rfl
  unfold work
  rw [hlive, hfaulted, Multiset.map_add, Multiset.sum_add, Multiset.map_singleton,
    Multiset.sum_singleton]
  simp only
  omega

/-- Whatever outcome a job brings, taking it off the list is some work done. -/
lemma work_of_jobs {o : Outcome} {rest : List Job} (hj : m.jobs = ⟨o, k⟩ :: rest) :
    ({ m with jobs := rest } : Machine).work limit < m.work limit := by
  cases o with
  | ok v =>
    rw [work_of_ok hj]
    omega
  | error f =>
    rw [work_of_error hj]
    omega

/-- **Every move leaves less to do.** -/
theorem Moves.work_lt (h : Moves m m') (hm : m.IsLimited limit) (ha : m.awaiting = [])
    (hq : m.quiet = false) : m'.work limit < m.work limit := by
  cases h with
  | rest h => exact absurd h (by rw [hq]; simp)
  | @release k rest hj hp =>
    have hlive := live_release hj hp
    have hfaulted : ({ m with parked := rest, jobs := [⟨.ok .unit, k⟩] } : Machine).faulted =
        m.faulted := by
      unfold faulted
      rw [hj]
      rfl
    unfold work
    rw [hlive, hfaulted, hp, List.length_cons]
    simp only
    omega
  | drop hj => exact work_of_jobs hj
  | @turn f v k rest hj hf =>
    -- what the frame leaves to be done is less than the frame was worth
    obtain ⟨hcost, hcovered⟩ := (f.takes m.policy.tracing m.allocated v).cost_lt
    have hlimited : ({ m with jobs := rest } : Machine).IsLimited limit := hm
    have hturn := work_turn_le hlimited hcovered k
    rw [work_of_ok hj, Stack.weight_cons]
    omega
  | fault hj hf =>
    rw [work_resume_error, work_of_error hj, List.length_cons]
    omega
  | @settle task serial o k rest hj =>
    obtain ⟨-, hjobs, hparked, hqueues, hsteps⟩ :=
      settle_same (m := { m with jobs := rest }) ha task serial o
    rw [work_congr (live_congr hjobs hparked hqueues) (faulted_congr hjobs) hparked hsteps]
    exact work_of_jobs hj
  | report hj => exact work_of_jobs hj

/-- A machine under a limit comes to rest within the work that is left. -/
lemma exists_quiet {D : Discipline} (hD : D.Lawful) (hm : m.Obeys D) (hl : m.IsLimited limit) :
    ∃ n ≤ m.work limit, (Machine.step^[n] m).quiet = true := by
  induction hw : m.work limit using Nat.strongRecOn generalizing m with
  | ind w ih =>
    cases hq : m.quiet with
    | true => exact ⟨0, Nat.zero_le _, hq⟩
    | false =>
      have hmoves := step_moves hm
      have hlt := hmoves.work_lt hl hm.awaiting hq
      have hlimited := hl.of_policy_eq (hmoves.policy hm.awaiting)
      obtain ⟨n, hn, hquiet⟩ := ih _ (by omega) (hm.step hD) hlimited rfl
      exact ⟨n + 1, by omega, hquiet⟩

end Machine

/-! ### Runs -/

def Policy.within (p : Policy) (limit : Nat) : Policy := { p with maxSteps := .integer limit }

namespace Source

variable (s : Source) (policy : Policy) (limit : Nat)

lemma policy_start : (s.start policy).policy = policy := by
  obtain ⟨q, -, hstart⟩ := s.opens
  rw [hstart]
  exact Machine.policy_turn _ ⟨[], q⟩ _

lemma isLimited_start : (s.start (policy.within limit)).IsLimited limit :=
  congrArg Policy.maxSteps (s.policy_start _)

lemma work_start_le : (s.start (policy.within limit)).work limit ≤ 16 * (limit + 1) := by
  obtain ⟨q, hq, hstart⟩ := s.opens
  have hfresh : ({ policy := policy.within limit } : Machine).IsLimited limit := rfl
  have hwork : ({ policy := policy.within limit } : Machine).work limit = 16 * limit := by
    simp [Machine.work, Machine.live, Machine.faulted, Machine.waiters]
  have hcost : q.cost ≤ 4 ∧ q.IsCovered := by
    cases hq with
    | hand hp hl o =>
      refine ⟨?_, by simp [Sequel.IsCovered]⟩
      cases o with
      | ok v => simpa [Sequel.cost, Stack.weight_of_isPlain hp] using hl
      | error f => exact hl
    | @count e env gs hp hl =>
      refine ⟨?_, ?_⟩
      · simp only [Sequel.cost, List.length_cons]
        omega
      · rintro fs hfs
        cases hfs
        rw [Stack.weight_cons, Stack.weight_of_isPlain hp]
        have : (Frame.eval e env).weight = 5 := rfl
        omega
  have hle := Machine.work_sequel_le hfresh hcost.2 [.report 0]
  have hreport : Stack.weight [.report 0] = 1 := rfl
  rw [hstart]
  omega

lemma exists_quiet : ∃ n ≤ 16 * (limit + 1),
    (Machine.step^[n] (s.start (policy.within limit))).quiet = true := by
  have hobeys := (s.starts (policy.within limit)).inOrder.obeys
  obtain ⟨n, hn, hquiet⟩ :=
    Machine.exists_quiet Discipline.lawful_any hobeys (s.isLimited_start policy limit)
  exact ⟨n, hn.trans (s.work_start_le policy limit), hquiet⟩

/-- **A limit on steps ends every run.** However the program goes on, by recursion without end,
by forks without end or through a large index, nothing is left to do after at most sixteen jobs
for each step that is allowed and sixteen more. -/
theorem limited_run_comes_to_rest (s : Source) (policy : Policy) (limit : Nat) :
    (∃ n ≤ 16 * (limit + 1),
      (Machine.step^[n] (s.start (policy.within limit))).quiet = true) ∧
    ∀ fuel > 16 * (limit + 1), ∃ r, s.run fuel (policy.within limit) = some r := by
  refine ⟨s.exists_quiet policy limit, fun fuel hfuel => ?_⟩
  obtain ⟨n, hn, hquiet⟩ := s.exists_quiet policy limit
  have hdrain := Machine.runUntil_of_le (Machine.drain_iterate hquiet) (by omega : n + 1 ≤ fuel)
  exact ⟨_, Option.map_eq_some_iff.mpr ⟨_, hdrain, rfl⟩⟩

end Source

end Parley
