import Parley.Proofs.Budget

/-!
The limit on steps is exact, however the processes take turns. As long as it is not exceeded a
run goes as it would without a limit, and no more expressions are evaluated than it allows. A
process that counts a step too many faults and counts no other, so the count ends at most one
step for each process beyond the limit.

For this the checks of a run are put down in order in a ledger, by the process that makes them,
and it is compared with the processes that have not faulted.
-/

namespace Parley

/-! ### Counting steps -/

def Deed.checks : Deed → Nat
  | .fork _ _ => 1
  | _ => 0

def Sequel.checks : Sequel → Nat
  | .count _ => 1
  | _ => 0

def Turn.checks (t : Turn) : Nat := (t.deeds.map Deed.checks).sum + t.sequel.checks

namespace Machine

variable {m m' : Machine} {k : Stack} {limit : Nat} {l : Number}

@[simp] lemma steps_check (m : Machine) (k : Stack) : (m.check k).steps = m.steps + 1 := by
  simp only [check]
  split
  · rfl
  · split <;> rfl

lemma steps_deed (m : Machine) (d : Deed) : (d.apply m).steps = m.steps + d.checks := by
  cases d with
  | note t => exact steps_trace ..
  | send on v => exact (send_untouched ..).2.1.trans (steps_trace ..)
  | fork e env => exact steps_check ..
  | channel => rfl

lemma steps_deeds (m : Machine) (ds : List Deed) :
    (ds.foldl Deed.apply m).steps = m.steps + (ds.map Deed.checks).sum := by
  induction ds generalizing m with
  | nil => rfl
  | cons d ds ih =>
    rw [List.foldl_cons, ih, steps_deed, List.map_cons, List.sum_cons, Nat.add_assoc]

lemma steps_sequel (m : Machine) (q : Sequel) (k : Stack) :
    (q.apply k m).steps = m.steps + q.checks := by
  cases q with
  | hand fs o => rfl
  | count fs => exact steps_check ..
  | receive on => exact (recv_untouched ..).2.1

lemma steps_turn (m : Machine) (t : Turn) (k : Stack) :
    (t.apply k m).steps = m.steps + t.checks := by
  unfold Turn.apply Turn.checks
  rw [steps_sequel, steps_deeds, Nat.add_assoc]

/-! ### Another limit -/

def relimit (l : Number) (m : Machine) : Machine :=
  { m with policy := { m.policy with maxSteps := l } }

lemma relimit_trace (m : Machine) (t : Note) : (m.relimit l).trace t = (m.trace t).relimit l := by
  cases h : m.policy.tracing <;> simp [trace, relimit, note, h]

lemma relimit_send (m : Machine) (q : QueueId) (v : Value) :
    (m.relimit l).send q v = (m.send q v).relimit l := by
  cases hq : (m.queue q).waiting with
  | nil =>
    rw [send_of_nil v hq, send_of_nil (m := m.relimit l) v hq]
    rfl
  | cons k rest =>
    rw [send_of_cons v hq, send_of_cons (m := m.relimit l) v hq]
    rfl

lemma relimit_recv (m : Machine) (q : QueueId) (k : Stack) :
    (m.relimit l).recv q k = (m.recv q k).relimit l := by
  cases hq : (m.queue q).buffer with
  | nil =>
    rw [recv_of_nil k hq, recv_of_nil (m := m.relimit l) k hq]
    rfl
  | cons v rest =>
    rw [recv_of_cons k hq, recv_of_cons (m := m.relimit l) k hq]
    rfl

lemma relimit_settle (hm : m.awaiting = []) (task : Atom) (serial : Nat) (o : Outcome) :
    (m.relimit l).settle task serial o = (m.settle task serial o).relimit l := by
  rw [settle_of_nobody hm, settle_of_nobody (m := m.relimit l) hm]
  cases o with
  | ok v =>
    have hclosed : ∀ c : Machine,
        (if c.canTrace v then (c.relimit l).trace (.finished task v) else c.relimit l) =
          (if c.canTrace v then c.trace (.finished task v) else c).relimit l := by
      intro c
      split
      · exact relimit_trace ..
      · rfl
    exact hclosed { m with tasks := m.tasks.settle m.policy task (.ok v) }
  | error f => rfl

/-- A step that neither limit forbids is the same step. -/
lemma relimit_check (h : m.policy.forbids (m.steps + 1) = false)
    (hl : l.below (m.steps + 1) = false) (k : Stack) :
    (m.relimit l).check k = (m.check k).relimit l := by
  have hl : (m.relimit l).policy.forbids (m.steps + 1) = false := hl
  have hp : ∀ i, (m.relimit l).policy.pauses i = m.policy.pauses i := fun _ => rfl
  have hs : (m.relimit l).steps = m.steps := rfl
  simp only [check, hs, h, hl, hp, Bool.false_eq_true, if_false]
  split <;> rfl

def IsFree (m : Machine) : Prop := m.policy.maxSteps = .infinite false

lemma IsFree.of_policy_eq (hm : m.IsFree) (h : m'.policy = m.policy) : m'.IsFree :=
  (congrArg Policy.maxSteps h).trans hm

lemma IsFree.forbids (hm : m.IsFree) (i : Nat) : m.policy.forbids i = false := by
  unfold Policy.forbids
  rw [hm]
  rfl

lemma below_integer {i : Nat} (h : i ≤ limit) : (Number.integer limit).below i = false := by
  simp only [Number.below, decide_eq_false_iff_not]
  omega

lemma relimit_deed (hm : m.IsFree) {d : Deed} (h : (d.apply m).steps ≤ limit) :
    d.apply (m.relimit (.integer limit)) = (d.apply m).relimit (.integer limit) := by
  cases d with
  | note t => exact relimit_trace ..
  | send on v =>
    simp only [Deed.apply, relimit_trace]
    exact relimit_send ..
  | fork e env =>
    rw [steps_deed] at h
    exact relimit_check (m := (m.nextName.2.register m.nextName.1).2) (hm.forbids _)
      (below_integer h) _
  | channel => rfl

lemma relimit_deeds (hm : m.IsFree) {ds : List Deed} (h : (ds.foldl Deed.apply m).steps ≤ limit) :
    ds.foldl Deed.apply (m.relimit (.integer limit)) =
      (ds.foldl Deed.apply m).relimit (.integer limit) := by
  induction ds generalizing m with
  | nil => rfl
  | cons d ds ih =>
    have hd : (d.apply m).steps ≤ limit := by
      rw [List.foldl_cons, steps_deeds] at h
      omega
    rw [List.foldl_cons, List.foldl_cons, relimit_deed hm hd]
    exact ih (hm.of_policy_eq (policy_deed ..)) h

lemma relimit_sequel (hm : m.IsFree) {q : Sequel} (h : (q.apply k m).steps ≤ limit) :
    q.apply k (m.relimit (.integer limit)) = (q.apply k m).relimit (.integer limit) := by
  cases q with
  | hand fs o => rfl
  | count fs =>
    rw [steps_sequel] at h
    exact relimit_check (hm.forbids _) (below_integer h) _
  | receive on => exact relimit_recv ..

lemma relimit_turn (hm : m.IsFree) {t : Turn} (h : (t.apply k m).steps ≤ limit) :
    t.apply k (m.relimit (.integer limit)) = (t.apply k m).relimit (.integer limit) := by
  have hdeeds : (t.deeds.foldl Deed.apply m).steps ≤ limit := by
    unfold Turn.apply at h
    rw [steps_sequel] at h
    omega
  unfold Turn.apply
  rw [relimit_deeds hm hdeeds]
  exact relimit_sequel (hm.of_policy_eq (policy_deeds ..)) h

/-- A move under a limit counts the same steps, and it is the same move if the limit allows
them. -/
lemma Moves.relimit (h : Moves m m') (hm : m.IsFree) (ha : m.awaiting = []) (limit : Nat) :
    ∃ m'', Moves (m.relimit (.integer limit)) m'' ∧ m''.steps = m'.steps ∧
      (m'.steps ≤ limit → m'' = m'.relimit (.integer limit)) := by
  cases h with
  | rest h => exact ⟨_, .rest h, rfl, fun _ => rfl⟩
  | release hj hp => exact ⟨_, .release hj hp, rfl, fun _ => rfl⟩
  | drop hj => exact ⟨_, .drop hj, rfl, fun _ => rfl⟩
  | @turn f v k rest hj hf =>
    refine ⟨_, .turn hj hf, ?_, fun h => ?_⟩
    · rw [steps_turn, steps_turn]
      rfl
    · exact relimit_turn (m := { m with jobs := rest }) hm h
  | fault hj hf => exact ⟨_, .fault hj hf, rfl, fun _ => rfl⟩
  | @settle task serial o k rest hj =>
    have heq := relimit_settle (m := { m with jobs := rest }) (l := .integer limit) ha task serial o
    exact ⟨_, .settle hj, (congrArg Machine.steps heq : _), fun _ => heq⟩
  | report hj => exact ⟨_, .report hj, rfl, fun _ => rfl⟩

end Machine

/-! ### The ledger -/

def Frame.serial? : Frame → Option Nat
  | .settle _ serial => some serial
  | _ => none

/-- The task that a process is, if it is not the main process. -/
def Stack.task? (k : Stack) : Option Nat := k.findSome? Frame.serial?

lemma Frame.serial?_eq_none {f : Frame} (h : ¬ f.IsBottom) : f.serial? = none := by
  cases f <;> simp_all [serial?, IsBottom]

lemma Stack.task?_append {fs k : Stack} (h : ∀ f ∈ fs, ¬ f.IsBottom) :
    task? (fs ++ k) = task? k := by
  have hfs : fs.findSome? Frame.serial? = none :=
    List.findSome?_eq_none_iff.mpr fun f hf => Frame.serial?_eq_none (h f hf)
  unfold task?
  rw [List.findSome?_append, hfs]
  rfl

lemma Stack.task?_cons {f : Frame} {k : Stack} (h : ¬ f.IsBottom) : task? (f :: k) = task? k :=
  show task? ([f] ++ k) = task? k from task?_append (by simpa using h)

/-- The main process and so many tasks. -/
def roster (started : Nat) : Multiset (Option Nat) := none ::ₘ (Multiset.range started).map some

lemma roster_succ (n : Nat) : roster (n + 1) = {some n} + roster n := by
  simp [roster, Multiset.range_succ, Multiset.singleton_add]

lemma nodup_roster (n : Nat) : (roster n).Nodup := by
  unfold roster
  rw [Multiset.nodup_cons]
  exact ⟨by simp, (Multiset.nodup_range n).map (Option.some_injective _)⟩

lemma card_roster (n : Nat) : (roster n).card = n + 1 := by simp [roster]

namespace Machine

variable {D : Discipline} {m m' : Machine} {k fs : Stack} {limit : Nat}

def owners (m : Machine) : Multiset (Option Nat) := m.live.map Stack.task?

/-- The process whose step the next move counts, if it counts one: the task that it starts, or
else the process whose turn it is. -/
def counting? (m : Machine) : Option (Option Nat) :=
  if m.step.steps = m.steps then none
  else if m.step.tasks.started = m.tasks.started then m.jobs.head?.map (·.stack.task?)
  else some (some m.tasks.started)

/-- The checks of a run up to a moment in the order they are made, by the processes that make
them. What has been counted when it begins is for the main process. -/
def ledger (m : Machine) (n : Nat) : List (Option Nat) :=
  List.replicate m.steps none ++ (List.range n).filterMap fun i => (Machine.step^[i] m).counting?

lemma ledger_succ (m : Machine) (n : Nat) :
    m.ledger (n + 1) = m.ledger n ++ (Machine.step^[n] m).counting?.toList := by
  unfold ledger
  rw [List.range_succ, List.filterMap_append, ← List.append_assoc]
  cases h : (Machine.step^[n] m).counting? <;> simp [h]

/-- What the process `o`, which is in hand, does to the count of steps, the tasks started and
the processes that have not faulted. One that counts a step too many is no longer among them. -/
inductive Tally (limit : Nat) (m : Machine) (o : Option Nat) (m' : Machine) : Prop
  | still (hs : m'.steps = m.steps) (ht : m'.tasks.started = m.tasks.started)
      (ho : m'.owners ≤ {o} + m.owners)
  | counted (hs : m'.steps = m.steps + 1) (ht : m'.tasks.started = m.tasks.started)
      (ho : (if limit ≤ m.steps then {o} else 0) + m'.owners ≤ {o} + m.owners)
  | forked (hs : m'.steps = m.steps + 1) (ht : m'.tasks.started = m.tasks.started + 1)
      (ho : (if limit ≤ m.steps then {some m.tasks.started} else 0) + m'.owners ≤
        {some m.tasks.started} + ({o} + m.owners))

lemma owners_congr (hl : m'.live = m.live) : m'.owners = m.owners := by
  unfold owners
  rw [hl]

lemma owners_resume_ok (hf : ∀ f ∈ fs, ¬ f.IsBottom) (k : Stack) (v : Value) :
    (m.resume (fs ++ k) (.ok v)).owners = {k.task?} + m.owners := by
  unfold owners
  rw [live_resume_ok, Multiset.map_add, Multiset.map_singleton, Stack.task?_append hf]

lemma owners_check (hm : m.IsLimited limit) (fs : Stack) (hf : ∀ f ∈ fs, ¬ f.IsBottom)
    (k : Stack) :
    (if limit ≤ m.steps then {k.task?} else 0) + (m.check (fs ++ k)).owners =
      {k.task?} + m.owners := by
  have hforbids := hm.forbids (m.steps + 1)
  by_cases h : limit ≤ m.steps
  · have hf : m.policy.forbids (m.steps + 1) = true := by
      rw [hforbids, decide_eq_true_iff]
      omega
    rw [if_pos h, check_of_forbids hf, owners_congr (live_resume_error ..)]
    rfl
  · have ha : m.policy.forbids (m.steps + 1) = false := by
      rw [hforbids, decide_eq_false_iff_not]
      omega
    rw [if_neg h, zero_add]
    unfold owners
    rw [(check_of_allows ha _).1, Multiset.map_add, Multiset.map_singleton, Stack.task?_append hf]

lemma started_trace (m : Machine) (t : Note) : (m.trace t).tasks.started = m.tasks.started := by
  unfold trace
  split <;> rfl

lemma started_settle (ha : m.awaiting = []) (task : Atom) (serial : Nat) (o : Outcome) :
    (m.settle task serial o).tasks.started = m.tasks.started := by
  have hbooks : (m.tasks.settle m.policy task o).started = m.tasks.started := by
    unfold Tasks.settle
    cases o with
    | ok v => rfl
    | error f => simp only; split <;> rfl
  rw [settle_of_nobody ha]
  cases o with
  | ok v =>
    simp only
    split
    · exact (started_trace ..).trans hbooks
    · exact hbooks
  | error f => exact hbooks

lemma owners_trace (m : Machine) (t : Note) : (m.trace t).owners = m.owners := by
  obtain ⟨hj, hp, hq⟩ := trace_same m t
  exact owners_congr (live_congr hj hp hq)

namespace Tally

/-- What a process does to another machine that has the same count and the same processes. -/
lemma congr {o : Option Nat} {m₁ : Machine} (h : Tally limit m₁ o m') (hs : m₁.steps = m.steps)
    (ht : m₁.tasks.started = m.tasks.started) (ho : m₁.owners = m.owners) :
    Tally limit m o m' := by
  cases h with
  | still hs' ht' ho' => exact .still (hs'.trans hs) (ht'.trans ht) (ho ▸ ho')
  | counted hs' ht' ho' => exact .counted (hs ▸ hs') (ht'.trans ht) (by rwa [hs, ho] at ho')
  | forked hs' ht' ho' => exact .forked (hs ▸ hs') (ht ▸ ht') (by rwa [hs, ht, ho] at ho')

lemma hand (fs : Stack) (hf : ∀ f ∈ fs, ¬ f.IsBottom) (k : Stack) (o : Outcome) :
    Tally limit m k.task? (m.resume (fs ++ k) o) := by
  refine .still rfl rfl ?_
  cases o with
  | ok v => exact le_of_eq (owners_resume_ok hf k v)
  | error e =>
    rw [owners_congr (live_resume_error ..)]
    exact Multiset.le_add_left ..

lemma check (hm : m.IsLimited limit) (fs : Stack) (hf : ∀ f ∈ fs, ¬ f.IsBottom) (k : Stack) :
    Tally limit m k.task? (m.check (fs ++ k)) :=
  .counted (steps_check ..) (congrArg Tasks.started (check_same ..).2.1)
    (le_of_eq (owners_check hm fs hf k))

lemma fork (hm : m.IsLimited limit) (e : Expr) (env : Env) (hf : ∀ f ∈ fs, ¬ f.IsBottom)
    (k : Stack) (v : Value) :
    Tally limit m k.task? ((m.fork e env).resume (fs ++ k) (.ok v)) := by
  have hstarted : (m.fork e env).tasks.started = m.tasks.started + 1 :=
    congrArg Tasks.started (check_same ..).2.1
  have hbooks : (m.nextName.2.register m.nextName.1).2.IsLimited limit := hm
  have howners := owners_check hbooks [.eval e env] (by simp [Frame.IsBottom])
    [.settle (.text m.tasks.nextName) m.tasks.started]
  refine .forked (steps_check ..) hstarted ?_
  rw [owners_resume_ok hf, add_left_comm, add_left_comm {some m.tasks.started}]
  exact le_of_eq (congrArg ({k.task?} + ·) howners)

lemma turn {tracing : Bool} {f : Frame} {v : Value} {t : Turn} (h : f.Takes tracing v t)
    (hm : m.IsLimited limit) (k : Stack) : Tally limit m k.task? (t.apply k m) := by
  have hplain : ∀ {fs : Stack}, (∀ g ∈ fs, g.IsPlain) → ∀ g ∈ fs, ¬ g.IsBottom :=
    fun hp g hg => (hp g hg).isInner.not_isBottom
  have hpass : ∀ g ∈ [Frame.pass, Frame.pass], ¬ g.IsBottom := by simp [Frame.IsBottom]
  have hnote : ∀ (t : Note) (m' : Machine), Tally limit (m.trace t) k.task? m' →
      Tally limit m k.task? m' :=
    fun t m' h => h.congr (steps_trace ..) (started_trace ..) (owners_trace ..)
  -- a note that comes first changes the machine that the turn starts from
  induction h generalizing m with
  | hand o => exact .hand [] (by simp) k o
  | leave | received => exact hnote _ _ (.hand [] (by simp) k _)
  | push hf hp hl w => exact .hand _ (hplain hp) k _
  | @send on arg hf ht w =>
    obtain ⟨-, hsteps, -⟩ := send_untouched (m.trace (.sent arg on)) on.write arg
    have hstarted : ((m.trace (.sent arg on)).send on.write arg).tasks.started =
        (m.trace (.sent arg on)).tasks.started := by
      unfold send
      split <;> rfl
    refine hnote _ _ (Tally.congr (.hand _ hpass k _) hsteps hstarted ?_)
    exact owners_congr (send_same ..).1
  | @count e env gs hf hi hl =>
    refine .check hm (.eval e env :: gs) (fun g hg => ?_) k
    rcases List.mem_cons.mp hg with rfl | hg
    · exact id
    · exact (hi g hg).not_isBottom
  | @receive on hf =>
    obtain ⟨-, hsteps, -⟩ := recv_untouched m on.read (.received on :: k)
    have hstarted : (m.recv on.read (.received on :: k)).tasks.started = m.tasks.started := by
      unfold recv
      split <;> rfl
    refine .still hsteps hstarted (le_of_eq ?_)
    simp only [Turn.apply, Sequel.apply, List.foldl_nil, owners, (recv_same ..).1, Multiset.map_add,
      Multiset.map_singleton]
    rfl
  | fork hf hp hl w => exact .fork hm _ _ (hplain hp) k w
  | channel hf hp hl w => exact Tally.congr (.hand _ (hplain hp) k _) rfl rfl rfl
  | enter _ _ ih =>
    refine hnote _ _ (ih (hm.of_policy_eq (policy_trace ..)) ?_)
    · exact fun t m' h => h.congr (steps_trace ..) (started_trace ..) (owners_trace ..)

end Tally

/-- The ledger so far: every step is on it, and a process that counted a step too many counted no
other and is not among those that have not faulted. -/
structure Accounted (limit : Nat) (m : Machine) (hand : Multiset (Option Nat))
    (l : List (Option Nat)) : Prop where
  length : l.length = m.steps
  owners : ↑(l.drop limit) + (hand + m.owners) ≤ roster m.tasks.started

/-- The entry in the ledger is made by whose step is counted. -/
lemma Accounted.tally {l : List (Option Nat)} {o : Option Nat} (h : Accounted limit m {o} l)
    (ht : Tally limit m o m') :
    Accounted limit m' 0 l ∧ m'.steps = m.steps ∨
    Accounted limit m' 0 (l ++ [o]) ∧ m'.steps ≠ m.steps ∧
      m'.tasks.started = m.tasks.started ∨
    Accounted limit m' 0 (l ++ [some m.tasks.started]) ∧ m'.steps ≠ m.steps ∧
      m'.tasks.started ≠ m.tasks.started := by
  have hdrop : ∀ p : Option Nat, (((l ++ [p]).drop limit : List _) : Multiset (Option Nat)) =
      ↑(l.drop limit) + (if limit ≤ m.steps then {p} else 0) := by
    intro p
    rw [List.drop_append, ← Multiset.coe_add, h.length]
    split
    · next hle => rw [Nat.sub_eq_zero_of_le hle]; rfl
    · next hle =>
      have hnil : [p].drop (limit - m.steps) = [] :=
        List.drop_eq_nil_of_le (by rw [List.length_singleton]; omega)
      rw [hnil]
      rfl
  -- no step, one of the process in hand, or the first one of a task that it starts
  cases ht with
  | still hs hn ho =>
    refine .inl ⟨⟨h.length.trans hs.symm, ?_⟩, hs⟩
    rw [zero_add, hn]
    exact (Multiset.add_le_add_left ho).trans h.owners
  | counted hs hn ho =>
    refine .inr (.inl ⟨⟨?_, ?_⟩, by omega, hn⟩)
    · rw [List.length_append, h.length, hs]
      rfl
    · rw [hdrop, zero_add, add_assoc, hn]
      exact (Multiset.add_le_add_left ho).trans h.owners
  | forked hs hn ho =>
    refine .inr (.inr ⟨⟨?_, ?_⟩, by omega, by omega⟩)
    · rw [List.length_append, h.length, hs]
      rfl
    · rw [hdrop, zero_add, add_assoc, hn, roster_succ]
      refine (Multiset.add_le_add_left ho).trans ?_
      rw [add_left_comm]
      exact Multiset.add_le_add_left h.owners

lemma owners_of_jobs {o : Outcome} {rest : List Job} (hj : m.jobs = ⟨o, k⟩ :: rest) :
    ({ m with jobs := rest } : Machine).owners ≤ m.owners := by
  refine Multiset.map_le_map ?_
  cases o with
  | ok v =>
    rw [live_of_ok hj]
    exact Multiset.le_add_left ..
  | error e => exact le_of_eq (live_of_error hj).symm

/-- The process whose turn it is is taken off the list. -/
lemma owners_of_ok {v : Value} {f : Frame} {rest : List Job}
    (hj : m.jobs = ⟨.ok v, f :: k⟩ :: rest) (hf : ¬ f.IsBottom) :
    m.owners = {k.task?} + ({ m with jobs := rest } : Machine).owners := by
  unfold owners
  rw [live_of_ok hj, Multiset.map_add, Multiset.map_singleton, Stack.task?_cons hf]

lemma Moves.tally (h : Moves m m') (hm : m.IsLimited limit) (ha : m.awaiting = []) :
    (m'.steps = m.steps ∧ m'.tasks.started = m.tasks.started ∧ m'.owners ≤ m.owners) ∨
    ∃ (v : Value) (f : Frame) (k : Stack) (rest : List Job), m.jobs = ⟨.ok v, f :: k⟩ :: rest ∧
      ¬ f.IsBottom ∧ Tally limit { m with jobs := rest } k.task? m' := by
  cases h with
  | rest h => exact .inl ⟨rfl, rfl, le_refl _⟩
  | release hj hp => exact .inl ⟨rfl, rfl, le_of_eq (owners_congr (live_release hj hp))⟩
  | drop hj => exact .inl ⟨rfl, rfl, owners_of_jobs hj⟩
  | @turn f v k rest hj hf =>
    have htakes := f.takes m.policy.tracing m.allocated v
    exact .inr ⟨v, f, k, rest, hj, hf, .turn (m := { m with jobs := rest }) htakes hm k⟩
  | fault hj hf =>
    refine .inl ⟨rfl, rfl, ?_⟩
    rw [owners_congr (live_resume_error ..)]
    exact owners_of_jobs hj
  | @settle task serial o k rest hj =>
    obtain ⟨-, hjobs, hparked, hqueues, hsteps⟩ :=
      settle_same (m := { m with jobs := rest }) ha task serial o
    refine .inl ⟨hsteps, started_settle (m := { m with jobs := rest }) ha .., ?_⟩
    rw [owners_congr (live_congr hjobs hparked hqueues)]
    exact owners_of_jobs hj
  | report hj => exact .inl ⟨rfl, rfl, owners_of_jobs hj⟩

/-- **Every step is put down for the process that counts it.** -/
theorem Accounted.step {l : List (Option Nat)} (h : Accounted limit m 0 l) (hm : m.Obeys D)
    (hl : m.IsLimited limit) : Accounted limit m.step 0 (l ++ m.counting?.toList) := by
  rcases (step_moves hm).tally hl hm.awaiting with ⟨hs, ht, ho⟩ | ⟨v, f, k, rest, hj, hf, htally⟩
  · have hnone : m.counting? = none := if_pos hs
    rw [hnone, Option.toList_none, List.append_nil]
    refine ⟨h.length.trans hs.symm, ?_⟩
    rw [ht]
    exact (Multiset.add_le_add_left (Multiset.add_le_add_left ho)).trans h.owners
  · have htake : Accounted limit { m with jobs := rest } {k.task?} l := by
      refine ⟨h.length, ?_⟩
      rw [← owners_of_ok hj hf, ← zero_add m.owners]
      exact h.owners
    have hhead : m.jobs.head?.map (·.stack.task?) = some k.task? := by
      rw [hj]
      exact congrArg some (Stack.task?_cons hf)
    -- the ledger gets no line, one for the process, or one for the task it starts
    rcases htake.tally htally with ⟨hacc, hs⟩ | ⟨hacc, hs, ht⟩ | ⟨hacc, hs, ht⟩
    · have hnone : m.counting? = none := if_pos hs
      rw [hnone, Option.toList_none, List.append_nil]
      exact hacc
    · have hsome : m.counting? = some k.task? := by
        unfold counting?
        rw [if_neg hs, if_pos ht, hhead]
      rw [hsome]
      exact hacc
    · have hsome : m.counting? = some (some m.tasks.started) := by
        unfold counting?
        rw [if_neg hs, if_neg ht]
      rw [hsome]
      exact hacc

lemma Accounted.iterate (h : Accounted limit m 0 (m.ledger 0)) (hD : D.Lawful) (hm : m.Obeys D)
    (hl : m.IsLimited limit) (n : Nat) :
    Accounted limit (Machine.step^[n] m) 0 (m.ledger n) := by
  induction n with
  | zero => exact h
  | succ n ih =>
    rw [ledger_succ, Function.iterate_succ_apply']
    exact ih.step (hm.iterate hD n) (hl.of_policy_eq (policy_iterate hD hm n))

lemma Accounted.nodup {l : List (Option Nat)} (h : Accounted limit m 0 l) :
    (l.drop limit).Nodup ∧ m.steps ≤ limit + 1 + m.tasks.started := by
  have hle : ↑(l.drop limit) ≤ roster m.tasks.started :=
    (Multiset.le_add_right _ _).trans h.owners
  refine ⟨Multiset.coe_nodup.mp (Multiset.nodup_of_le hle (nodup_roster _)), ?_⟩
  have hcard := Multiset.card_le_card hle
  rw [Multiset.coe_card, List.length_drop, h.length, card_roster] at hcard
  omega

end Machine

/-! ### Evaluations -/

def Frame.isEval : Frame → Bool
  | .eval _ _ => true
  | _ => false

def Stack.evals (k : Stack) : Nat := k.countP Frame.isEval

/-- The evaluations that a sequel puts on a stack without counting a step. -/
def Sequel.evals : Sequel → Nat
  | .hand fs _ => fs.evals
  | .count fs => fs.evals - 1
  | .receive _ => 0

lemma Frame.IsInner.isEval {f : Frame} (h : f.IsInner) : f.isEval = false := by
  cases f <;> first | rfl | exact h.elim

namespace Stack

@[simp] lemma evals_append (fs k : Stack) : evals (fs ++ k) = fs.evals + k.evals :=
  List.countP_append ..

lemma evals_of_isInner {k : Stack} (h : ∀ f ∈ k, f.IsInner) : k.evals = 0 :=
  List.countP_eq_zero.mpr fun f hf => by rw [(h f hf).isEval]; simp

lemma evals_of_isPlain {k : Stack} (h : ∀ f ∈ k, f.IsPlain) : k.evals = 0 :=
  evals_of_isInner fun f hf => (h f hf).isInner

end Stack

/-- A turn leads to an evaluation only by counting a step. -/
lemma Frame.Takes.evals_eq {tracing : Bool} {f : Frame} {v : Value} {t : Turn}
    (h : f.Takes tracing v t) : t.sequel.evals = 0 := by
  induction h with
  | push hf hp | fork hf hp | channel hf hp => exact Stack.evals_of_isPlain hp
  | @count e env gs hf hi hl =>
    have hgs := Stack.evals_of_isInner hi
    have : Stack.evals (.eval e env :: gs) = gs.evals + 1 := List.countP_cons_of_pos rfl
    simp only [Turn.eval, Sequel.evals]
    omega
  | enter _ _ ih => exact ih
  | _ => rfl

namespace Machine

variable {D : Discipline} {m m' : Machine} {k : Stack} {limit : Nat}

/-- The next move evaluates an expression whose step has been counted. -/
def dispatches (m : Machine) : Bool :=
  match m.jobs with
  | ⟨.ok _, .eval _ _ :: _⟩ :: _ => true
  | _ => false

def dispatched (m : Machine) (n : Nat) : Nat :=
  (List.range n).countP fun i => (Machine.step^[i] m).dispatches

/-- The evaluations whose step has been counted and that are still to come. -/
def cleared (m : Machine) : Nat := (m.live.map Stack.evals).sum

lemma cleared_congr (h : m'.live = m.live) : m'.cleared = m.cleared := by
  unfold cleared
  rw [h]

lemma cleared_of_live (h : m'.live = {k} + m.live) : m'.cleared = k.evals + m.cleared := by
  unfold cleared
  rw [h, Multiset.map_add, Multiset.sum_add, Multiset.map_singleton, Multiset.sum_singleton]

/-- A check clears one evaluation if it is allowed and none otherwise. -/
lemma cleared_check (hm : m.IsLimited limit) (fs : Stack) (hfs : fs.evals ≤ 1) (k : Stack) :
    (m.check (fs ++ k)).cleared + min m.steps limit ≤
      k.evals + m.cleared + min (m.steps + 1) limit := by
  cases h : m.policy.forbids (m.steps + 1) with
  | true =>
    rw [check_of_forbids h, cleared_congr (live_resume_error ..)]
    have : cleared { m with steps := m.steps + 1 } = m.cleared := rfl
    omega
  | false =>
    have hle := hm.forbids (m.steps + 1)
    rw [h, eq_comm, decide_eq_false_iff_not] at hle
    rw [cleared_of_live (check_of_allows h _).1, Stack.evals_append]
    omega

lemma cleared_deed (hm : m.IsLimited limit) (d : Deed) :
    (d.apply m).cleared + min m.steps limit ≤ m.cleared + min (d.apply m).steps limit := by
  rw [steps_deed]
  cases d with
  | note t =>
    obtain ⟨hj, hp, hq⟩ := trace_same m t
    exact le_of_eq (congrArg (· + _) (cleared_congr (live_congr hj hp hq)))
  | send on v =>
    obtain ⟨hj, hp, hq⟩ := trace_same m (.sent v on)
    have hlive := (send_same (m.trace (.sent v on)) on.write v).1
    exact le_of_eq (congrArg (· + _) (cleared_congr (hlive.trans (live_congr hj hp hq))))
  | fork e env =>
    have hbooks : (m.nextName.2.register m.nextName.1).2.IsLimited limit := hm
    have hcheck := cleared_check hbooks [.eval e env] (by simp [Stack.evals, Frame.isEval])
      [.settle (.text m.tasks.nextName) m.tasks.started]
    rw [show Stack.evals [.settle (.text m.tasks.nextName) m.tasks.started] = 0 from rfl,
      Nat.zero_add] at hcheck
    exact hcheck
  | channel => exact le_refl _

lemma cleared_deeds (hm : m.IsLimited limit) (ds : List Deed) :
    (ds.foldl Deed.apply m).cleared + min m.steps limit ≤
      m.cleared + min (ds.foldl Deed.apply m).steps limit := by
  induction ds generalizing m with
  | nil => exact le_refl _
  | cons d ds ih =>
    have hd := cleared_deed hm d
    have hds := @ih (d.apply m) (hm.of_policy_eq (policy_deed ..))
    rw [List.foldl_cons]
    omega

lemma cleared_sequel (hm : m.IsLimited limit) {q : Sequel} (hq : q.evals = 0) (k : Stack) :
    (q.apply k m).cleared + min m.steps limit ≤
      k.evals + m.cleared + min (q.apply k m).steps limit := by
  rw [steps_sequel]
  cases q with
  | hand fs o =>
    have hfs : fs.evals = 0 := hq
    cases o with
    | ok v =>
      simp only [Sequel.apply, Sequel.checks, Nat.add_zero]
      rw [cleared_of_live (live_resume_ok ..), Stack.evals_append, hfs, Nat.zero_add]
    | error e =>
      simp only [Sequel.apply, Sequel.checks, Nat.add_zero]
      rw [cleared_congr (live_resume_error ..)]
      omega
  | count fs => exact cleared_check hm fs (Nat.sub_eq_zero_iff_le.mp hq) k
  | receive on =>
    simp only [Sequel.apply, Sequel.checks, Nat.add_zero]
    rw [cleared_of_live (recv_same ..).1, show Stack.evals (.received on :: k) = k.evals by
      simp [Stack.evals, Frame.isEval]]

lemma cleared_turn (hm : m.IsLimited limit) {t : Turn} (ht : t.sequel.evals = 0) (k : Stack) :
    (t.apply k m).cleared + min m.steps limit ≤
      k.evals + m.cleared + min (t.apply k m).steps limit := by
  have hdeeds := cleared_deeds hm t.deeds
  have hsequel := cleared_sequel (hm.of_policy_eq (policy_deeds m t.deeds)) ht k
  unfold Turn.apply
  omega

lemma cleared_of_jobs {o : Outcome} {rest : List Job} (hj : m.jobs = ⟨o, k⟩ :: rest) :
    ({ m with jobs := rest } : Machine).cleared ≤ m.cleared := by
  cases o with
  | ok v =>
    rw [cleared_of_live (live_of_ok hj)]
    exact Nat.le_add_left ..
  | error e => exact le_of_eq (cleared_congr (live_of_error hj)).symm

/-- A move that evaluates uses up a check that was allowed. -/
lemma Moves.cleared_le (h : Moves m m') (hm : m.IsLimited limit) (ha : m.awaiting = []) :
    m'.cleared + m.dispatches.toNat + min m.steps limit ≤ m.cleared + min m'.steps limit := by
  cases h with
  | rest h =>
    simp only [quiet, Bool.and_eq_true, List.isEmpty_iff] at h
    simp [dispatches, h.1]
  | release hj hp =>
    rw [cleared_congr (live_release hj hp)]
    simp [dispatches, hj]
  | drop hj =>
    have := cleared_of_jobs hj
    simp only [dispatches, hj, Bool.toNat_false]
    omega
  | @turn f v k rest hj hf =>
    have hcleared := cleared_of_live (live_of_ok hj)
    have hturn := cleared_turn (m := { m with jobs := rest }) hm
      (f.takes m.policy.tracing m.allocated v).evals_eq k
    -- an evaluation that is dispatched leaves the stack
    have hevals : Stack.evals (f :: k) = k.evals + m.dispatches.toNat := by
      cases f <;> simp [Stack.evals, Frame.isEval, List.countP_cons, dispatches, hj]
    simp only at hturn
    omega
  | fault hj hf =>
    have := cleared_of_jobs hj
    rw [cleared_congr (live_resume_error ..)]
    simp only [dispatches, hj, Bool.toNat_false, resume]
    omega
  | @settle task serial o k rest hj =>
    have := cleared_of_jobs hj
    obtain ⟨-, hjobs, hparked, hqueues, hsteps⟩ :=
      settle_same (m := { m with jobs := rest }) ha task serial o
    rw [cleared_congr (live_congr hjobs hparked hqueues), hsteps]
    cases o <;> simp only [dispatches, hj, Bool.toNat_false] <;> omega
  | @report tag o k rest hj =>
    have := cleared_of_jobs hj
    have hsame : (({ m with jobs := rest } : Machine).report tag o).cleared =
        ({ m with jobs := rest } : Machine).cleared := rfl
    rw [hsame]
    cases o <;> simp only [dispatches, hj, Bool.toNat_false, Machine.report] <;> omega

/-- **Evaluations past the check are within the limit**, those still to come included. -/
theorem dispatched_add_cleared_le (hD : D.Lawful) (hm : m.Obeys D) (hl : m.IsLimited limit)
    (h : m.cleared ≤ min m.steps limit) (n : Nat) :
    m.dispatched n + (Machine.step^[n] m).cleared ≤ min (Machine.step^[n] m).steps limit := by
  induction n with
  | zero => simpa [dispatched] using h
  | succ n ih =>
    have hobeys := hm.iterate hD n
    have hlimited := hl.of_policy_eq (policy_iterate hD hm n)
    have hmove := (step_moves hobeys).cleared_le hlimited hobeys.awaiting
    have hsucc : m.dispatched (n + 1) = m.dispatched n + (Machine.step^[n] m).dispatches.toNat := by
      unfold dispatched
      rw [List.range_succ, List.countP_append]
      cases h : (Machine.step^[n] m).dispatches <;> simp [h]
    rw [Function.iterate_succ_apply', hsucc]
    omega

/-! ### Faults -/

def overrun (limit : Nat) : Fault := .stepLimitExceeded (.number (.integer limit))

/-- The main process or a task has failed by a step too many. -/
def Failed (limit : Nat) (m : Machine) : Prop :=
  m.outcome? 0 = some (.error (overrun limit)) ∨ ∃ task, .failed task (overrun limit) ∈ m.log

/-- A process has failed by a step too many, or it is about to. -/
def Failing (limit : Nat) (m : Machine) : Prop :=
  (∃ k, ⟨.error (overrun limit), k⟩ ∈ m.jobs) ∨ m.Failed limit

/-- All jobs, notes and events of the one are there in the other. -/
structure Keeps (m m' : Machine) : Prop where
  jobs : m.jobs ⊆ m'.jobs
  events : m'.events = m.events
  log : ∀ t ∈ m.log, t ∈ m'.log

namespace Keeps

lemma trans {m'' : Machine} (h : Keeps m m') (h' : Keeps m' m'') : Keeps m m'' :=
  ⟨List.Subset.trans h.jobs h'.jobs, h'.events.trans h.events, fun t ht => h'.log t (h.log t ht)⟩

lemma of_eq (hj : m'.jobs = m.jobs) (he : m'.events = m.events) (hl : m'.log = m.log) :
    Keeps m m' :=
  ⟨hj ▸ List.Subset.refl _, he, fun _ ht => hl ▸ ht⟩

lemma resume (h : Keeps m m') (k : Stack) (o : Outcome) : Keeps m (m'.resume k o) :=
  h.trans ⟨List.subset_append_left .., rfl, fun _ => id⟩

lemma note (h : Keeps m m') (t : Note) : Keeps m (m'.note t) :=
  h.trans ⟨List.Subset.refl _, rfl, fun _ ht => Array.mem_push_of_mem _ ht⟩

lemma trace (h : Keeps m m') (t : Note) : Keeps m (m'.trace t) := by
  unfold Machine.trace
  split
  · exact h.note t
  · exact h

lemma check (h : Keeps m m') (k : Stack) : Keeps m (m'.check k) := by
  have hcounted : Keeps m { m' with steps := m'.steps + 1 } := h.trans (.of_eq rfl rfl rfl)
  simp only [Machine.check]
  split
  · exact hcounted.resume ..
  · split
    · exact h.trans (.of_eq rfl rfl rfl)
    · exact hcounted.resume ..

lemma send (h : Keeps m m') (q : QueueId) (v : Value) : Keeps m (m'.send q v) := by
  have hset : ∀ c, Keeps m (m'.setQueue q c) := fun _ => h.trans (.of_eq rfl rfl rfl)
  unfold Machine.send
  split
  · exact (hset _).resume ..
  · exact hset _

lemma recv (h : Keeps m m') (q : QueueId) (k : Stack) : Keeps m (m'.recv q k) := by
  have hset : ∀ c, Keeps m (m'.setQueue q c) := fun _ => h.trans (.of_eq rfl rfl rfl)
  unfold Machine.recv
  split
  · exact (hset _).resume ..
  · exact hset _

lemma refl (m : Machine) : Keeps m m := .of_eq rfl rfl rfl

lemma deed (m : Machine) (d : Deed) : Keeps m (d.apply m) := by
  cases d with
  | note t => exact (refl m).trace t
  | send on v => exact ((refl m).trace _).send ..
  | fork e env =>
    have hbooks : Keeps m (m.nextName.2.register m.nextName.1).2 := .of_eq rfl rfl rfl
    exact hbooks.check _
  | channel => exact .of_eq rfl rfl rfl

lemma sequel (m : Machine) (q : Sequel) (k : Stack) : Keeps m (q.apply k m) := by
  cases q with
  | hand fs o => exact (refl m).resume ..
  | count fs => exact (refl m).check ..
  | receive on => exact (refl m).recv ..

lemma settle (ha : m.awaiting = []) (task : Atom) (serial : Nat) (o : Outcome) :
    Keeps m (m.settle task serial o) := by
  have hclosed : Keeps m { m with tasks := m.tasks.settle m.policy task o } := .of_eq rfl rfl rfl
  rw [settle_of_nobody ha]
  cases o with
  | ok v =>
    simp only
    split
    · exact hclosed.trace _
    · exact hclosed
  | error f => exact hclosed.note _

end Keeps

lemma Keeps.failed (h : Keeps m m') (hf : m.Failed limit) : m'.Failed limit := by
  refine hf.imp (fun ho => ?_) fun ⟨task, ht⟩ => ⟨task, h.log _ ht⟩
  unfold outcome?
  rw [h.events]
  exact ho

lemma Keeps.failing (h : Keeps m m') (hf : m.Failing limit) : m'.Failing limit :=
  hf.imp (fun ⟨k, hk⟩ => ⟨k, h.jobs hk⟩) h.failed

/-- Whenever the count is beyond the limit, somebody fails by it. -/
def Strict (limit : Nat) (m : Machine) : Prop := limit < m.steps → m.Failing limit

lemma Keeps.strict (h : Keeps m m') (hs : m'.steps = m.steps) (hm : m.Strict limit) :
    m'.Strict limit := fun hlt => h.failing (hm (hs ▸ hlt))

lemma strict_check (hm : m.IsLimited limit) (k : Stack) : (m.check k).Strict limit := by
  intro hlt
  cases hf : m.policy.forbids (m.steps + 1) with
  | true =>
    rw [check_of_forbids hf]
    refine .inl ⟨k, List.mem_append_right _ ?_⟩
    rw [List.mem_singleton, hm, overrun]
  | false =>
    have hle := hm.forbids (m.steps + 1)
    rw [hf, eq_comm, decide_eq_false_iff_not] at hle
    exact absurd (steps_check m k ▸ hlt) hle

lemma Strict.deeds (h : m.Strict limit) (hm : m.IsLimited limit) (ds : List Deed) :
    (ds.foldl Deed.apply m).Strict limit := by
  induction ds generalizing m with
  | nil => exact h
  | cons d ds ih =>
    refine ih ?_ (hm.of_policy_eq (policy_deed ..))
    cases d with
    | fork e env => exact strict_check (m := (m.nextName.2.register m.nextName.1).2) hm _
    | _ => exact (Keeps.deed m _).strict (steps_deed ..) h

lemma Strict.turn (h : m.Strict limit) (hm : m.IsLimited limit) (t : Turn) (k : Stack) :
    (t.apply k m).Strict limit := by
  have hdeeds := h.deeds hm t.deeds
  unfold Turn.apply
  cases hq : t.sequel with
  | count fs => exact strict_check (hm.of_policy_eq (policy_deeds ..)) _
  | _ => exact (Keeps.sequel _ _ k).strict (steps_sequel ..) hdeeds

lemma outcome?_report (m : Machine) (tag : Nat) (o : Outcome) :
    (m.report tag o).outcome? 0 = (m.outcome? 0).or (if tag = 0 then some o else none) := by
  unfold outcome? report
  rw [Array.find?_push]
  cases m.events.find? fun e => e.tag = 0 with
  | none => by_cases h : tag = 0 <;> simp [h]
  | some e => rfl

lemma InOrder.main_of_report (hm : m.InOrder) {tag : Nat} {o : Outcome} {rest : List Job}
    (hj : m.jobs = ⟨o, .report tag :: k⟩ :: rest) : tag = 0 ∧ m.outcome? 0 = none := by
  have hin : .report tag :: k ∈ 0 + m.places := by
    unfold places
    rw [hj]
    simp
  rcases (hm.balanced.grounded _ hin).cases with ⟨-, rfl⟩ | ⟨hf, -⟩
  · refine Balanced.main_of_mem_pending ?_
    rw [← hm.balanced.owners]
    exact Multiset.mem_map.mpr ⟨_, hin, rfl⟩
  · exact absurd trivial hf

/-- **A step too many is not forgotten.** -/
theorem Strict.step (h : m.Strict limit) (hm : m.InOrder) (hl : m.IsLimited limit) :
    m.step.Strict limit := by
  have hmoves := step_moves hm.obeys
  generalize m.step = m' at hmoves
  -- who is on the way to fail either has its turn or keeps its place
  have hhead : ∀ {o : Outcome} {k : Stack} {rest : List Job}, m.jobs = ⟨o, k⟩ :: rest →
      limit < m.steps → o = .error (overrun limit) ∨
        ({ m with jobs := rest } : Machine).Failing limit := by
    intro o k rest hj hlt
    rcases h hlt with ⟨k', hk'⟩ | hf
    · rw [hj] at hk'
      rcases List.mem_cons.mp hk' with heq | hin
      · exact .inl (congrArg Job.outcome heq).symm
      · exact .inr (.inl ⟨k', hin⟩)
    · exact .inr (.inr hf)
  cases hmoves with
  | rest _ => exact h
  | release hj hp =>
    intro hlt
    rcases h hlt with ⟨k, hk⟩ | hf
    · rw [hj] at hk
      exact absurd hk List.not_mem_nil
    · exact .inr hf
  | @drop o rest hj =>
    have hin : [] ∈ m.places := by
      unfold places
      rw [hj]
      simp
    obtain ⟨fs, b, hnil, -⟩ := hm.balanced.grounded [] (by rwa [zero_add])
    simp at hnil
  | @turn f v k rest hj hf =>
    refine Strict.turn (m := { m with jobs := rest }) (fun hlt => ?_) hl _ k
    exact (hhead hj hlt).resolve_left (by simp)
  | @fault f e k rest hj hf =>
    intro hlt
    rcases hhead hj hlt with he | hrest
    · exact .inl ⟨k, List.mem_append_right _ (by rw [he]; exact List.mem_singleton_self _)⟩
    · exact ((Keeps.refl _).resume ..).failing hrest
  | @settle task serial o k rest hj =>
    intro hlt
    obtain ⟨-, -, -, -, hsteps⟩ :=
      settle_same (m := { m with jobs := rest }) hm.obeys.awaiting task serial o
    rcases hhead hj (hsteps ▸ hlt) with rfl | hrest
    · refine .inr (.inr ⟨task, ?_⟩)
      rw [settle_of_nobody (m := { m with jobs := rest }) hm.obeys.awaiting]
      exact Array.mem_push_self
    · exact (Keeps.settle (m := { m with jobs := rest }) hm.obeys.awaiting ..).failing hrest
  | @report tag o k rest hj =>
    intro hlt
    rcases hhead hj hlt with rfl | ⟨k', hk'⟩ | hout | hlog
    · obtain ⟨rfl, hnone⟩ := hm.main_of_report hj
      have hfirst : ({ m with jobs := rest } : Machine).outcome? 0 = none := hnone
      refine .inr (.inl ?_)
      rw [outcome?_report, hfirst]
      rfl
    · exact .inl ⟨k', hk'⟩
    · refine .inr (.inl ?_)
      rw [outcome?_report, hout]
      rfl
    · exact .inr (.inr hlog)

lemma Strict.iterate (h : m.Strict limit) (hm : m.InOrder) (hl : m.IsLimited limit) (n : Nat) :
    (Machine.step^[n] m).Strict limit := by
  induction n with
  | zero => exact h
  | succ n ih =>
    rw [Function.iterate_succ_apply']
    exact ih.step (hm.iterate n)
      (hl.of_policy_eq (policy_iterate Discipline.lawful_any hm.obeys n))

/-! ### Runs side by side -/

lemma Moves.steps_le (h : Moves m m') (ha : m.awaiting = []) : m.steps ≤ m'.steps := by
  cases h with
  | @turn f v k rest hj hf =>
    rw [steps_turn]
    exact Nat.le_add_right ..
  | @settle task serial o k rest hj =>
    exact le_of_eq (settle_same (m := { m with jobs := rest }) ha task serial o).2.2.2.2.symm
  | _ => exact le_refl _

lemma steps_iterate_le (hD : D.Lawful) (hm : m.Obeys D) {i j : Nat} (hij : i ≤ j) :
    (Machine.step^[i] m).steps ≤ (Machine.step^[j] m).steps := by
  induction j, hij using Nat.le_induction with
  | base => exact le_refl _
  | succ j _ ih =>
    have hobeys := hm.iterate hD j
    rw [Function.iterate_succ_apply']
    exact ih.trans ((step_moves hobeys).steps_le hobeys.awaiting)

/-- A machine under a limit is where the other is without one, or both have gone beyond it. -/
def Abreast (limit : Nat) (bounded free : Machine) : Prop :=
  bounded = free.relimit (.integer limit) ∨ limit < bounded.steps ∧ limit < free.steps

/-- **The limit makes no difference before it is exceeded.** -/
theorem Abreast.step {bounded free : Machine} (h : Abreast limit bounded free)
    (hb : bounded.Obeys D) (hf : free.Obeys D) (hfree : free.IsFree) :
    Abreast limit bounded.step free.step := by
  rcases h with rfl | ⟨hlt, hlt'⟩
  · obtain ⟨m'', hmoves, hsteps, heq⟩ := (step_moves hf).relimit hfree hf.awaiting limit
    obtain rfl := hmoves.eq_step hb
    by_cases hle : free.step.steps ≤ limit
    · exact .inl (heq hle)
    · exact .inr ⟨by omega, by omega⟩
  · exact .inr ⟨hlt.trans_le ((step_moves hb).steps_le hb.awaiting),
      hlt'.trans_le ((step_moves hf).steps_le hf.awaiting)⟩

end Machine

def Policy.unlimited (p : Policy) : Policy := { p with maxSteps := .infinite false }

namespace Source

variable (s : Source) (policy : Policy) (limit : Nat)

lemma abreast_start : Machine.Abreast limit (s.start (policy.within limit))
    (s.start policy.unlimited) := by
  obtain ⟨q, -, hstart⟩ := s.opens
  have hfree : ({ policy := policy.unlimited } : Machine).IsFree := rfl
  have hsteps : (q.apply [.report 0] { policy := policy.within limit }).steps =
      (q.apply [.report 0] { policy := policy.unlimited }).steps := by
    rw [Machine.steps_sequel, Machine.steps_sequel]
  rw [hstart, hstart]
  by_cases hle : (q.apply [.report 0] { policy := policy.unlimited }).steps ≤ limit
  · exact .inl (Machine.relimit_sequel hfree hle)
  · exact .inr ⟨by omega, by omega⟩

lemma abreast (n : Nat) : Machine.Abreast limit (Machine.step^[n] (s.start (policy.within limit)))
    (Machine.step^[n] (s.start policy.unlimited)) := by
  have hb := (s.starts (policy.within limit)).inOrder.obeys
  have hf := (s.starts policy.unlimited).inOrder.obeys
  have hfree : (s.start policy.unlimited).IsFree := congrArg Policy.maxSteps (s.policy_start _)
  induction n with
  | zero => exact s.abreast_start policy limit
  | succ n ih =>
    rw [Function.iterate_succ_apply', Function.iterate_succ_apply']
    exact ih.step (hb.iterate Discipline.lawful_any n) (hf.iterate Discipline.lawful_any n)
      (hfree.of_policy_eq (Machine.policy_iterate Discipline.lawful_any hf n))

/-- A run begins with at most one check, which the main process makes. -/
lemma accounted_start : Machine.Accounted limit (s.start (policy.within limit)) 0
    ((s.start (policy.within limit)).ledger 0) := by
  obtain ⟨q, hq, hstart⟩ := s.opens
  have hlimited : ({ policy := policy.within limit } : Machine).IsLimited limit := rfl
  have hfresh : Machine.Accounted limit { policy := policy.within limit } {none} [] := by
    refine ⟨rfl, ?_⟩
    simp [Machine.owners, Machine.live, Machine.waiters, roster]
  have htally : Machine.Tally limit { policy := policy.within limit }
      (Stack.task? [.report 0]) (s.start (policy.within limit)) := by
    rw [hstart]
    cases hq with
    | hand hp hl o => exact .hand _ (fun f hf => (hp f hf).isInner.not_isBottom) _ o
    | @count e env gs hp hl =>
      refine .check hlimited (.eval e env :: gs) (fun f hf => ?_) _
      rcases List.mem_cons.mp hf with rfl | hf
      · exact id
      · exact (hp f hf).isInner.not_isBottom
  have hstarted : (s.start (policy.within limit)).tasks.started = 0 := by
    rw [hstart]
    cases hq with
    | hand => rfl
    | count => exact congrArg Tasks.started (Machine.check_same ..).2.1
  have hledger : (s.start (policy.within limit)).ledger 0 =
      List.replicate (s.start (policy.within limit)).steps none := List.append_nil _
  rw [hledger]
  rcases hfresh.tally htally with ⟨hacc, -⟩ | ⟨hacc, -, -⟩ | ⟨-, -, hne⟩
  · rw [← hacc.length]
    exact hacc
  · rw [← hacc.length]
    exact hacc
  · exact absurd hstarted hne

lemma accounted (n : Nat) : Machine.Accounted limit
    (Machine.step^[n] (s.start (policy.within limit))) 0
    ((s.start (policy.within limit)).ledger n) :=
  (s.accounted_start policy limit).iterate Discipline.lawful_any
    (s.starts (policy.within limit)).inOrder.obeys (s.isLimited_start policy limit) n

lemma cleared_start_le : (s.start (policy.within limit)).cleared ≤
    min (s.start (policy.within limit)).steps limit := by
  obtain ⟨q, hq, hstart⟩ := s.opens
  have hevals : q.evals = 0 := by
    cases hq with
    | hand hp => exact Stack.evals_of_isPlain hp
    | @count e env gs hp =>
      have : Stack.evals (.eval e env :: gs) = gs.evals + 1 := List.countP_cons_of_pos rfl
      rw [Sequel.evals, this, Stack.evals_of_isPlain hp]
  have hlimited : ({ policy := policy.within limit } : Machine).IsLimited limit := rfl
  have hle := Machine.cleared_sequel hlimited hevals [.report 0]
  rw [hstart]
  simpa [Machine.cleared, Machine.live, Machine.waiters, Stack.evals, Frame.isEval] using hle

lemma dispatched_le (n : Nat) : (s.start (policy.within limit)).dispatched n ≤ limit := by
  have hle := Machine.dispatched_add_cleared_le Discipline.lawful_any
    (s.starts (policy.within limit)).inOrder.obeys (s.isLimited_start policy limit)
    (s.cleared_start_le policy limit) n
  omega

lemma strict (n : Nat) : (Machine.step^[n] (s.start (policy.within limit))).Strict limit := by
  have hstrict : (s.start (policy.within limit)).Strict limit := by
    obtain ⟨q, -, hstart⟩ := s.opens
    have hfresh : ({ policy := policy.within limit } : Machine).Strict limit :=
      fun hlt => absurd hlt (Nat.not_lt_zero _)
    rw [hstart]
    exact hfresh.turn rfl ⟨[], q⟩ _
  exact hstrict.iterate (s.starts (policy.within limit)).inOrder (s.isLimited_start policy limit) n

/-- A run that goes beyond the limit without one does so with one. -/
lemma beyond {i n : Nat} (hi : limit < (Machine.step^[i] (s.start policy.unlimited)).steps)
    (hn : (Machine.step^[n] (s.start (policy.within limit))).quiet = true) :
    limit < (Machine.step^[n] (s.start (policy.within limit))).steps := by
  have hobeys := (s.starts (policy.within limit)).inOrder.obeys
  have hlast : (Machine.step^[i] (s.start (policy.within limit))).steps ≤
      (Machine.step^[n] (s.start (policy.within limit))).steps := by
    rcases Nat.le_total i n with hle | hle
    · exact Machine.steps_iterate_le Discipline.lawful_any hobeys hle
    · obtain ⟨j, rfl⟩ := Nat.exists_eq_add_of_le hle
      rw [Nat.add_comm, Function.iterate_add_apply, Machine.iterate_of_quiet hn]
  rcases s.abreast policy limit i with heq | ⟨hlt, -⟩
  · rw [heq] at hlast
    exact hi.trans_le hlast
  · exact hlt.trans_le hlast

/-- **The limit on steps is exact.** With a limit no more expressions are evaluated than it
allows, by all processes together, and a run that takes no more steps without it is the same run
with it. Any other run comes to rest with more steps counted than allowed, and the main process or
a task has failed for it. Nobody counts a second step too many. -/
theorem step_limit_is_exact (s : Source) (policy : Policy) (limit : Nat) :
    let free := s.start policy.unlimited
    let bounded := s.start (policy.within limit)
    (∀ n, bounded.dispatched n ≤ limit) ∧
    (∀ n, (Machine.step^[n] free).quiet = true → (Machine.step^[n] free).steps ≤ limit →
      Machine.step^[n] bounded = (Machine.step^[n] free).relimit (.integer limit) ∧
      ∀ fuel > n, ∃ r, s.run fuel policy.unlimited = some r ∧
        s.run fuel (policy.within limit) =
          some { r with machine := r.machine.relimit (.integer limit) }) ∧
    ((∃ n, limit < (Machine.step^[n] free).steps) →
      (∃ n, (Machine.step^[n] bounded).quiet = true) ∧
      ∀ n, (Machine.step^[n] bounded).quiet = true →
        limit + 1 ≤ (Machine.step^[n] bounded).steps ∧ (Machine.step^[n] bounded).Failed limit) ∧
    ∀ n, (bounded.ledger n).length = (Machine.step^[n] bounded).steps ∧
      ((bounded.ledger n).drop limit).Nodup ∧
      (Machine.step^[n] bounded).steps ≤ limit + 1 + (Machine.step^[n] bounded).tasks.started := by
  intro free bounded
  refine ⟨s.dispatched_le policy limit, fun n hq hle => ?_, fun ⟨i, hi⟩ => ⟨?_, fun n hq => ?_⟩,
    fun n => ⟨(s.accounted policy limit n).length, (s.accounted policy limit n).nodup⟩⟩
  · have heq : Machine.step^[n] bounded = (Machine.step^[n] free).relimit (.integer limit) :=
      (s.abreast policy limit n).resolve_right fun h => absurd h.2 (Nat.not_lt_of_le hle)
    refine ⟨heq, fun fuel hfuel => ?_⟩
    have hquiet : (Machine.step^[n] bounded).quiet = true := by
      rw [heq]
      exact hq
    have hfree := Machine.runUntil_of_le (Machine.drain_iterate hq) hfuel
    have hbounded := Machine.runUntil_of_le (Machine.drain_iterate hquiet) hfuel
    refine ⟨_, Option.map_eq_some_iff.mpr ⟨_, hfree, rfl⟩, ?_⟩
    refine Option.map_eq_some_iff.mpr ⟨_, hbounded, ?_⟩
    rw [heq]
    rfl
  · obtain ⟨n, -, hquiet⟩ := s.exists_quiet policy limit
    exact ⟨n, hquiet⟩
  -- nobody is about to fail in a machine at rest, so somebody has
  · have hlt := s.beyond policy limit hi hq
    refine ⟨hlt, (s.strict policy limit n hlt).resolve_left fun ⟨k, hk⟩ => ?_⟩
    simp only [Machine.quiet, Bool.and_eq_true, List.isEmpty_iff] at hq
    rw [hq.1] at hk
    exact absurd hk List.not_mem_nil

end Source

end Parley
