import Parley.Proofs.Books
import Parley.Proofs.Network
import Parley.Proofs.Wiring

/-!
What is seen of a machine apart from its schedule and its notes: what every process is about, and
what is on its way on every queue. It does not matter where a process is, in a job, parked or
waiting, nor how many frames that only hand on an outcome are still on its stack. A turn changes
what its process is about, and it adds what it sends and whom it forks; everything else is seen as
before.
-/

namespace Parley

/-! ### What a process is about -/

/-- Whose process it is, by its last frame: the main process has number nought, and the tasks are
numbered after it. -/
def Frame.owner : Frame → Nat
  | .settle _ serial => serial + 1
  | _ => 0

def Stack.owner (k : Stack) : Nat := k.bottom.owner

/-- What the process is about that a job is for. One whose value is on its way has still to
receive it. -/
def Job.stance : Job → Stance
  | ⟨.ok _, .received on :: k⟩ => .asking on (Stack.core k)
  | ⟨.ok v, k⟩ => .going (.ok v) k.core
  | ⟨.error f, _⟩ => .going (.error f) []

def Job.entry (j : Job) : Nat × Stance := (j.stack.owner, j.stance)

def Stack.entry (k : Stack) : Nat × Stance := Job.entry ⟨.ok .unit, k⟩

lemma Job.stance_of_isDry {k : Stack} (hk : k.IsDry) (v : Value) :
    Job.stance ⟨.ok v, k⟩ = .going (.ok v) k.core := by
  unfold Job.stance
  split
  · next on k' heq =>
    cases heq
    exact absurd (List.mem_cons_self ..) (hk on)
  · next heq => cases heq; rfl
  · next heq => cases heq

lemma Stack.Awaits.entry_eq {k : Stack} {q : QueueId} (hk : k.Awaits q) (v : Value) :
    Job.entry ⟨.ok v, k⟩ = k.entry := by
  obtain ⟨on, rest, rfl, -⟩ := hk
  rfl

def Sequel.frames : Sequel → Stack
  | .hand fs _ => fs
  | .count fs => fs
  | .receive _ => []

/-- The frames neither end a process nor have asked for a value. -/
def Sequel.IsTame (s : Sequel) : Prop := ∀ g ∈ s.frames, ¬ g.IsBottom ∧ ∀ on, g ≠ .received on

lemma Frame.IsInner.tame {g : Frame} (h : g.IsInner) : ¬ g.IsBottom ∧ ∀ on, g ≠ .received on :=
  ⟨h.not_isBottom, fun on heq => by rw [heq] at h; exact h⟩

lemma Sequel.isTame_hand {fs : Stack} (h : ∀ g ∈ fs, g.IsPlain) (o : Outcome) :
    (Sequel.hand fs o).IsTame := fun g hg => (h g hg).isInner.tame

lemma Sequel.isTame_count {e : Expr} {env : Env} {gs : Stack} (h : ∀ g ∈ gs, g.IsInner) :
    (Sequel.count (.eval e env :: gs)).IsTame := by
  intro g hg
  rcases List.mem_cons.mp hg with rfl | hg
  · exact ⟨id, by simp⟩
  · exact (h g hg).tame

lemma Frame.Takes.isTame {tracing : Bool} {f : Frame} {v : Value} {t : Turn}
    (h : f.Takes tracing v t) : t.sequel.IsTame := by
  induction h with
  | hand o => exact Sequel.isTame_hand (by simp) o
  | leave | received => exact Sequel.isTame_hand (by simp) _
  | push _ hp _ _ => exact Sequel.isTame_hand hp _
  | send _ _ _ => exact Sequel.isTame_hand (by simp [IsPlain]) _
  | count _ hi _ => exact Sequel.isTame_count hi
  | receive _ => intro g hg; exact absurd hg List.not_mem_nil
  | fork _ hp _ _ => exact Sequel.isTame_hand hp _
  | channel _ hp _ _ => exact Sequel.isTame_hand hp _
  | enter _ _ ih => exact ih

lemma Sequel.IsTame.isDry {s : Sequel} (h : s.IsTame) {k : Stack} (hk : k.IsDry) :
    Stack.IsDry (s.frames ++ k) := by
  intro on hin
  rcases List.mem_append.mp hin with hin | hin
  · exact (h _ hin).2 on rfl
  · exact hk on hin

lemma Sequel.IsTame.owner {s : Sequel} (h : s.IsTame) {k : Stack} (hk : k.Grounded) :
    Stack.owner (s.frames ++ k) = k.owner :=
  congrArg Frame.owner (hk.append fun g hg => (h g hg).1).2

namespace Machine

variable {m m' : Machine} {k : Stack}

/-! ### Order in every run -/

namespace Tidy

lemma check (h : m.Tidy) (hk : k.IsDry) : (m.check k).Tidy := by
  have hcounted : ({ m with steps := m.steps + 1 } : Machine).Tidy :=
    h.of_queues_eq h.jobs h.parked rfl
  simp only [Machine.check]
  split
  · exact hcounted.resume hk.tail _
  · split
    · refine h.of_queues_eq h.jobs (fun l hl => ?_) rfl
      rcases List.mem_append.mp hl with hl | hl
      · exact h.parked l hl
      · rw [List.mem_singleton.mp hl]
        exact hk
    · exact hcounted.resume hk.tail _

lemma trace (h : m.Tidy) (t : Note) : (m.trace t).Tidy := by
  unfold Machine.trace
  split
  · exact h.of_queues_eq h.jobs h.parked rfl
  · exact h

lemma deed (h : m.Tidy) (d : Deed) : (d.apply m).Tidy := by
  cases d with
  | note t => exact h.trace t
  | send on v => exact (h.trace _).send on.write v
  | channel => exact h.of_queues_eq h.jobs h.parked rfl
  | fork e env =>
    have hbooks : (m.nextName.2.register m.nextName.1).2.Tidy :=
      h.of_queues_eq h.jobs h.parked rfl
    exact hbooks.check (by simp [Stack.IsDry])

lemma sequel (h : m.Tidy) {s : Sequel} (hs : s.IsTame) (hk : k.IsDry) : (s.apply k m).Tidy := by
  have hdry := hs.isDry hk
  cases s with
  | hand fs o => exact h.resume hdry.tail o
  | count fs => exact h.check hdry
  | receive on => exact h.recv hk on

lemma turn {t : Turn} (h : m.Tidy) (ht : t.sequel.IsTame) (hk : k.IsDry) : (t.apply k m).Tidy := by
  have hdeeds : ∀ (ds : List Deed) {m : Machine}, m.Tidy → (ds.foldl Deed.apply m).Tidy := by
    intro ds
    induction ds with
    | nil => exact fun h => h
    | cons d ds ih => exact fun h => ih (h.deed d)
  exact (hdeeds t.deeds h).sequel ht hk

lemma fresh (policy : Policy) : ({ policy } : Machine).Tidy := (Fifo.fresh policy).tidy

/-- The process whose turn it is is taken off the list. -/
lemma take {j : Job} {rest : List Job} (h : m.Tidy) (hj : m.jobs = j :: rest) :
    ({ m with jobs := rest } : Machine).Tidy :=
  h.of_queues_eq (fun i hi => h.jobs i (hj ▸ List.mem_cons_of_mem _ hi)) h.parked rfl

/-- **A step keeps a machine tidy.** -/
theorem step {D : Discipline} (h : m.Tidy) (hm : m.Obeys D) : m.step.Tidy := by
  have hmoves := step_moves hm
  generalize m.step = m' at hmoves
  cases hmoves with
  | rest _ => exact h
  | @release k rest hj hp =>
    have hk : k.IsDry := h.parked k (hp ▸ List.mem_cons_self ..)
    exact h.of_queues_eq (by simpa using hk.tail)
      (fun l hl => h.parked l (hp ▸ List.mem_cons_of_mem _ hl)) rfl
  | drop hj => exact h.take hj
  | @turn f v k rest hj hf =>
    exact (h.take hj).turn (f.takes m.policy.tracing m.allocated v).isTame (h.below hj)
  | @fault f e k rest hj hf => exact (h.take hj).resume (h.below hj).tail _
  | @settle task serial o k rest hj =>
    have hsame := settle_same (m := { m with jobs := rest }) hm.awaiting task serial o
    have hrest := h.take hj
    refine hrest.of_queues_eq ?_ ?_ hsame.2.2.2.1
    · rw [hsame.2.1]
      exact hrest.jobs
    · rw [hsame.2.2.1]
      exact hrest.parked
  | @report tag o k rest hj =>
    exact (h.take hj).of_queues_eq (h.take hj).jobs (h.take hj).parked rfl

end Tidy

/-! ### Notes do not matter -/

def mute (m : Machine) : Machine := { m with log := #[] }

lemma mute_trace (m : Machine) (t : Note) : (m.trace t).mute = m.mute := by
  unfold trace
  split <;> rfl

lemma mute_check (m : Machine) (k : Stack) : (m.check k).mute = m.mute.check k := by
  have hpolicy : m.mute.policy = m.policy := rfl
  have hsteps : m.mute.steps = m.steps := rfl
  simp only [check, hpolicy, hsteps]
  split
  · rfl
  · split <;> rfl

lemma mute_send (m : Machine) (q : QueueId) (v : Value) :
    (m.send q v).mute = m.mute.send q v := by
  have hqueue : m.mute.queue q = m.queue q := rfl
  unfold send
  rw [hqueue]
  split <;> rfl

lemma mute_recv (m : Machine) (q : QueueId) (k : Stack) :
    (m.recv q k).mute = m.mute.recv q k := by
  have hqueue : m.mute.queue q = m.queue q := rfl
  unfold recv
  rw [hqueue]
  split <;> rfl

lemma mute_deed (m : Machine) (d : Deed) : (d.apply m).mute = (d.apply m.mute).mute := by
  cases d with
  | note t => exact (mute_trace m t).trans (mute_trace m.mute t).symm
  | send on v =>
    have hsend : ∀ c : Machine, ((c.trace (.sent v on)).send on.write v).mute =
        c.mute.send on.write v := fun c => by rw [mute_send, mute_trace]
    exact (hsend m).trans (hsend m.mute).symm
  | fork e env =>
    have hfork : ∀ c : Machine, (c.fork e env).mute = c.mute.fork e env := fun c =>
      mute_check (c.nextName.2.register c.nextName.1).2 _
    exact (hfork m).trans (hfork m.mute).symm
  | channel => rfl

lemma mute_deeds_congr (ds : List Deed) (h : m.mute = m'.mute) :
    (ds.foldl Deed.apply m).mute = (ds.foldl Deed.apply m').mute := by
  induction ds generalizing m m' with
  | nil => exact h
  | cons d ds ih => exact ih (by rw [mute_deed m, mute_deed m', h])

lemma mute_sequel (m : Machine) (s : Sequel) (k : Stack) :
    (s.apply k m).mute = s.apply k m.mute := by
  cases s with
  | hand fs o => rfl
  | count fs => exact mute_check m _
  | receive on => exact mute_recv m _ _

def act (m : Machine) (d : Option Deed) : Machine := d.elim m (Deed.apply m)

/-- **Apart from its notes, a turn is its act and then its sequel.** -/
theorem mute_turn (m : Machine) (t : Turn) (k : Stack) {d : Option Deed} (hd : t.acts = d.toList) :
    (t.apply k m).mute = (t.sequel.apply k (m.act d)).mute := by
  have hacts : ∀ (ds : List Deed) (m : Machine), (ds.foldl Deed.apply m).mute =
      ((ds.filter Deed.isAct).foldl Deed.apply m).mute := by
    intro ds
    induction ds with
    | nil => exact fun m => rfl
    | cons d ds ih =>
      intro m
      cases d with
      | note t => exact (mute_deeds_congr ds (mute_trace m t)).trans (ih m)
      | send | fork | channel => exact ih _
  have hact : (t.acts.foldl Deed.apply m) = m.act d := by
    rw [hd]
    cases d <;> rfl
  unfold Turn.apply
  rw [mute_sequel, hacts, mute_sequel, ← hact]
  rfl

/-- Whatever does not depend on notes is after a turn as after its act and its sequel. -/
lemma seen_turn {α : Type} (seen : Machine → α) (hseen : ∀ c, seen c.mute = seen c) (m : Machine)
    (t : Turn) (k : Stack) {d : Option Deed} (hd : t.acts = d.toList) :
    seen (t.apply k m) = seen (t.sequel.apply k (m.act d)) := by
  rw [← hseen, mute_turn m t k hd, hseen]

/-! ### Who is about what -/

def stances (m : Machine) : Multiset (Nat × Stance) :=
  m.jobs.map Job.entry + (m.parked + m.waiters).map Stack.entry

lemma stances_resume (m : Machine) (k : Stack) (o : Outcome) :
    (m.resume k o).stances = {Job.entry ⟨o, k⟩} + m.stances := by
  have hjobs : (↑((m.jobs ++ [Job.mk o k]).map Job.entry) : Multiset (Nat × Stance)) =
      m.jobs.map Job.entry + {Job.entry ⟨o, k⟩} := by
    rw [List.map_append, ← Multiset.coe_add]
    rfl
  calc (m.resume k o).stances
      = m.jobs.map Job.entry + {Job.entry ⟨o, k⟩} + (m.parked + m.waiters).map Stack.entry := by
        rw [← hjobs]
        rfl
    _ = {Job.entry ⟨o, k⟩} + m.stances := by
        unfold stances
        abel

lemma stances_park (m : Machine) (k : Stack) :
    ({ m with parked := m.parked ++ [k] } : Machine).stances = {k.entry} + m.stances := by
  have hparked : (↑(m.parked ++ [k]) : Multiset Stack) = {k} + m.parked := by
    rw [← Multiset.coe_add, add_comm]
    rfl
  calc ({ m with parked := m.parked ++ [k] } : Machine).stances
      = m.jobs.map Job.entry + ({k} + m.parked + m.waiters).map Stack.entry := by
        rw [← hparked]
        rfl
    _ = {k.entry} + m.stances := by
        unfold stances
        rw [add_assoc, Multiset.map_add, Multiset.map_singleton]
        abel

lemma stances_check (hm : m.IsFree) (k : Stack) : (m.check k).stances = {k.entry} + m.stances := by
  simp only [check, hm.forbids]
  split
  · next h => cases h
  · split
    · exact stances_park ..
    · exact stances_resume ..

lemma stances_setQueue (m : Machine) (q : QueueId) (c : Queue Value Stack) :
    (m.setQueue q c).stances + ((m.queue q).waiting : Multiset Stack).map Stack.entry =
      m.stances + (c.waiting : Multiset Stack).map Stack.entry := by
  have hwaiters := congrArg (Multiset.map Stack.entry) (m.waiters_setQueue q c)
  rw [Multiset.map_add, Multiset.map_add] at hwaiters
  have hset : (m.setQueue q c).stances = m.jobs.map Job.entry +
      ((m.parked : Multiset Stack).map Stack.entry +
        (m.setQueue q c).waiters.map Stack.entry) := by
    unfold stances
    rw [Multiset.map_add]
    rfl
  have hm : m.stances = m.jobs.map Job.entry + ((m.parked : Multiset Stack).map Stack.entry +
      m.waiters.map Stack.entry) := by
    unfold stances
    rw [Multiset.map_add]
  rw [hset, hm, add_assoc, add_assoc, hwaiters, add_assoc, add_assoc]

lemma stances_send (h : m.Tidy) (q : QueueId) (v : Value) : (m.send q v).stances = m.stances := by
  cases hq : (m.queue q).waiting with
  | nil =>
    have hset := m.stances_setQueue q ⟨(m.queue q).buffer ++ [v], []⟩
    rw [hq] at hset
    rw [send_of_nil v hq]
    exact add_right_cancel hset
  | cons k rest =>
    have hk := (h.waiting q k (hq ▸ List.mem_cons_self ..)).1
    have hset := m.stances_setQueue q ⟨(m.queue q).buffer, rest⟩
    rw [hq, ← Multiset.cons_coe, Multiset.map_cons, ← Multiset.singleton_add, ← add_assoc] at hset
    rw [send_of_cons v hq, stances_resume, hk.entry_eq v, add_comm]
    exact add_right_cancel hset

lemma stances_recv (m : Machine) (on : Endpoint) (k : Stack) :
    (m.recv on.read (.received on :: k)).stances =
      {Stack.entry (.received on :: k)} + m.stances := by
  cases hq : (m.queue on.read).buffer with
  | nil =>
    have hset := m.stances_setQueue on.read ⟨[], (m.queue on.read).waiting ++ [.received on :: k]⟩
    rw [← Multiset.coe_add, Multiset.map_add, Multiset.coe_singleton, Multiset.map_singleton,
      add_comm (Multiset.map _ _) {_}, ← add_assoc] at hset
    rw [recv_of_nil _ hq, add_comm]
    exact add_right_cancel hset
  | cons v rest =>
    have hset := m.stances_setQueue on.read ⟨rest, (m.queue on.read).waiting⟩
    have hk : Stack.Awaits (.received on :: k) on.read := ⟨on, k, rfl, rfl⟩
    rw [recv_of_cons _ hq, stances_resume, hk.entry_eq v]
    rw [add_right_cancel hset]

def forked? (m : Machine) (d : Deed) : Option (Nat × Stance) :=
  d.child?.map fun k => (m.tasks.started + 1, .going (.ok .unit) k)

lemma stances_deed (h : m.Tidy) (hm : m.IsFree) (d : Deed) :
    (d.apply m).stances = (m.forked? d).toList + m.stances := by
  cases d with
  | note t =>
    have hmute : (m.trace t).stances = (m.trace t).mute.stances := rfl
    simp only [Deed.apply]
    rw [hmute, mute_trace]
    exact (zero_add _).symm
  | send on v =>
    have hmute : (m.trace (.sent v on)).stances = (m.trace (.sent v on)).mute.stances := rfl
    simp only [Deed.apply]
    rw [stances_send (h.trace _), hmute, mute_trace]
    exact (zero_add _).symm
  | channel => exact (zero_add _).symm
  | fork e env =>
    have hfree : (m.nextName.2.register m.nextName.1).2.IsFree := hm
    exact stances_check hfree _

lemma stances_sequel (hm : m.IsFree) {s : Sequel} (hs : s.IsTame) (hk : k.IsDry)
    (hg : k.Grounded) : (s.apply k m).stances = {(k.owner, s.core.stance k.core)} + m.stances := by
  have hdry := hs.isDry hk
  have howner := hs.owner hg
  cases s with
  | hand fs o =>
    have hentry : Job.entry ⟨o, fs ++ k⟩ = (k.owner, (Sequel.hand fs o).core.stance k.core) := by
      refine Prod.ext howner ?_
      cases o with
      | ok v => exact (Job.stance_of_isDry hdry v).trans (by rw [Stack.core_append]; rfl)
      | error f => rfl
    rw [← hentry]
    exact stances_resume ..
  | count fs =>
    have hentry : Stack.entry (fs ++ k) = (k.owner, (Sequel.count fs).core.stance k.core) := by
      refine Prod.ext howner ?_
      exact (Job.stance_of_isDry hdry .unit).trans (by rw [Stack.core_append]; rfl)
    rw [← hentry]
    exact stances_check hm _
  | receive on =>
    have hentry : Stack.entry (.received on :: k) =
        (k.owner, (Sequel.receive on).core.stance k.core) := by
      have htop : ∀ f ∈ [Frame.received on], ¬ f.IsBottom := by simp [Frame.IsBottom]
      exact Prod.ext (congrArg Frame.owner (hg.append htop).2) rfl
    rw [← hentry]
    exact stances_recv ..

/-- **What the processes are about after a turn**: the one that takes it goes on, and a task that
it forks begins. -/
theorem stances_turn (h : m.Tidy) (hm : m.IsFree) {t : Turn} (ht : t.sequel.IsTame)
    (hk : k.IsDry) (hg : k.Grounded) {d : Option Deed} (hd : t.acts = d.toList) :
    (t.apply k m).stances =
      {(k.owner, t.gist.stance k.core)} + ((d.bind m.forked?).toList + m.stances) := by
  have hseen := seen_turn stances (fun _ => rfl) m t k hd
  have hact : (m.act d).stances = (d.bind m.forked?).toList + m.stances := by
    cases d with
    | none => exact (zero_add _).symm
    | some d => exact stances_deed h hm d
  have hfree : (m.act d).IsFree := by
    cases d with
    | none => exact hm
    | some d => exact hm.of_policy_eq (policy_deed m d)
  rw [hseen, stances_sequel hfree ht hk hg, hact]
  rfl

/-! ### What is on its way -/

lemma content_check (hk : k.IsDry) (q : QueueId) : (m.check k).content q = m.content q := by
  simp only [check]
  split
  · exact content_resume_of_isDry (m := { m with steps := m.steps + 1 }) hk _ q
  · split
    · rfl
    · exact content_resume_of_isDry (m := { m with steps := m.steps + 1 }) hk _ q

lemma content_deed (h : m.Tidy) (d : Deed) (q : QueueId) :
    (d.apply m).content q = m.content q ++ d.put q := by
  have htrace : ∀ t : Note, (m.trace t).content q = m.content q := fun t => by
    have hmute : (m.trace t).content q = (m.trace t).mute.content q := rfl
    rw [hmute, mute_trace]
    rfl
  cases d with
  | note t => exact (htrace t).trans (List.append_nil _).symm
  | send on v =>
    simp only [Deed.apply]
    rw [content_send (h.trace _), htrace]
    rfl
  | channel => exact (List.append_nil _).symm
  | fork e env =>
    have hdry : Stack.IsDry [.eval e env, .settle (.text m.tasks.nextName) m.tasks.started] := by
      simp [Stack.IsDry]
    exact (content_check hdry q).trans (List.append_nil _).symm

/-- **What is on its way after a turn**: what was, and what the process sends. -/
theorem content_turn (h : m.Tidy) {t : Turn} (ht : t.sequel.IsTame) (hk : k.IsDry)
    {d : Option Deed} (hd : t.acts = d.toList) (q : QueueId) :
    (t.apply k m).content q = m.content q ++ (d.map (Deed.put q)).getD [] := by
  have hseen := seen_turn (content · q) (fun _ => rfl) m t k hd
  have hact : (m.act d).content q = m.content q ++ (d.map (Deed.put q)).getD [] := by
    cases d with
    | none => exact (List.append_nil _).symm
    | some d => exact content_deed h d q
  have hdry := ht.isDry hk
  rw [hseen, ← hact]
  cases hs : t.sequel with
  | hand fs o =>
    rw [hs] at hdry
    exact content_resume_of_isDry hdry o q
  | count fs =>
    rw [hs] at hdry
    exact content_check hdry q
  | receive on => exact content_recv ..

/-! ### What is counted -/

lemma countP_toList {d : Option Deed} (p : Deed → Bool) :
    d.toList.countP p = ((d.map p).getD false).toNat := by
  cases d with
  | none => rfl
  | some d => cases h : p d <;> simp [h]

lemma steps_of_acts (m : Machine) (t : Turn) (k : Stack) {d : Option Deed}
    (hd : t.acts = d.toList) : (t.apply k m).steps =
      m.steps + ((d.map Deed.checks).getD 0 + t.sequel.checks) := by
  have hact : (m.act d).steps = m.steps + (d.map Deed.checks).getD 0 := by
    cases d with
    | none => rfl
    | some d => exact steps_deed m d
  rw [seen_turn steps (fun _ => rfl) m t k hd, steps_sequel, hact, Nat.add_assoc]

lemma allocated_of_acts (m : Machine) (t : Turn) (k : Stack) {d : Option Deed}
    (hd : t.acts = d.toList) : (t.apply k m).allocated =
      m.allocated + 2 * ((d.map Deed.opens).getD false).toNat := by
  rw [allocated_turn, Turn.countP_deeds (fun _ => rfl), hd, countP_toList]

lemma tasks_of_acts (m : Machine) (t : Turn) (k : Stack) {d : Option Deed}
    (hd : t.acts = d.toList) : (t.apply k m).tasks =
      Tasks.enroll^[((d.map Deed.forks).getD false).toNat] m.tasks := by
  rw [tasks_turn, Turn.countP_deeds (fun _ => rfl), hd, countP_toList]

lemma started_of_acts (m : Machine) (t : Turn) (k : Stack) {d : Option Deed}
    (hd : t.acts = d.toList) : (t.apply k m).tasks.started =
      m.tasks.started + (d.bind Deed.child?).toList.length := by
  rw [tasks_of_acts m t k hd]
  cases d with
  | none => rfl
  | some d => cases d <;> rfl

lemma Keeps.turn (m : Machine) (t : Turn) (k : Stack) : Keeps m (t.apply k m) := by
  have hdeeds : ∀ (ds : List Deed) (m : Machine), Keeps m (ds.foldl Deed.apply m) := by
    intro ds
    induction ds with
    | nil => exact fun m => .refl m
    | cons d ds ih => exact fun m => (Keeps.deed m d).trans (ih _)
  exact (hdeeds t.deeds m).trans (.sequel _ _ k)

lemma Keeps.outcome?_eq (h : Keeps m m') (tag : Nat) : m'.outcome? tag = m.outcome? tag := by
  unfold outcome?
  rw [h.events]

/-! ### Moves of the machine -/

lemma stances_congr (hj : m'.jobs = m.jobs) (hp : m'.parked = m.parked)
    (hq : m'.queues = m.queues) : m'.stances = m.stances := by
  unfold stances waiters
  rw [hj, hp, hq]

lemma content_congr (hj : m'.jobs = m.jobs) (hq : m'.queues = m.queues) (q : QueueId) :
    m'.content q = m.content q := by
  unfold content queue
  rw [hj, hq]

lemma stances_take {j : Job} {rest : List Job} (hj : m.jobs = j :: rest) :
    m.stances = {j.entry} + ({ m with jobs := rest } : Machine).stances := by
  unfold stances
  rw [hj, List.map_cons, ← Multiset.cons_coe, ← Multiset.singleton_add, add_assoc]
  rfl

lemma content_take {j : Job} {rest : List Job} (hj : m.jobs = j :: rest) (q : QueueId) :
    m.content q = (j.arriving? q).toList ++ ({ m with jobs := rest } : Machine).content q := by
  unfold content
  rw [hj, ← List.append_assoc]
  cases h : j.arriving? q <;> simp [h, queue]

lemma stances_release {k : Stack} {rest : List Stack} (hj : m.jobs = [])
    (hp : m.parked = k :: rest) :
    ({ m with parked := rest, jobs := [⟨.ok .unit, k⟩] } : Machine).stances = m.stances := by
  unfold stances
  rw [hj, hp, ← Multiset.cons_coe, Multiset.cons_add, Multiset.map_cons,
    ← Multiset.singleton_add, List.map_nil, Multiset.coe_nil, zero_add]
  rfl

/-- A stack in a machine that is in order ends a process with its last frame. -/
lemma InOrder.grounded {o : Outcome} {rest : List Job} (hm : m.InOrder)
    (hj : m.jobs = ⟨o, k⟩ :: rest) : k.Grounded := by
  refine hm.balanced.grounded k ?_
  unfold places
  rw [hj]
  simp

/-- What is below a frame that ends no process is a stack of the same process. -/
lemma InOrder.below {o : Outcome} {f : Frame} {rest : List Job} (hm : m.InOrder)
    (hj : m.jobs = ⟨o, f :: k⟩ :: rest) (hf : ¬ f.IsBottom) :
    k.Grounded ∧ Stack.owner (f :: k) = k.owner := by
  rcases (hm.grounded hj).cases with ⟨hb, -⟩ | ⟨-, hg, hb⟩
  · exact absurd hb hf
  · exact ⟨hg, congrArg Frame.owner hb⟩

end Machine

/-! ### Faults from outside -/

def Discipline.tolerant (D : Discipline) : Discipline := { D with fault := fun _ => True }

section Tolerant

variable {D : Discipline} {n : Nat}

lemma Discipline.Lawful.tolerant (hD : D.Lawful) : D.tolerant.Lawful where
  small := hD.small
  named := hD.named
  body := hD.body
  params := hD.params
  fresh := hD.fresh
  grow := hD.grow

lemma Value.Obeys.of_tolerant {v : Value} (h : v.Obeys D.tolerant n) : v.Obeys D n := by
  induction h with
  | unit => exact .unit
  | label h => exact .label h
  | int i => exact .int i
  | pair _ _ iha ihb => exact .pair iha ihb
  | function params code _ globals ih => exact .function params code ih globals
  | sender h => exact .sender h
  | channel h => exact .channel h

lemma Frame.Obeys.of_tolerant {f : Frame} (h : f.Obeys D.tolerant n) : f.Obeys D n := by
  have henv : ∀ {env : Env}, Env.Obeys D.tolerant n env → Env.Obeys D n env := fun henv =>
    ⟨fun b hb hg => (henv.values b hb hg).of_tolerant, henv.globals⟩
  cases f with
  | eval | leftOperand | letBody | letPairBody | pairSecond | callee => exact ⟨h.1, henv h.2⟩
  | pairUp | call => exact Value.Obeys.of_tolerant h
  | branch => exact ⟨h.1, h.2.1, henv h.2.2⟩
  | recursionIndex | recursionRound => exact ⟨h.1, h.2.1, henv h.2.2⟩
  | _ => exact h

/-- What is handed to the frame whose turn it is, and the frame, keep to the discipline. -/
lemma Machine.Obeys.head {m : Machine} {k : Stack} {v : Value} {f : Frame} {rest : List Job}
    (hm : m.Obeys D.tolerant) (hj : m.jobs = ⟨.ok v, f :: k⟩ :: rest) (hf : ¬ f.IsBottom) :
    v.Obeys D m.allocated ∧ f.Obeys D m.allocated := by
  obtain ⟨hv, hstack⟩ := hm.jobs _ (hj ▸ List.mem_cons_self ..)
  have hframe := (hstack f (List.mem_cons_self ..)).resolve_right hf
  exact ⟨Value.Obeys.of_tolerant hv, hframe.of_tolerant⟩

end Tolerant

end Parley
