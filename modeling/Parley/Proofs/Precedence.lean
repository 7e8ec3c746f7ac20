import Parley.Proofs.Books

/-!
Forks and the order of jobs.

Jobs run in the order in which they came, so what stands in front of a job is all that runs
before it. A fork puts its child among the jobs before it goes on itself. An untraced fork has
its value then and there. A traced one has still to note it, in a job of its own, and the child
has one turn before that, unless its first step is a pause or one too many.
-/

namespace Parley

namespace Machine

variable {m m' m₀ : Machine} {k : Stack}

/-! ### Jobs run in the order they came -/

lemma jobs_resume (m : Machine) (k : Stack) (o : Outcome) :
    m.jobs <+: (m.resume k o).jobs := List.prefix_append ..

/-- The job that counting a step for a process leads to. At a pause there is none. -/
def counted (m : Machine) (k : Stack) : List Job :=
  if m.policy.forbids (m.steps + 1) then
    [⟨.error (.stepLimitExceeded (.number m.policy.maxSteps)), k⟩]
  else if m.policy.pauses (m.steps + 1) then [] else [⟨.ok .unit, k⟩]

lemma jobs_check (m : Machine) (k : Stack) : (m.check k).jobs = m.jobs ++ m.counted k := by
  simp only [check, counted]
  cases m.policy.forbids (m.steps + 1) <;> cases m.policy.pauses (m.steps + 1) <;> simp [resume]

lemma parked_check (h : m.counted k = []) : (m.check k).parked = m.parked ++ [k] := by
  simp only [check, counted] at h ⊢
  cases hf : m.policy.forbids (m.steps + 1) with
  | true => simp [hf] at h
  | false =>
    cases hp : m.policy.pauses (m.steps + 1) with
    | true => simp
    | false => simp [hf, hp] at h

lemma counted_of_forbids (h : m.policy.forbids (m.steps + 1) = true) (k : Stack) :
    m.counted k = [⟨.error (.stepLimitExceeded (.number m.policy.maxSteps)), k⟩] := if_pos h

lemma counted_of_pauses (h : m.policy.forbids (m.steps + 1) = false)
    (hp : m.policy.pauses (m.steps + 1) = true) (k : Stack) : m.counted k = [] := by
  simp [counted, h, hp]

lemma counted_of_goes (h : m.policy.forbids (m.steps + 1) = false)
    (hp : m.policy.pauses (m.steps + 1) = false) (k : Stack) : m.counted k = [⟨.ok .unit, k⟩] := by
  simp [counted, h, hp]

lemma counted_eq_singleton {j : Job} (h : j ∈ m.counted k) : m.counted k = [j] ∧ j.stack = k := by
  unfold counted at h ⊢
  cases hf : m.policy.forbids (m.steps + 1) <;> cases hp : m.policy.pauses (m.steps + 1) <;>
    simp_all

lemma jobs_send (m : Machine) (q : QueueId) (v : Value) : m.jobs <+: (m.send q v).jobs := by
  unfold send
  split
  · exact List.prefix_append ..
  · exact List.prefix_rfl

lemma jobs_recv (m : Machine) (q : QueueId) (k : Stack) : m.jobs <+: (m.recv q k).jobs := by
  unfold recv
  split
  · exact List.prefix_append ..
  · exact List.prefix_rfl

lemma jobs_trace (m : Machine) (t : Note) : (m.trace t).jobs = m.jobs := by
  unfold trace
  split <;> rfl

def newborn (m : Machine) : Frame := .settle (.text m.tasks.nextName) m.tasks.started

lemma jobs_fork (m : Machine) (e : Expr) (env : Env) :
    (m.fork e env).jobs = m.jobs ++ m.counted [.eval e env, m.newborn] := jobs_check ..

lemma parked_fork {e : Expr} {env : Env} (h : m.counted [.eval e env, m.newborn] = []) :
    (m.fork e env).parked = m.parked ++ [[.eval e env, m.newborn]] := parked_check h

lemma jobs_deed (m : Machine) (d : Deed) : m.jobs <+: (d.apply m).jobs := by
  cases d with
  | note t => exact (jobs_trace m t).symm ▸ List.prefix_rfl
  | send on v =>
    have h := jobs_send (m.trace (.sent v on)) on.write v
    rwa [jobs_trace] at h
  | fork e env => exact (jobs_fork m e env).symm ▸ List.prefix_append ..
  | channel => exact List.prefix_rfl

lemma jobs_deeds (m : Machine) (ds : List Deed) : m.jobs <+: (ds.foldl Deed.apply m).jobs := by
  induction ds generalizing m with
  | nil => exact List.prefix_rfl
  | cons d ds ih => exact (jobs_deed m d).trans (ih _)

lemma jobs_turn (m : Machine) (t : Turn) (k : Stack) : m.jobs <+: (t.apply k m).jobs := by
  refine (jobs_deeds m t.deeds).trans ?_
  unfold Turn.apply
  cases t.sequel with
  | hand fs o => exact jobs_resume ..
  | count fs => exact (jobs_check ..).symm ▸ List.prefix_append ..
  | receive on => exact jobs_recv ..

lemma Moves.jobs_tail (h : Moves m m') (hm : m.awaiting = []) : m.jobs.tail <+: m'.jobs := by
  cases h with
  | rest hq =>
    simp only [quiet, Bool.and_eq_true, List.isEmpty_iff] at hq
    simp [hq.1]
  | release hj => simp [hj]
  | drop hj => simp [hj]
  | @turn f v k rest hj =>
    rw [hj]
    exact jobs_turn { m with jobs := rest } _ k
  | @fault f e k rest hj =>
    rw [hj]
    exact jobs_resume { m with jobs := rest } k _
  | @settle task serial o k rest hj =>
    rw [hj, (settle_same (m := { m with jobs := rest }) hm task serial o).2.1]
    exact List.prefix_rfl
  | @report tag o k rest hj =>
    rw [hj]
    exact List.prefix_rfl

/-- After so many steps, so many jobs are done and the others stand in front. -/
lemma InOrder.drop_jobs (hm : m.InOrder) {n : Nat} (hn : n ≤ m.jobs.length) :
    m.jobs.drop n <+: (Machine.step^[n] m).jobs := by
  induction n with
  | zero => exact List.prefix_rfl
  | succ n ih =>
    rw [Function.iterate_succ_apply']
    have htail : (m.jobs.drop n).tail <+: (Machine.step^[n] m).jobs.tail := by
      obtain ⟨rest, hrest⟩ := ih (by omega)
      have hne : m.jobs.drop n ≠ [] := by
        rw [Ne, List.drop_eq_nil_iff]
        omega
      rw [← hrest, List.tail_append_of_ne_nil hne]
      exact List.prefix_append ..
    rw [List.tail_drop] at htail
    exact htail.trans ((step_moves (hm.iterate n).obeys).jobs_tail (hm.iterate n).obeys.awaiting)

/-- The jobs that there are have their turns in the steps to come. -/
lemma InOrder.head?_iterate (hm : m.InOrder) {n : Nat} (hn : n < m.jobs.length) :
    (Machine.step^[n] m).jobs.head? = m.jobs[n]? := by
  obtain ⟨rest, hrest⟩ := hm.drop_jobs (Nat.le_of_lt hn)
  rw [← hrest, List.drop_eq_getElem_cons hn, List.getElem?_eq_getElem hn]
  rfl

/-- No two processes that can go on have the same bottom. -/
lemma InOrder.bottoms_nodup (hm : m.InOrder) :
    (m.jobs.map (·.stack.bottom) ++ m.parked.map Stack.bottom).Nodup := by
  have hnodup := pending_nodup hm.balanced.tasks
  rw [← hm.balanced.owners, zero_add, places, Multiset.map_add] at hnodup
  have hle := Multiset.nodup_of_le (Multiset.le_add_right _ _) hnodup
  simpa [Function.comp_def] using hle

/-! ### Effects -/

def acting? (m : Machine) : Option Frame := m.jobs.head?.map (·.stack.bottom)

/-- The next step has an effect: a note is taken, a queue is allocated, a value is sent or asked
for, or a process is forked. -/
def Affects (m : Machine) : Prop :=
  m.step.log ≠ m.log ∨ m.step.allocated ≠ m.allocated ∨ m.step.queues ≠ m.queues ∨
    m.step.tasks.named ≠ m.tasks.named

/-- The evaluation of a fork above `k`, begun at a moment of a run, is over at another: its value
is on the way to `k`, and in a traced run it has just been noted. -/
structure Returned (m₀ : Machine) (i c : Nat) (k : Stack) : Prop where
  later : i < c
  handed : (Machine.step^[c] m₀).jobs.getLast? = some ⟨.ok .unit, k⟩
  noted : m₀.policy.tracing = true →
    (Machine.step^[c] m₀).log.back? = some (.leave "fork" .unit)

section

variable {i : Nat} {v : Value} {e : Expr} {env : Env} {rest : List Job}

lemma step_fork (hj : m.jobs = ⟨.ok v, .eval (.fork e) env :: k⟩ :: rest) :
    m.step = ((({ m with jobs := rest } : Machine).trace (.enter "fork")).fork e env).resume
      ((Expr.fork e).residue m.policy.tracing ++ k) (.ok .unit) := by
  have hstep : m.step =
      ((({ m with jobs := rest } : Machine).trace (.enter "fork")).fork e env).done
        (.fork e) .unit k := step_of_jobs hj
  rw [hstep, done_eq, policy_fork, policy_trace]
  rfl

lemma counted_trace (m : Machine) (t : Note) (k : Stack) : (m.trace t).counted k = m.counted k := by
  rw [counted, policy_trace, steps_trace]
  rfl

lemma newborn_trace (m : Machine) (t : Note) : (m.trace t).newborn = m.newborn := by
  rw [newborn, tasks_trace]
  rfl

/-- A fork puts its child behind the other jobs, and itself behind its child. -/
lemma jobs_step_fork (hj : m.jobs = ⟨.ok v, .eval (.fork e) env :: k⟩ :: rest) :
    m.step.jobs = rest ++ m.counted [.eval e env, m.newborn] ++
      [⟨.ok .unit, (Expr.fork e).residue m.policy.tracing ++ k⟩] := by
  rw [step_fork hj, resume, jobs_fork, jobs_trace, counted_trace, newborn_trace]
  rfl

lemma parked_step_fork (hj : m.jobs = ⟨.ok v, .eval (.fork e) env :: k⟩ :: rest)
    (h : m.counted [.eval e env, m.newborn] = []) :
    [.eval e env, m.newborn] ∈ m.step.parked := by
  have hc : (({ m with jobs := rest } : Machine).trace (.enter "fork")).counted
      [.eval e env, (({ m with jobs := rest } : Machine).trace (.enter "fork")).newborn] = [] := by
    rw [counted_trace, newborn_trace]
    exact h
  rw [step_fork hj, resume, parked_fork hc, newborn_trace]
  exact List.mem_append_right _ (List.mem_singleton_self _)

/-- The child has at most one turn before its parent has the next, and none if it is parked. -/
lemma InOrder.eq_length_of_newborn (hm : m.InOrder)
    (hj : m.jobs = ⟨.ok v, .eval (.fork e) env :: k⟩ :: rest) {d : Nat}
    (hd : d < m.step.jobs.length) (h : (Machine.step^[d] m.step).acting? = some m.newborn) :
    d = rest.length ∧ m.counted [.eval e env, m.newborn] ≠ [] := by
  have hm' : m.step.InOrder := hm.iterate 1
  obtain ⟨hnodup, -, hapart⟩ := List.nodup_append.mp hm'.bottoms_nodup
  have hacting : (m.step.jobs.map (·.stack.bottom))[d]? = some m.newborn := by
    rw [acting?, hm'.head?_iterate hd] at h
    rw [List.getElem?_map]
    exact h
  have hne : m.counted [.eval e env, m.newborn] ≠ [] := fun hnil =>
    hapart _ (List.mem_of_getElem? hacting) _ (List.mem_map_of_mem (parked_step_fork hj hnil)) rfl
  obtain ⟨j, hmem⟩ := List.exists_mem_of_ne_nil _ hne
  obtain ⟨hone, hstack⟩ := counted_eq_singleton hmem
  have hchild : (m.step.jobs.map (·.stack.bottom))[rest.length]? = some m.newborn := by
    rw [jobs_step_fork hj, hone]
    simp [hstack, Stack.bottom]
  exact ⟨(List.getElem?_inj (by simpa using hd) hnodup).mp (hacting.trans hchild.symm), hne⟩

/-! ### Turns before the return -/

lemma not_affects_of_fault {f : Fault} (hj : m.jobs = ⟨.error f, .eval e env :: k⟩ :: rest) :
    ¬ m.Affects := by
  have hstep : m.step = ({ m with jobs := rest } : Machine).resume k (.error f) := step_of_jobs hj
  simp [Affects, hstep, resume]

lemma log_step_eval (hj : m.jobs = ⟨.ok v, .eval e env :: k⟩ :: rest)
    (ht : m.policy.tracing = true) {caption : String} (hc : e.caption? = some caption) :
    m.step.log = m.log.push (.enter caption) := by
  have hstep : m.step = (({ m with jobs := rest } : Machine).trace (.enter caption)).evalParts
      e env k := by
    rw [step_of_jobs hj]
    cases e with
    | missing => cases hc
    | _ => simp only [perform, accept, evalCounted, hc]
  rw [hstep, evalParts_eq]
  apply Array.toList_inj.mp
  rw [log_turn, Expr.notes_partsTurn, log_trace]
  simp [ht]

/-- The last job of a traced evaluation notes its value and hands it on. -/
lemma step_leave {caption : String} (hj : m.jobs = ⟨.ok .unit, .leave caption :: k⟩ :: rest)
    (ht : m.policy.tracing = true) :
    m.step.jobs.getLast? = some ⟨.ok .unit, k⟩ ∧
      m.step.log.back? = some (.leave caption .unit) := by
  have hstep : m.step = (({ m with jobs := rest } : Machine).trace (.leave caption .unit)).resume k
      (.ok .unit) := by
    rw [step_of_jobs hj]
    simp [perform, accept, canTrace, Value.showable]
  rw [hstep]
  simp [resume, trace, ht, note]

lemma iterate_after (m₀ : Machine) (i d : Nat) :
    Machine.step^[d] (Machine.step^[i] m₀).step = Machine.step^[i + d + 1] m₀ := by
  rw [← Function.iterate_succ_apply' Machine.step, ← Function.iterate_add_apply]
  congr 1
  omega

lemma InOrder.returned_of_untraced (hm : m₀.InOrder)
    (hj : (Machine.step^[i] m₀).jobs = ⟨.ok v, .eval (.fork e) env :: k⟩ :: rest)
    (ht : m₀.policy.tracing = false) : m₀.Returned i (i + 1) k where
  later := Nat.lt_succ_self i
  handed := by
    rw [Function.iterate_succ_apply', jobs_step_fork hj,
      policy_iterate Discipline.lawful_any hm.obeys i, ht]
    simp [Expr.residue]
  noted htrue := by simp [ht] at htrue

/-- A traced fork returns after all jobs that were there and the first of its child, if any. -/
lemma InOrder.returned_of_traced (hm : m₀.InOrder)
    (hj : (Machine.step^[i] m₀).jobs = ⟨.ok v, .eval (.fork e) env :: k⟩ :: rest)
    (ht : m₀.policy.tracing = true) :
    m₀.Returned i (i + (rest ++ (Machine.step^[i] m₀).counted
      [.eval e env, (Machine.step^[i] m₀).newborn]).length + 2) k := by
  have hpolicy (n : Nat) : (Machine.step^[n] m₀).policy = m₀.policy :=
    policy_iterate Discipline.lawful_any hm.obeys n
  have hjobs := jobs_step_fork hj
  generalize hbefore : rest ++ (Machine.step^[i] m₀).counted
    [.eval e env, (Machine.step^[i] m₀).newborn] = before at hjobs ⊢
  have hm' : (Machine.step^[i] m₀).step.InOrder := (hm.iterate i).iterate 1
  obtain ⟨behind, hb⟩ := hm'.drop_jobs (n := before.length) (by rw [hjobs]; simp)
  rw [hjobs, List.drop_left, iterate_after, hpolicy, ht] at hb
  obtain ⟨hlast, hback⟩ := step_leave hb.symm ((hpolicy _).symm ▸ ht)
  rw [← Function.iterate_succ_apply' Machine.step] at hlast hback
  exact ⟨by omega, hlast, fun _ => hback⟩

/-- The only turn of the child before a traced fork returns is its first. -/
lemma InOrder.eq_of_newborn (hm : m₀.InOrder)
    (hj : (Machine.step^[i] m₀).jobs = ⟨.ok v, .eval (.fork e) env :: k⟩ :: rest) {l : Nat}
    (hl : i < l) (hlt : l < i + (rest ++ (Machine.step^[i] m₀).counted
      [.eval e env, (Machine.step^[i] m₀).newborn]).length + 2)
    (h : (Machine.step^[l] m₀).acting? = some (Machine.step^[i] m₀).newborn) :
    l = i + rest.length + 1 ∧
      (Machine.step^[i] m₀).counted [.eval e env, (Machine.step^[i] m₀).newborn] ≠ [] := by
  obtain ⟨d, rfl⟩ : ∃ d, l = i + d + 1 := ⟨l - i - 1, by omega⟩
  rw [← iterate_after] at h
  have hd : d < (Machine.step^[i] m₀).step.jobs.length := by
    rw [jobs_step_fork hj, List.length_append, List.length_singleton]
    omega
  obtain ⟨rfl, hne⟩ := (hm.iterate i).eq_length_of_newborn hj hd h
  exact ⟨rfl, hne⟩

/-- The first turn of the child comes after the jobs that were there. -/
lemma InOrder.head?_of_counted (hm : m₀.InOrder)
    (hj : (Machine.step^[i] m₀).jobs = ⟨.ok v, .eval (.fork e) env :: k⟩ :: rest) {j : Job}
    (hc : (Machine.step^[i] m₀).counted [.eval e env, (Machine.step^[i] m₀).newborn] = [j]) :
    (Machine.step^[i + rest.length + 1] m₀).jobs.head? = some j := by
  have hm' : (Machine.step^[i] m₀).step.InOrder := (hm.iterate i).iterate 1
  have hjobs := jobs_step_fork hj
  rw [← iterate_after, hm'.head?_iterate (by rw [hjobs, hc]; simp), hjobs, hc]
  simp

end

/-- Whatever the child of the fork at a moment does, the fork returns before it. -/
def ReturnsFirst (m₀ : Machine) (i : Nat) (k : Stack) : Prop :=
  ∀ l, i < l → (Machine.step^[l] m₀).acting? = some (Machine.step^[i] m₀).newborn →
    (Machine.step^[l] m₀).Affects → ∃ c ≤ l, m₀.Returned i c k

end Machine

open Machine

/-- **A fork returns before its child acts**, if the run is not traced or the first step of the
child is a pause or one too many. In a traced run the child otherwise has its first turn before
the fork returns, and no other: it has entered its expression by then. -/
theorem Source.fork_returns_before_child_acts (s : Source) (policy : Policy) {i : Nat} {v : Value}
    {e : Expr} {env : Env} {k : Stack} {rest : List Job}
    (hfork : (Machine.step^[i] (s.start policy)).jobs =
      ⟨.ok v, .eval (.fork e) env :: k⟩ :: rest) :
    let run n := Machine.step^[n] (s.start policy)
    let first := (run i).steps + 1
    (∃ c, (s.start policy).Returned i c k) ∧
    (policy.tracing = false ∨ policy.forbids first = true ∨ policy.pauses first = true →
      (s.start policy).ReturnsFirst i k) ∧
    (policy.tracing = true → policy.forbids first = false → policy.pauses first = false →
      ∃ l, i < l ∧ (s.start policy).Returned i (l + 2) k ∧
        (run l).jobs.head? = some ⟨.ok .unit, [.eval e env, (run i).newborn]⟩ ∧
        (∀ caption, e.caption? = some caption →
          (run (l + 1)).log = (run l).log.push (.enter caption)) ∧
        ∀ l', i < l' → l' < l + 2 → (run l').acting? = some (run i).newborn → l' = l) := by
  intro run first
  have hm : (s.start policy).InOrder := (s.starts policy).inOrder
  have hpolicy (n : Nat) : (run n).policy = policy :=
    (policy_iterate Discipline.lawful_any hm.obeys n).trans (s.policy_start policy)
  cases ht : policy.tracing with
  | false =>
    have hret := hm.returned_of_untraced hfork (by rw [s.policy_start, ht])
    exact ⟨⟨_, hret⟩, fun _ l hl _ _ => ⟨_, hl, hret⟩, fun h => (by cases h)⟩
  | true =>
    have hret := hm.returned_of_traced hfork (by rw [s.policy_start, ht])
    refine ⟨⟨_, hret⟩, fun hor l hl hact haff => ?_, fun _ hforbids hpauses => ?_⟩
    · refine ⟨_, Nat.le_of_not_lt fun hlt => ?_, hret⟩
      obtain ⟨rfl, hne⟩ := hm.eq_of_newborn hfork hl hlt hact
      cases hforbids : policy.forbids first with
      | false =>
        -- the child is parked
        have hpauses : policy.pauses first = true := by simpa [ht, hforbids] using hor
        exact hne (counted_of_pauses (by rw [hpolicy i]; exact hforbids)
          (by rw [hpolicy i]; exact hpauses) _)
      | true =>
        -- the child hands on a fault
        have hc := counted_of_forbids (m := run i) (by rw [hpolicy i]; exact hforbids)
          [.eval e env, (run i).newborn]
        obtain ⟨behind, hb⟩ := List.head?_eq_some_iff.mp (hm.head?_of_counted hfork hc)
        exact not_affects_of_fault hb haff
    · have hc := counted_of_goes (m := run i) (by rw [hpolicy i]; exact hforbids)
        (by rw [hpolicy i]; exact hpauses) [.eval e env, (run i).newborn]
      have hhead := hm.head?_of_counted hfork hc
      obtain ⟨behind, hb⟩ := List.head?_eq_some_iff.mp hhead
      have hlength : i + (rest ++ (run i).counted [.eval e env, (run i).newborn]).length + 2 =
          i + rest.length + 1 + 2 := by
        rw [hc, List.length_append, List.length_singleton]
        rfl
      refine ⟨i + rest.length + 1, by omega, hlength ▸ hret, hhead, fun caption hcaption => ?_,
        fun l' hl' hlt hact => ?_⟩
      · simp only [run, Function.iterate_succ_apply' Machine.step (i + rest.length + 1)]
        exact log_step_eval hb ((hpolicy _).symm ▸ ht) hcaption
      · exact (hm.eq_of_newborn hfork hl' (hlength ▸ hlt) hact).1

def forkedChannel : Program := ⟨[.global ⟨.text "main", .ok [], .fork .channel⟩]⟩

/-- The fork returns, traced as well, with the one turn of its child before. -/
theorem forkedChannel_returns :
    let m₀ := (Source.program forkedChannel).start { tracing := true }
    let run n := Machine.step^[n] m₀
    ∃ env k, (run 0).jobs = [⟨.ok .unit, .eval (.fork .channel) env :: k⟩] ∧
      ∃ l, 0 < l ∧ m₀.Returned 0 (l + 2) k ∧
        (run l).jobs.head? = some ⟨.ok .unit, [.eval .channel env, (run 0).newborn]⟩ ∧
        (∀ caption, Expr.channel.caption? = some caption →
          (run (l + 1)).log = (run l).log.push (.enter caption)) ∧
        ∀ l', 0 < l' → l' < l + 2 → (run l').acting? = some (run 0).newborn → l' = l :=
  ⟨_, _, rfl, (Source.fork_returns_before_child_acts (.program forkedChannel) { tracing := true }
    (i := 0) rfl).2.2 rfl (by decide) (by decide)⟩

/-- In a traced run its child has entered its expression and made the channel before the fork has
returned. -/
theorem forkedChannel_acts_before_return :
    let m₀ := (Source.program forkedChannel).start { tracing := true }
    ∃ env k, m₀.jobs = [⟨.ok .unit, .eval (.fork .channel) env :: k⟩] ∧ ¬ m₀.ReturnsFirst 0 k := by
  intro m₀
  refine ⟨_, _, rfl, fun h => ?_⟩
  obtain ⟨c, hc, hret⟩ := h 1 (by omega) rfl (.inr (.inl (by decide)))
  obtain rfl : c = 1 := by
    have := hret.later
    omega
  have hnoted := hret.noted rfl
  cases hnoted

end Parley
