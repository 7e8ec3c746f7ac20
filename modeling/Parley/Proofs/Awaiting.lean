import Parley.Proofs.Delivery
import Parley.Proofs.Parties

/-!
Awaiting tasks. Who awaits a name hears what became of the task that ran under it at that moment,
and of no other, whatever is started under the name in the meantime. Tasks are told apart by
their serial numbers, and the machine comes to every job in its turn. Two entries of a name are
no task to wait for: that of a task whose function is still being called, and that of one which
has thrown something without a text.
-/

namespace Parley

/-- The end that a job brings to a task in the next step. -/
def Job.result? (serial : Nat) : Job → Option Fate
  | ⟨o, [.settle _ s]⟩ => if s = serial then some (.settled o) else none
  | ⟨.error _, [.strand, .settle _ s]⟩ => if s = serial then some .stranded else none
  | _ => none

lemma Job.result?_eq_some {serial : Nat} {j : Job} {x : Fate} (hr : j.result? serial = some x) :
    ∃ task, (∃ o, j = ⟨o, [.settle task serial]⟩ ∧ x = .settled o) ∨
      ∃ f, j = ⟨.error f, [.strand, .settle task serial]⟩ ∧ x = .stranded := by
  unfold result? at hr
  split at hr
  · split at hr
    · next hserial =>
      cases hr
      exact ⟨_, .inl ⟨_, by rw [hserial], rfl⟩⟩
    · cases hr
  · split at hr
    · next hserial =>
      cases hr
      exact ⟨_, .inr ⟨_, by rw [hserial], rfl⟩⟩
    · cases hr
  · cases hr

namespace Host

variable {h h' : Host} {new : Multiset Frame} {s i n : Nat} {o : Outcome} {x : Fate}

/-- What a task has come to, whether or not its end has been dealt with. -/
def result? (h : Host) (serial : Nat) : Option Fate :=
  (Table.find? h.ends serial).or (h.machine.jobs.findSome? (Job.result? serial))

def Fair (h : Host) (acts : Nat → Act) : Prop :=
  ∀ n, ∃ m, n ≤ m ∧ (acts m).Works (h.along acts m)

/-- A request hears nothing but `o`, and hears it for good if only the machine is let work. -/
def Tells (h : Host) (acts : Nat → Act) (i : Nat) (o : Outcome) : Prop :=
  (∀ n, ∀ a ∈ (h.along acts n).machine.answers i, a = o) ∧
    (h.Fair acts → ∃ m, ∀ k, m ≤ k → (h.along acts k).machine.outcome? i = some o)

/-! ### Who awaits is told -/

/-- The outcome of a request is on its way, or has been reported. -/
def Answering (h : Host) (i : Nat) (o : Outcome) : Prop :=
  ⟨o, [.pass, .report i]⟩ ∈ h.machine.jobs ∨ ⟨o, [.report i]⟩ ∈ h.machine.jobs ∨
    ∃ e ∈ h.machine.events.toList, e.tag = i ∧ e.outcome = o

/-- A request awaits a task that has not ended, or is told what it came to. -/
def Watching (h : Host) (i s : Nat) : Prop :=
  ((s, [.pass, .report i]) ∈ h.machine.awaiting ∧ ∃ task, .settle task s ∈ h.active) ∨
    ∃ x, (s, x) ∈ h.ends ∧ h.Answering i (x.told h.machine.policy)

lemma Answering.grow (ha : h.Answering i o) (hg : h.Grows h' new) : h'.Answering i o := by
  unfold Answering
  rw [hg.events]
  exact ha.imp (fun hm => hg.jobs.subset hm) (.imp_left fun hm => hg.jobs.subset hm)

lemma Watching.grow (hw : h.Watching i s) (hg : h.Grows h' new) : h'.Watching i s := by
  rcases hw with ⟨hm, task, hactive⟩ | ⟨x, hm, ha⟩
  · refine .inl ⟨hg.awaiting.subset hm, task, ?_⟩
    rw [hg.active]
    exact Multiset.mem_add.mpr (.inr hactive)
  · refine .inr ⟨x, hg.ends ▸ hm, ?_⟩
    rw [hg.policy]
    exact ha.grow hg

lemma Sound.job_cases (hs : h.Sound) {j : Job} (hj : j ∈ h.machine.jobs) :
    (∃ rest, h.machine.jobs = j :: rest) ∨ j ∈ h.work.machine.jobs := by
  cases hjobs : h.machine.jobs with
  | nil => simp [hjobs] at hj
  | cons i rest =>
    rw [hjobs] at hj
    rcases List.mem_cons.mp hj with rfl | hj
    · exact .inl ⟨rest, rfl⟩
    · exact .inr ((hs.delivering.jobs_step hjobs).subset hj)

lemma turn_pass {rest : List Job} (hj : h.machine.jobs = ⟨o, [.pass, .report i]⟩ :: rest) :
    ⟨o, [.report i]⟩ ∈ h.work.machine.jobs := by
  have hstep : h.work.machine =
      ({ h.machine with jobs := rest } : Machine).resume [.report i] o := by
    refine (Machine.step_of_jobs hj).trans ?_
    cases o <;> rfl
  rw [hstep]
  exact List.mem_append_right _ (List.mem_singleton_self _)

lemma turn_report {rest : List Job} (hj : h.machine.jobs = ⟨o, [.report i]⟩ :: rest) :
    ∃ e ∈ h.work.machine.events.toList, e.tag = i ∧ e.outcome = o := by
  have hstep : h.work.machine = ({ h.machine with jobs := rest } : Machine).report i o := by
    refine (Machine.step_of_jobs hj).trans ?_
    cases o <;> rfl
  simp only [hstep, Machine.report, Array.toList_push, List.mem_append, List.mem_singleton]
  exact ⟨_, .inr rfl, rfl, rfl⟩

lemma Answering.work (ha : h.Answering i o) (hs : h.Sound) : h.work.Answering i o := by
  rcases ha with hm | hm | ⟨e, hm, he⟩
  · rcases hs.job_cases hm with ⟨rest, hj⟩ | hm
    · exact .inr (.inl (turn_pass hj))
    · exact .inl hm
  · rcases hs.job_cases hm with ⟨rest, hj⟩ | hm
    · exact .inr (.inr (turn_report hj))
    · exact .inr (.inl hm)
  · obtain ⟨gone, hshrinks⟩ := shrinks_work hs.delivering
    exact .inr (.inr ⟨e, hshrinks.events.subset hm, he⟩)

lemma Watching.work (hw : h.Watching i s) (hs : h.Sound) : h.work.Watching i s := by
  obtain ⟨gone, hshrinks⟩ := shrinks_work hs.delivering
  unfold Watching
  rw [hshrinks.policy]
  rcases hw with ⟨hm, task, hactive⟩ | ⟨x, hm, ha⟩
  · rcases hshrinks.awaiting _ hm with ⟨hm, hgone⟩ | ⟨x, hends, hj⟩
    · rw [hshrinks.active] at hactive
      exact .inl ⟨hm, task, (Multiset.mem_add.mp hactive).resolve_left (hgone task)⟩
    · exact .inr ⟨x, hends, .inl hj⟩
  · exact .inr ⟨x, hshrinks.ends.subset hm, ha.work hs⟩

/-! ### One outcome for each -/

lemma mem_standing_of_job {j : Job} (hj : j ∈ h.machine.jobs) :
    (j.stack.bottom.party, some j.fate) ∈ h.standing := by
  unfold standing
  simp only [Multiset.mem_add, Multiset.mem_coe, List.mem_map]
  exact .inl (.inl (.inl (.inl (.inl (.inl ⟨j, hj, rfl⟩)))))

lemma mem_standing_of_awaiting {w : Nat × Stack} (hw : w ∈ h.machine.awaiting) :
    (w.2.bottom.party, none) ∈ h.standing := by
  unfold standing
  simp only [Multiset.mem_add, Multiset.mem_coe, List.mem_map]
  exact .inl (.inl (.inl (.inl (.inr ⟨w, hw, rfl⟩))))

lemma mem_standing_of_ends (hm : (s, x) ∈ h.ends) : (.task s, some x) ∈ h.standing := by
  unfold standing
  simp only [Multiset.mem_add, Multiset.mem_coe, List.mem_map]
  exact .inl (.inr ⟨_, hm, rfl⟩)

lemma mem_standing_of_event {e : Event} (he : e ∈ h.machine.events.toList) :
    (.request e.tag, some (.settled e.outcome)) ∈ h.standing := by
  unfold standing
  simp only [Multiset.mem_add, Multiset.mem_coe, List.mem_map]
  exact .inr ⟨e, he, rfl⟩

lemma Answering.mem_standing (ha : h.Answering i o) :
    (.request i, some (.settled o)) ∈ h.standing := by
  rcases ha with hj | hj | ⟨e, he, rfl, rfl⟩
  · cases o <;> exact mem_standing_of_job hj
  · cases o <;> exact mem_standing_of_job hj
  · exact mem_standing_of_event he

lemma answering_of_mem_answers (ha : o ∈ h.machine.answers i) : h.Answering i o := by
  rcases List.mem_append.mp ha with ha | ha
  · obtain ⟨e, he, rfl⟩ := List.mem_map.mp ha
    obtain ⟨he, htag⟩ := List.mem_filter.mp he
    exact .inr (.inr ⟨e, he, of_decide_eq_true htag, rfl⟩)
  · obtain ⟨j, hj, hanswer⟩ := List.mem_filterMap.mp ha
    unfold Job.answer? at hanswer
    split at hanswer
    · split at hanswer
      · next htag =>
        cases hanswer
        exact .inr (.inl (htag ▸ hj))
      · cases hanswer
    · cases hanswer

/-- What a task has come to is in the books, or on its way to them. -/
def Coming (h : Host) (s : Nat) (x : Fate) : Prop :=
  (s, x) ∈ h.ends ∨ ∃ j ∈ h.machine.jobs, j.result? s = some x

lemma coming_of_result? (hr : h.result? s = some x) : h.Coming s x := by
  rcases Option.or_eq_some_iff.mp hr with hr | ⟨-, hr⟩
  · exact .inl (Table.mem_of_find? hr)
  · exact .inr (List.exists_of_findSome?_eq_some hr)

lemma Coming.mem_standing (hc : h.Coming s x) : (.task s, some x) ∈ h.standing := by
  rcases hc with hm | ⟨j, hj, hr⟩
  · exact mem_standing_of_ends hm
  · obtain ⟨task, ⟨o, rfl, rfl⟩ | ⟨f, rfl, rfl⟩⟩ := Job.result?_eq_some hr
    · cases o <;> exact mem_standing_of_job hj
    · exact mem_standing_of_job hj

lemma ends_of_turn {j : Job} {rest : List Job} (hj : h.machine.jobs = j :: rest)
    (hr : j.result? s = some x) : (s, x) ∈ h.work.ends := by
  have hending : h.machine.ending? = some (s, x) := by
    obtain ⟨task, ⟨o, rfl, rfl⟩ | ⟨f, rfl, rfl⟩⟩ := Job.result?_eq_some hr <;>
      simp only [Machine.ending?, hj]
  change _ ∈ h.ends ++ h.machine.ending?.toList
  rw [hending]
  exact List.mem_append_right _ (List.mem_singleton_self _)

lemma Coming.grow (hc : h.Coming s x) (hg : h.Grows h' new) : h'.Coming s x := by
  unfold Coming
  rw [hg.ends]
  exact hc.imp_right fun ⟨j, hj, hr⟩ => ⟨j, hg.jobs.subset hj, hr⟩

lemma Coming.work (hc : h.Coming s x) (hs : h.Sound) : h.work.Coming s x := by
  rcases hc with hm | ⟨j, hj, hr⟩
  · exact .inl (List.mem_append_left _ hm)
  · rcases hs.job_cases hj with ⟨rest, hjobs⟩ | hj
    · exact .inl (ends_of_turn hjobs hr)
    · exact .inr ⟨j, hj, hr⟩

namespace Sound

lemma outcome?_eq (hs : h.Sound) {e : Event} (he : e ∈ h.machine.events.toList) :
    h.machine.outcome? e.tag = some e.outcome := by
  unfold Machine.outcome?
  cases hfind : h.machine.events.find? fun e' => e'.tag = e.tag with
  | none =>
    have hnone := Array.find?_eq_none.mp hfind e (Array.mem_toList_iff.mp he)
    simp at hnone
  | some e' =>
    have htag : e'.tag = e.tag := by simpa using Array.find?_some hfind
    have hmem : e' ∈ h.machine.events.toList :=
      Array.mem_toList_iff.mpr (Array.mem_of_find?_eq_some hfind)
    have heq := hs.unique (htag ▸ mem_standing_of_event hmem) (mem_standing_of_event he)
    exact congrArg some (Fate.settled.inj (Option.some.inj heq))

/-- A request that is answered is answered in one way. -/
lemma eq_of_mem_answers (hs : h.Sound) {a : Outcome} (ho : h.Answering i o)
    (ha : a ∈ h.machine.answers i) : a = o := by
  cases hs.unique (answering_of_mem_answers ha).mem_standing ho.mem_standing
  rfl

lemma answers_eq_nil (hs : h.Sound) (hm : (s, [.pass, .report i]) ∈ h.machine.awaiting) :
    h.machine.answers i = [] := by
  refine List.eq_nil_iff_forall_not_mem.mpr fun a ha => ?_
  cases hs.unique (answering_of_mem_answers ha).mem_standing (mem_standing_of_awaiting hm)

/-- A task has come to something that it was given to do. -/
lemma gives (hs : h.Sound) (hc : h.Coming s x) :
    ∃ w, Table.find? h.works s = some w ∧ w.2.Gives h.machine.policy w.1 x := by
  have howes : Owes h.machine.policy h.works s x := by
    rcases hc with hm | ⟨j, hj, hr⟩
    · exact hs.ends _ hm
    · have hdelivers := hs.delivering.jobs _ hj
      obtain ⟨task, ⟨o, rfl, rfl⟩ | ⟨f, rfl, rfl⟩⟩ := Job.result?_eq_some hr
      · exact hdelivers
      · exact hdelivers
  obtain ⟨w, hw, hgives⟩ := howes
  exact ⟨w, Table.find?_of_mem hs.nodup_given.1 hw, hgives⟩

lemma not_mem_active (hs : h.Sound) (hm : (s, x) ∈ h.ends) (task : Atom) :
    .settle task s ∉ h.active := by
  intro hactive
  have hdisjoint := (Multiset.nodup_add.mp hs.nodup_parties).2.2
  refine Multiset.disjoint_left.mp hdisjoint (Multiset.mem_map_of_mem Frame.party hactive) ?_
  exact Multiset.mem_add.mpr (.inl (List.mem_map.mpr ⟨_, hm, rfl⟩))

end Sound

namespace Watching

lemma answers_of_none (hw : h.Watching i s) (hs : h.Sound) (hr : h.result? s = none) :
    h.machine.answers i = [] := by
  rcases hw with ⟨hm, -⟩ | ⟨x, hm, -⟩
  · exact hs.answers_eq_nil hm
  · have hfind : Table.find? h.ends s = none := (Option.or_eq_none_iff.mp hr).1
    rw [Table.find?_of_mem hs.nodup_ends hm] at hfind
    cases hfind

lemma answering (hw : h.Watching i s) (hs : h.Sound) (hm : (s, x) ∈ h.ends) :
    h.Answering i (x.told h.machine.policy) := by
  rcases hw with ⟨-, task, hactive⟩ | ⟨y, hm', ha⟩
  · exact (hs.not_mem_active hm task hactive).elim
  · have heq := hs.unique (mem_standing_of_ends hm') (mem_standing_of_ends hm)
    rwa [Option.some.inj heq] at ha

/-- What is heard is what some end of the task has to tell. -/
lemma exists_ends (hw : h.Watching i s) (hs : h.Sound) {a : Outcome}
    (ha : a ∈ h.machine.answers i) : ∃ x, (s, x) ∈ h.ends ∧ a = x.told h.machine.policy := by
  rcases hw with ⟨hm, -⟩ | ⟨x, hm, hanswering⟩
  · rw [hs.answers_eq_nil hm] at ha
    cases ha
  · exact ⟨x, hm, hs.eq_of_mem_answers hanswering ha⟩

end Watching

lemma Sound.watching_await (hs : h.Sound) {task : Atom} (tag : Nat)
    (hr : Table.find? h.machine.tasks.running task = some (.live s)) :
    (h.act (.ask (.await task tag) trivial)).Watching h.requests s := by
  have hmachine : (h.act (.ask (.await task tag) trivial)).machine = { h.machine with
      awaiting := h.machine.awaiting ++ [(s, [.pass, .report h.requests])] } := by
    change h.machine.await task _ = _
    simp only [Machine.await, hr]
  have hactive : .settle task s ∈ h.active := hs.entered _ (Table.mem_of_find? hr)
  refine .inl ⟨?_, task, ?_⟩
  · rw [hmachine]
    exact List.mem_append_right _ (List.mem_singleton_self _)
  · rw [(h.grows_await task tag).active]
    exact Multiset.mem_add.mpr (.inr hactive)

/-- What is heard of a name that nothing runs under. -/
def remembered (h : Host) (task : Atom) : Fault :=
  (Table.find? h.machine.tasks.failures task).getD (Fault.notRunning task).worded

/-- What is heard at once if there is no task to wait for, and what it still has to pass. -/
def reply? (h : Host) (task : Atom) : Option (Fault × Stack) :=
  match Table.find? h.machine.tasks.running task with
  | some (.live _) => none
  | some (.unready _) => some ((Fault.noResult task).worded, [.pass])
  | some (.stranded _) => some (.misuse .noText, [.pass])
  | none => some (h.remembered task, [])

lemma jobs_await {task : Atom} {f : Fault} {k : Stack} (tag : Nat)
    (hr : h.reply? task = some (f, k)) :
    (h.act (.ask (.await task tag) trivial)).machine.jobs =
      h.machine.jobs ++ [⟨.error f, k ++ [.report h.requests]⟩] := by
  change (h.machine.await task _).jobs = _
  unfold reply? remembered at hr
  cases hrun : Table.find? h.machine.tasks.running task with
  | some e =>
    rw [hrun] at hr
    cases e <;> cases hr <;> simp only [Machine.await, hrun] <;> rfl
  | none =>
    rw [hrun] at hr
    cases hr
    cases hf : Table.find? h.machine.tasks.failures task <;>
      simp only [Machine.await, hrun, hf] <;> rfl

lemma answering_await {task : Atom} {f : Fault} {k : Stack} (tag : Nat)
    (hr : h.reply? task = some (f, k)) :
    (h.act (.ask (.await task tag) trivial)).Answering h.requests (.error f) := by
  have hjob : ⟨.error f, k ++ [.report h.requests]⟩ ∈
      (h.act (.ask (.await task tag) trivial)).machine.jobs := by
    rw [jobs_await tag hr]
    exact List.mem_append_right _ (List.mem_singleton_self _)
  have hk : k = [.pass] ∨ k = [] := by
    unfold reply? at hr
    split at hr <;> cases hr <;> simp
  rcases hk with rfl | rfl
  · exact .inl hjob
  · exact .inr (.inl hjob)

section Along

variable {acts : Nat → Act}

lemma Sound.coming_along (hs : h.Sound) (acts : Nat → Act) {n k : Nat}
    (hk : n ≤ k) (hc : (h.along acts n).Coming s x) : (h.along acts k).Coming s x :=
  hs.keep_along (P := fun h => h.Coming s x) (fun hg hc => hc.grow hg) (fun hs hc => hc.work hs)
    acts hk hc

lemma Answering.along (ha : h.Answering i o) (hs : h.Sound) (acts : Nat → Act) (n : Nat) :
    (h.along acts n).Answering i o :=
  hs.keep_along (P := fun h => h.Answering i o) (fun hg ha => ha.grow hg) (fun hs ha => ha.work hs)
    acts n.zero_le ha

lemma Watching.along (hw : h.Watching i s) (hs : h.Sound) (acts : Nat → Act) (n : Nat) :
    (h.along acts n).Watching i s :=
  hs.keep_along (P := fun h => h.Watching i s) (fun hg hw => hw.grow hg) (fun hs hw => hw.work hs)
    acts n.zero_le hw

lemma act_of_works {a : Act} (ha : a.Works h) : h.act a = h.work := by
  obtain ⟨rfl, hc⟩ := ha
  exact if_pos hc

/-- Until the machine works the next time jobs only come in. -/
lemma Sound.exists_work (hs : h.Sound) (hf : h.Fair acts) (n : Nat) :
    ∃ m, n ≤ m ∧ h.along acts (m + 1) = (h.along acts m).work ∧
      (h.along acts n).machine.jobs <+: (h.along acts m).machine.jobs := by
  obtain ⟨m, hm, hworks⟩ := hf n
  obtain ⟨d, rfl⟩ := Nat.exists_eq_add_of_le hm
  clear hm
  -- how far the work found is away
  induction d generalizing n with
  | zero => exact ⟨n, le_rfl, act_of_works hworks, List.prefix_rfl⟩
  | succ d ih =>
    by_cases hn : (acts n).Works (h.along acts n)
    · exact ⟨n, le_rfl, act_of_works hn, List.prefix_rfl⟩
    · obtain ⟨new, hg⟩ := (hs.along acts n).grows hn
      obtain ⟨m, hm, hwork, hjobs⟩ := ih (n + 1) (by rwa [Nat.add_right_comm])
      exact ⟨m, by omega, hwork, hg.jobs.trans hjobs⟩

/-- **Every job has its turn.** -/
lemma Sound.has_turn (hs : h.Sound) (hf : h.Fair acts) {j : Job}
    (hj : j ∈ (h.along acts n).machine.jobs) :
    ∃ m, n ≤ m ∧ h.along acts (m + 1) = (h.along acts m).work ∧
      ∃ rest, (h.along acts m).machine.jobs = j :: rest := by
  obtain ⟨before, after, hjobs⟩ := List.append_of_mem hj
  clear hj
  -- the jobs before it, of which each turn takes one
  induction before generalizing n after with
  | nil =>
    obtain ⟨m, hm, hwork, t, ht⟩ := hs.exists_work hf n
    rw [hjobs] at ht
    exact ⟨m, hm, hwork, _, ht.symm⟩
  | cons i before ih =>
    obtain ⟨m, hm, hwork, t, ht⟩ := hs.exists_work hf n
    rw [hjobs] at ht
    obtain ⟨u, hu⟩ := (hs.along acts m).delivering.jobs_step ht.symm
    have hnext : (h.along acts (m + 1)).machine.jobs = before ++ j :: (after ++ t ++ u) := by
      rw [hwork]
      exact hu.symm.trans (by simp)
    obtain ⟨k, hk, hturn⟩ := ih _ hnext
    exact ⟨k, by omega, hturn⟩

lemma Sound.events_along (hs : h.Sound) (acts : Nat → Act) {n k : Nat} (hk : n ≤ k) {e : Event}
    (he : e ∈ (h.along acts n).machine.events.toList) :
    e ∈ (h.along acts k).machine.events.toList := by
  refine hs.keep_along (P := fun h => e ∈ h.machine.events.toList) (fun hg he => hg.events ▸ he)
    (fun hs he => ?_) acts hk he
  obtain ⟨gone, hshrinks⟩ := shrinks_work hs.delivering
  exact hshrinks.events.subset he

/-- A request whose outcome is on its way is answered for good. -/
lemma Sound.answered (hs : h.Sound) (hf : h.Fair acts) (ha : (h.along acts n).Answering i o) :
    ∃ m, ∀ k, m ≤ k → (h.along acts k).machine.outcome? i = some o := by
  have hevent {n : Nat}
      (he : ∃ e ∈ (h.along acts n).machine.events.toList, e.tag = i ∧ e.outcome = o) :
      ∃ m, ∀ k, m ≤ k → (h.along acts k).machine.outcome? i = some o := by
    obtain ⟨e, he, rfl, rfl⟩ := he
    exact ⟨n, fun k hk => (hs.along acts k).outcome?_eq (hs.events_along acts hk he)⟩
  have hreport {n : Nat} (hj : ⟨o, [.report i]⟩ ∈ (h.along acts n).machine.jobs) :
      ∃ m, ∀ k, m ≤ k → (h.along acts k).machine.outcome? i = some o := by
    obtain ⟨m, -, hwork, rest, hjobs⟩ := hs.has_turn hf hj
    refine hevent (n := m + 1) ?_
    rw [hwork]
    exact turn_report hjobs
  rcases ha with hj | hj | he
  · obtain ⟨m, -, hwork, rest, hjobs⟩ := hs.has_turn hf hj
    refine hreport (n := m + 1) ?_
    rw [hwork]
    exact turn_pass hjobs
  · exact hreport hj
  · exact hevent he

/-- A task that has come to something gets into the books. -/
lemma Sound.exists_ends (hs : h.Sound) (hf : h.Fair acts) (hc : (h.along acts n).Coming s x) :
    ∃ m, (s, x) ∈ (h.along acts m).ends := by
  rcases hc with hm | ⟨j, hj, hr⟩
  · exact ⟨n, hm⟩
  · obtain ⟨m, -, hwork, rest, hjobs⟩ := hs.has_turn hf hj
    refine ⟨m + 1, ?_⟩
    rw [hwork]
    exact ends_of_turn hjobs hr

lemma Sound.policy_along (hs : h.Sound) (acts : Nat → Act) (n : Nat) :
    (h.along acts n).machine.policy = h.machine.policy := by
  induction n with
  | zero => rfl
  | succ n ih => rw [Host.along, (hs.along acts n).policy_act, ih]

/-- Who is being answered is told this and nothing else. -/
lemma Sound.tells (hs : h.Sound) (ha : h.Answering i o) : h.Tells acts i o :=
  ⟨fun n _ hm => (hs.along acts n).eq_of_mem_answers (ha.along hs acts n) hm,
    fun hf => hs.answered hf (n := 0) ha⟩

/-- Who watches a task is told the end that it comes to at some moment. -/
lemma Sound.tells_of_watching (hs : h.Sound) (hw : h.Watching i s)
    (hc : (h.along acts n).Coming s x) : h.Tells acts i (x.told h.machine.policy) := by
  refine ⟨fun k a ha => ?_, fun hf => ?_⟩
  · obtain ⟨y, hy, rfl⟩ := (hw.along hs acts k).exists_ends (hs.along acts k) ha
    -- at the later of both moments the task has come to either end
    have hx' := hs.coming_along acts (le_max_left n k) hc
    have hy' := hs.coming_along acts (le_max_right n k) (.inl hy)
    have heq := (hs.along acts (max n k)).unique hy'.mem_standing hx'.mem_standing
    rw [Option.some.inj heq, hs.policy_along]
  · obtain ⟨m, hm⟩ := hs.exists_ends hf hc
    have hanswering := (hw.along hs acts m).answering (hs.along acts m) hm
    rw [hs.policy_along] at hanswering
    exact hs.answered hf hanswering

/-- **Awaiting a task tells its own outcome**, unless there is no task to wait for. A request to
await a name is made at any moment, whatever was asked before and whatever is asked, decided or
worked on afterwards. If a task runs under the name whose function has given it back, the request
goes unanswered until that task has come to something; then there is no other answer than what it
came to, which is what it was given to do. If none is entered, the answer is on its way at once:
the fault that the name is remembered by, or that nothing runs under it. There are two ways to
hear of a task what it has not come to. Its function is still being called: then it is said to
have no result, though it has not ended. Or it has thrown something without a text and is entered
for good: then it is heard that there is no text. -/
theorem await_tells_own_outcome (policy : Policy) (before : List Act) (task : Atom)
    (acts : Nat → Act) :
    let asked := run policy before
    let i := asked.requests
    let awaited := asked.act (.ask (.await task i) trivial)
    match Table.find? asked.machine.tasks.running task with
    | some (.live s) => ∀ n,
      match (awaited.along acts n).result? s with
      | none => (awaited.along acts n).machine.answers i = []
      | some x =>
        (∃ w, Table.find? (awaited.along acts n).works s = some w ∧ w.2.Gives policy w.1 x) ∧
        awaited.Tells acts i (x.told policy)
    | some (.unready s) =>
      (task, s) ∈ asked.machine.tasks.calls ∧
      awaited.Tells acts i (.error (Fault.noResult task).worded)
    | some (.stranded s) =>
      (∃ n a, Table.find? asked.works s = some (n, .thrown a) ∧ a.display? = none) ∧
      awaited.Tells acts i (.error (.misuse .noText))
    | none =>
      .error (asked.remembered task) ∈ awaited.machine.answers i ∧
      awaited.Tells acts i (.error (asked.remembered task)) := by
  intro asked i awaited
  have hs : asked.Sound := sound_run policy before
  have hs' : awaited.Sound := hs.act _
  have hpolicy : asked.machine.policy = policy := policy_run ..
  have hpolicy' : awaited.machine.policy = policy := (hs.policy_act _).trans hpolicy
  have hreply {f : Fault} {k : Stack} (hr : asked.reply? task = some (f, k)) :
      awaited.Tells acts i (.error f) := hs'.tells (answering_await i hr)
  cases hrun : Table.find? asked.machine.tasks.running task with
  | some e =>
    have hentered := hs.entered _ (Table.mem_of_find? hrun)
    cases e with
    | live s =>
      intro n
      -- as long as the task has come to nothing its request only waits
      cases hr : (awaited.along acts n).result? s with
      | none =>
        have hwatching := (hs.watching_await i hrun).along hs' acts n
        exact hwatching.answers_of_none (hs'.along acts n) hr
      | some x =>
        have hcoming := coming_of_result? hr
        have hgives := (hs'.along acts n).gives hcoming
        have htells := hs'.tells_of_watching (hs.watching_await i hrun) hcoming
        rw [hs'.policy_along, hpolicy'] at hgives
        rw [hpolicy'] at htells
        exact ⟨hgives, htells⟩
    | unready s => exact ⟨hentered, hreply (k := [.pass]) (by simp only [reply?, hrun])⟩
    | stranded s =>
      refine ⟨?_, hreply (k := [.pass]) (by simp only [reply?, hrun])⟩
      obtain ⟨⟨n, e⟩, hw, hgives⟩ := hs.gives (.inl hentered)
      obtain ⟨a, rfl, ha⟩ := hgives.exists_thrown
      exact ⟨n, a, hw, ha⟩
  | none =>
    have hr : asked.reply? task = some (asked.remembered task, []) := by simp only [reply?, hrun]
    refine ⟨List.mem_append_right _ ?_, hreply hr⟩
    refine List.mem_filterMap.mpr ⟨⟨.error (asked.remembered task), [.report i]⟩, ?_, ?_⟩
    · rw [jobs_await i hr]
      exact List.mem_append_right _ (List.mem_singleton_self _)
    · simp [Job.answer?]

lemma Sound.fair_of_steps (hs : h.Sound) (hc : (h.along acts n).machine.tasks.calls = [])
    (hsteps : ∀ m, n ≤ m → acts m = .step) : h.Fair acts := by
  have hcalls (m : Nat) (hm : n ≤ m) : (h.along acts m).machine.tasks.calls = [] := by
    induction m, hm using Nat.le_induction with
    | base => exact hc
    | succ m hm ih =>
      obtain ⟨gone, hshrinks⟩ := shrinks_work (hs.along acts m).delivering
      rw [Host.along, act_of_works ⟨hsteps m hm, ih⟩, hshrinks.calls, ih]
  exact fun k => ⟨max n k, le_max_right .., hsteps _ (le_max_left ..), hcalls _ (le_max_left ..)⟩

end Along

/-- A task that takes a step. -/
def unhurried : List Act :=
  [.ask (.spawn "a") trivial, .ask (.giveBack (.steps 1 (.result (.int 1)))) trivial]

/-- While it takes the step, another is started under its name and ends before it. -/
def overtaking : Nat → Act
  | 0 => .ask (.spawn "a") trivial
  | 1 => .ask (.giveBack (.steps 0 (.result (.int 2)))) trivial
  | _ + 2 => .step

/-- Who awaits the first task hears of the first, though the entry is the other's by then. -/
theorem overtaken_tells_own_outcome :
    let awaited := (run {} unhurried).act (.ask (.await "a" 0) trivial)
    awaited.Fair overtaking ∧
      ∃ m, ∀ k, m ≤ k → (awaited.along overtaking k).machine.outcome? 0 = some (.ok (.int 1)) := by
  intro awaited
  have hfair : awaited.Fair overtaking := by
    refine Sound.fair_of_steps ((sound_run {} unhurried).act _) (n := 2) rfl fun m hm => ?_
    obtain ⟨d, rfl⟩ := Nat.exists_eq_add_of_le' hm
    rfl
  exact ⟨hfair, (await_tells_own_outcome {} unhurried "a" overtaking 3).2.2 hfair⟩

/-- A task throws something without a text, and is awaited when it has ended. -/
def textless : List Act :=
  [.ask (.spawn "a") trivial, .ask (.giveBack (.steps 0 (.thrown (.compound [] none)))) trivial,
    .step, .ask (.await "a" 0) trivial, .step, .step]

/-- The function of a task awaits the task itself. -/
def impatient : List Act :=
  [.ask (.spawn "a") trivial, .ask (.await "a" 0) trivial, .entrust, .step, .step]

/-- A task that has ended is entered for good, not counted and not remembered, and of one that has
not ended it is heard that it has no result. -/
theorem await_tells_other :
    let late := (run {} textless).machine
    let early := run {} impatient
    (Table.find? late.tasks.running "a" = some (.stranded 0) ∧ late.tasks.settled = 0 ∧
      late.tasks.failures = [] ∧ late.outcome? 0 = some (.error (.misuse .noText))) ∧
    Table.find? early.undecided 0 = some "a" ∧ early.result? 0 = none ∧
      early.machine.outcome? 0 = some (.error (.noResult "a")) :=
  ⟨⟨rfl, rfl, rfl, rfl⟩, rfl, rfl, rfl⟩

end Host

end Parley
