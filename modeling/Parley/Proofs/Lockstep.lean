import Parley.Proofs.Tandem

/-!
Machines that correspond frame by frame, and run in lockstep.

Where stacks are as high in the one machine as in the other, a tie is given by the values, faults
and frames that correspond. If such frames take turns that correspond, two machines do every step
together, come to rest together, and report at the same moments. What corresponds may change from
step to step, as long as it refines what came before.
-/

namespace Parley

/-- What corresponds, frame by frame. -/
structure Pairing where
  value : Value → Value → Prop
  fault : Fault → Fault → Prop
  frame : Frame → Frame → Prop

namespace Pairing

section

variable (R : Pairing)

abbrev stack : Stack → Stack → Prop := List.Forall₂ R.frame

def job (j j' : Job) : Prop :=
  Except.Tied R.fault R.value j.outcome j'.outcome ∧ R.stack j.stack j'.stack

/-- Reports of outcomes that correspond, with the same counts. -/
def event (e e' : Event) : Prop :=
  e'.counts = e.counts ∧ Except.Tied R.fault R.value e.outcome e'.outcome

def tie : Tie where
  value := R.value
  fault := R.fault
  stack := R.stack
  jobs := List.Forall₂ R.job
  events es es' := List.Forall₂ R.event es.toList es'.toList

structure Lawful : Prop where
  unit : R.value .unit .unit
  limit : ∀ a, R.fault (.stepLimitExceeded a) (.stepLimitExceeded a)
  noText : R.fault (.misuse .noText) (.misuse .noText)
  showable : ∀ {v v'}, R.value v v' → v'.showable = v.showable
  /-- A bottom has nothing in it that could differ. -/
  bottom : ∀ {f f'}, R.frame f f' → f.IsBottom ∨ f'.IsBottom → f' = f
  /-- No task given from outside goes on. -/
  unscripted : ∀ {f f'}, R.frame f f' → ¬ f.IsScripted ∧ ¬ f'.IsScripted

structure Refines (R' : Pairing) : Prop where
  value : ∀ {v v'}, R.value v v' → R'.value v v'
  fault : ∀ {f f'}, R.fault f f' → R'.fault f f'
  frame : ∀ {f f'}, R.frame f f' → R'.frame f f'

end

variable {R R' : Pairing}

lemma Lawful.tie (hR : R.Lawful) : R.tie.Lawful where
  unit := hR.unit
  limit := hR.limit
  showable := hR.showable
  append h ho hk := List.rel_append h (.cons ⟨ho, hk⟩ .nil)

lemma Refines.rfl : R.Refines R := ⟨id, id, id⟩

section

variable (h : R.Refines R')

include h

lemma Refines.tie : R.tie.Refines R'.tie := ⟨h.value, h.fault, fun hk => hk.imp fun _ _ => h.frame⟩

lemma Refines.outcome {o o' : Outcome} (ho : Except.Tied R.fault R.value o o') :
    Except.Tied R'.fault R'.value o o' := by
  cases ho with
  | ok hv => exact .ok (h.value hv)
  | error hf => exact .error (h.fault hf)

lemma Refines.job {j j' : Job} (hj : R.job j j') : R'.job j j' :=
  ⟨h.outcome hj.1, hj.2.imp fun _ _ => h.frame⟩

lemma Refines.event {e e' : Event} (he : R.event e e') : R'.event e e' := ⟨he.1, h.outcome he.2⟩

end

/-! ### Turns -/

section

variable {k k' fs fs' : Stack} {v v' : Value} {tracing : Bool} (hk : R.stack k k')

include hk

lemma turn_hand (hfs : R.stack fs fs') (hv : R.value v v') :
    R.tie.turn k k' (.hand fs v) (.hand fs' v') :=
  ⟨.nil, .hand (List.rel_append hfs hk) (.ok hv)⟩

lemma turn_fault {f f' : Fault} (hf : R.fault f f') : R.tie.turn k k' (.fault f) (.fault f') :=
  ⟨.nil, .hand hk (.error hf)⟩

lemma turn_eval {e e' : Expr} {env env' : Env} (h : R.frame (.eval e env) (.eval e' env'))
    (hfs : R.stack fs fs') : R.tie.turn k k' (.eval e env fs) (.eval e' env' fs') :=
  ⟨.nil, .count (List.rel_append (.cons h hfs) hk)⟩

omit hk in
lemma turn_after {d d' : Deed} {t t' : Turn} (hd : R.tie.deed d d') (ht : R.tie.turn k k' t t') :
    R.tie.turn k k' (.after d t) (.after d' t') :=
  ⟨.cons hd ht.deeds, ht.sequel⟩

lemma turn_noting (hR : R.Lawful) (hv : R.value v v') {d d' : Deed} (hd : R.tie.deed d d')
    {t t' : Turn} (ht : R.tie.turn k k' t t') :
    R.tie.turn k k' (.noting tracing v d t) (.noting tracing v' d' t') := by
  unfold Turn.noting
  rw [hR.showable hv]
  split
  · exact turn_after hd ht
  · exact turn_fault hk hR.noText

lemma turn_ofExcept {α : Type} {S : α → α → Prop} {r r' : Except Fault α}
    (hr : Except.Tied R.fault S r r') {next next' : α → Turn}
    (hnext : ∀ a a', S a a' → R.tie.turn k k' (next a) (next' a')) :
    R.tie.turn k k' (.ofExcept r next) (.ofExcept r' next') := by
  cases hr with
  | ok h => exact hnext _ _ h
  | error h => exact turn_fault hk h

end

/-- Frames that correspond take turns that correspond. -/
def Steady (R : Pairing) : Prop :=
  ∀ {f f' : Frame} {v v' : Value} {k k' : Stack}, R.frame f f' → R.value v v' → R.stack k k' →
    ∀ tracing n, R.tie.turn k k' (f.turn tracing n v) (f'.turn tracing n v')

end Pairing

/-! ### Steps and runs -/

namespace Machine.Tied

variable {R R' : Pairing} {m m' : Machine}

lemma unscripted (hR : R.Lawful) (h : m.Tied R.tie m') : m.Unscripted ∧ m'.Unscripted := by
  have hjobs := h.jobs
  constructor
  · intro o f k rest hj
    rw [hj] at hjobs
    obtain ⟨⟨o', l⟩, -, ⟨-, hl⟩, -, -⟩ := List.forall₂_cons_left_iff.mp hjobs
    obtain ⟨f', -, hf, -⟩ := List.forall₂_cons_left_iff.mp hl
    exact (hR.unscripted hf).1
  · intro o' f' k' rest' hj'
    rw [hj'] at hjobs
    obtain ⟨⟨o, l⟩, -, ⟨-, hl⟩, -, -⟩ := List.forall₂_cons_right_iff.mp hjobs
    obtain ⟨f, -, hf, -⟩ := List.forall₂_cons_right_iff.mp hl
    exact (hR.unscripted hf).2

/-- Jobs meet in the pairing that comes next if their turns correspond there. -/
lemma lockstep_meets (hR : R.Lawful) (h : R.Refines R') {o o' : Outcome}
    (ho : Except.Tied R.fault R.value o o') {k k' : Stack} (hk : R.stack k k')
    (hturn : ∀ {v v' f f' l l'}, o = .ok v → o' = .ok v' → k = f :: l → k' = f' :: l' →
      R'.stack l l' → ∀ tracing n, R'.tie.turn l l' (f.turn tracing n v) (f'.turn tracing n v')) :
    R'.tie.Meets ⟨o, k⟩ ⟨o', k'⟩ := by
  cases hk with
  | nil => exact .drop
  | @cons f f' l l' hf hl =>
    have hl' : R'.stack l l' := hl.imp fun _ _ => h.frame
    by_cases hbottom : f.IsBottom ∨ f'.IsBottom
    · obtain rfl := hR.bottom hf hbottom
      cases f' with
      | settle task serial => exact .settle (h.outcome ho)
      | report tag =>
        refine .report fun e e' hes hcounts he he' => ?_
        have hnew : R'.event e e' := ⟨hcounts, he ▸ he' ▸ h.outcome ho⟩
        simp only [Pairing.tie, Array.toList_push] at hes ⊢
        exact List.rel_append hes (.cons hnew .nil)
      | _ => exact (or_self_iff.mp hbottom).elim
    · rw [not_or] at hbottom
      cases ho with
      | ok hv => exact .turn hbottom.1 hbottom.2 (hturn rfl rfl rfl rfl hl')
      | error he => exact .fault hbottom.1 hbottom.2 hl' (h.fault he)

/-- **A step in lockstep**, into what corresponds next. -/
theorem lockstep (hR : R.Lawful) (hR' : R'.Lawful) (h : R.Refines R') (ht : m.Tied R.tie m')
    (hturn : ∀ {f f' v v' k k' rest rest'}, m.jobs = ⟨.ok v, f :: k⟩ :: rest →
      m'.jobs = ⟨.ok v', f' :: k'⟩ :: rest' → R'.stack k k' →
      ∀ tracing n, R'.tie.turn k k' (f.turn tracing n v) (f'.turn tracing n v')) :
    m.step.Tied R'.tie m'.step := by
  have hnext : ∀ {js js'}, List.Forall₂ R.job js js' →
      Tied R'.tie { m with jobs := js } { m' with jobs := js' } := fun hjs =>
    ht.refines h.tie (hjs.imp fun _ _ => h.job) (ht.events.imp fun _ _ => h.event)
  have hjobs := ht.jobs
  cases hj : m.jobs with
  | nil =>
    have hj' : m'.jobs = [] := List.forall₂_nil_left_iff.mp (hj ▸ hjobs)
    exact (hnext ht.jobs).release hR'.tie hj hj'
  | cons j rest =>
    rw [hj] at hjobs
    obtain ⟨j', rest', hhead, hrest, hj'⟩ := List.forall₂_cons_left_iff.mp hjobs
    obtain ⟨hm, hm'⟩ := ht.unscripted hR
    refine Tied.perform hR'.tie hm hm' hj hj' (hnext hrest) ?_
    obtain ⟨o, k⟩ := j
    obtain ⟨o', k'⟩ := j'
    refine lockstep_meets hR h hhead.1 hhead.2 fun ho ho' hk hk' => ?_
    subst ho ho' hk hk'
    exact hturn hj hj'

lemma quiet_eq (h : m.Tied R.tie m') : m'.quiet = m.quiet := by
  have hempty : ∀ {α : Type} {S : α → α → Prop} {l l' : List α}, List.Forall₂ S l l' →
      l'.isEmpty = l.isEmpty := by
    intro α S l l' hl
    cases hl <;> rfl
  unfold quiet
  rw [hempty h.jobs, hempty h.parked]

section

variable (hR : R.Lawful) (hs : R.Steady) (h : m.Tied R.tie m')

include hR hs h

lemma steady_step : m.step.Tied R.tie m'.step := by
  refine h.lockstep hR hR .rfl fun hj hj' hk => ?_
  have hjobs := h.jobs
  rw [hj, hj'] at hjobs
  obtain ⟨⟨ho, hstack⟩, -⟩ := List.forall₂_cons.mp hjobs
  cases ho with
  | ok hv => exact hs (List.forall₂_cons.mp hstack).1 hv hk

/-- **Machines stay in lockstep**, whether or not they ever come to rest. -/
theorem iterate (n : Nat) : (Machine.step^[n] m).Tied R.tie (Machine.step^[n] m') := by
  induction n with
  | zero => exact h
  | succ n ih =>
    rw [Function.iterate_succ_apply', Function.iterate_succ_apply']
    exact ih.steady_step hR hs

/-- **Machines in lockstep come to rest together.** -/
theorem drain (fuel : Nat) : Option.Rel (Tied R.tie) (m.drain fuel) (m'.drain fuel) := by
  unfold Machine.drain
  induction fuel generalizing m m' with
  | zero => exact .none
  | succ fuel ih =>
    simp only [runUntil, h.quiet_eq]
    split
    · exact .some h
    · exact ih (h.steady_step hR hs)

end

lemma event (h : m.Tied R.tie m') (tag : Nat) :
    Option.Rel R.event (m.events.find? fun e => e.tag = tag)
      (m'.events.find? fun e => e.tag = tag) := by
  rw [← Array.find?_toList, ← Array.find?_toList]
  refine find?_of_forall₂ h.events fun e e' he => ?_
  have htag : e'.tag = e.tag := (List.cons.inj he.1).1
  rw [htag]

/-- Main processes that have ended, or are blocked, in corresponding ways. -/
lemma conclude (h : m.Tied R.tie m') (hdeadlock : R.fault .deadlock .deadlock) :
    R.tie.outcome (Guard.conclude (m.outcome? 0)) (Guard.conclude (m'.outcome? 0)) := by
  have hevent := h.event 0
  unfold outcome?
  generalize m.events.find? _ = e, m'.events.find? _ = e' at hevent
  cases hevent with
  | none => exact .error hdeadlock
  | some he => exact he.2

/-- Main processes that have ended did so at the same moment. -/
lemma countsAtEnd (h : m.Tied R.tie m') : m'.soFar.countsAtEnd = m.soFar.countsAtEnd := by
  have hevent := h.event 0
  simp only [soFar, Finished.countsAtEnd, Finished.ended?]
  generalize m.events.find? _ = e, m'.events.find? _ = e' at hevent
  cases hevent with
  | none => rfl
  | some he => exact congrArg some he.1

section

variable (hR : R.Lawful) (hs : R.Steady) (hf : R.tie.Faithful)
  (hdeadlock : R.fault .deadlock .deadlock) (h : m.Tied R.tie m')

include hf hdeadlock h

/-- Machines in lockstep give the same account, and their main processes end at the same moment. -/
lemma glimpse_eq : m'.glimpse = m.glimpse := by
  unfold glimpse
  rw [h.quiet_eq, h.countsAtEnd, soFar, hf.report_eq h (h.conclude hdeadlock), soFar]

include hR hs

lemma reports_eq (fuel : Nat) :
    (Finished.ofMachine fuel 0 m').map (fun f => (f.report, f.countsAtEnd)) =
      (Finished.ofMachine fuel 0 m).map fun f => (f.report, f.countsAtEnd) := by
  have hdrain := h.drain hR hs fuel
  unfold Finished.ofMachine
  generalize m.drain fuel = r, m'.drain fuel = r' at hdrain
  cases hdrain with
  | none => rfl
  | some hr =>
    simp only [Option.map_some, Option.some.injEq, Prod.mk.injEq]
    exact ⟨hf.report_eq hr (hr.conclude hdeadlock), hr.countsAtEnd⟩

/-- **Runs in lockstep give the same account**, after every step and when they are over. -/
theorem same_account :
    (∀ n, (Machine.step^[n] m').glimpse = (Machine.step^[n] m).glimpse) ∧
    ∀ fuel, (Finished.ofMachine fuel 0 m').map (fun f => (f.report, f.countsAtEnd)) =
      (Finished.ofMachine fuel 0 m).map fun f => (f.report, f.countsAtEnd) :=
  ⟨fun n => (h.iterate hR hs n).glimpse_eq hf hdeadlock, h.reports_eq hR hs hf hdeadlock⟩

end

end Machine.Tied

end Parley
