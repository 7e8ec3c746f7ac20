import Parley.Proofs.Alone

/-!
Functions of several parameters.

A declaration takes its parameters one by one, and all that an argument does is to be bound: only
the last one leads to an evaluation. The same function can be written as lambdas inside each other,
where every argument leads to the evaluation of what is inside. In the end both evaluate the same
body in the same environment, on machines that have counted steps and taken notes differently, and
for a process that is alone this makes no difference.
-/

namespace Parley

def Global.taking (name : Atom) (ps : List String) (body : Expr) : Global :=
  ⟨name, .ok (ps.map fun p => some (.text p)), body⟩

def Expr.lambdas (ps : List String) (body : Expr) : Expr :=
  ps.foldr (fun p e => .lambda (.text p) e) body

/-- Binds parameters to arguments, the first one first. -/
def Env.bindAll (env : Env) (ps : List String) (vs : List Value) : Env :=
  Table.setAll env ((ps.map Atom.text).zip vs)

namespace Machine

/-! ### Calls from outside -/

/-- A call is handed in, and earlier reports are taken away. -/
def handed (m : Machine) (c : Call) : Machine := ({ m with events := #[] } : Machine).launch c 0

/-- A call is handed in and runs until nothing is left to do. It ends with an outcome, or it is
blocked and there is none. -/
def Runs (m : Machine) (c : Call) (o : Option Outcome) (r : Machine) : Prop :=
  ∃ fuel, (m.handed c).drain fuel = some r ∧ r.outcome? 0 = o

/-- A call is handed in, and its result is applied to an argument as a call of its own, and so on
with the result of that. -/
inductive Applies : Machine → Call → List Value → Option Outcome → Machine → Prop
  | nil {m r : Machine} {c : Call} {o : Option Outcome} (h : m.Runs c o r) : Applies m c [] o r
  | cons {m m₁ m₂ r : Machine} {c c' : Call} {fn v : Value} {vs : List Value} {o : Option Outcome}
      (h : m.Runs c (some (.ok fn)) m₁) (ha : m₁.apply fn v = some (c', m₂))
      (hs : Applies m₂ c' vs o r) : Applies m c (v :: vs) o r

/-- What comes of a call and of applying its results: how the last one ends, the queues that are
left, how many are allocated, and the steps that have been counted. -/
def Gives (m : Machine) (c : Call) (vs : List Value) (o : Option Outcome)
    (queues : Table QueueId (Queue Value Stack)) (allocated steps : Nat) : Prop :=
  ∃ r, m.Applies c vs o r ∧ r.queues = queues ∧ r.allocated = allocated ∧
    r.steps = m.steps + steps

/-- A call has the machine to itself: nobody waits on a queue, no step is forbidden, and no task
is started. -/
structure RunsAlone (m : Machine) (c : Call) : Prop where
  quiet : m.quiet = true
  waiting : ∀ q, (m.queue q).waiting = []
  unlimited : ∀ i, m.policy.forbids i = false
  unforked : ∀ i, (Machine.step^[i] (m.handed c)).tasks.started = m.tasks.started

variable {m r : Machine} {c : Call} {o : Option Outcome} {v : Value} {vs : List Value}

lemma runs_iff : m.Runs c o r ↔ ∃ n, (Machine.step^[n] (m.handed c)).quiet = true ∧
    Machine.step^[n] (m.handed c) = r ∧ r.outcome? 0 = o := by
  constructor
  · rintro ⟨fuel, hr, ho⟩
    obtain ⟨n, rfl⟩ := exists_iterate_of_drain hr
    exact ⟨n, quiet_of_drain hr, rfl, ho⟩
  · rintro ⟨n, hq, rfl, ho⟩
    exact ⟨n + 1, drain_iterate hq, ho⟩

/-- A machine that is at rest at some point is what a run comes to. -/
lemma runs_of_quiet {n : Nat} (hn : (Machine.step^[n] (m.handed c)).quiet = true) :
    m.Runs c o r ↔ r = Machine.step^[n] (m.handed c) ∧ o = r.outcome? 0 := by
  rw [runs_iff]
  constructor
  · rintro ⟨i, hi, rfl, rfl⟩
    exact ⟨iterate_eq_of_quiet hi hn, rfl⟩
  · rintro ⟨rfl, rfl⟩
    exact ⟨n, hn, rfl, rfl⟩

lemma jobs_of_quiet (hm : m.quiet = true) : m.jobs = [] ∧ m.parked = [] := by
  simpa [quiet] using hm

lemma runs_of_report {b : Machine} {n : Nat}
    (hn : Machine.step^[n] (m.handed c) = b.report 0 (.ok v)) (hb : b.quiet = true)
    (hevents : b.events = #[]) :
    m.Runs c o r ↔ r = b.report 0 (.ok v) ∧ o = some (.ok v) := by
  have hquiet : (b.report 0 (.ok v)).quiet = true := hb
  rw [runs_of_quiet (hn ▸ hquiet), hn]
  refine and_congr_right ?_
  rintro rfl
  simp [outcome?, report, hevents]

lemma Runs.unique {o' : Option Outcome} {r' : Machine} (h : m.Runs c o r) (h' : m.Runs c o' r') :
    r = r' := by
  obtain ⟨n, hn, rfl, -⟩ := runs_iff.mp h
  exact ((runs_of_quiet hn).mp h').1.symm

lemma runs_value (hm : m.quiet = true) : m.Runs (.value v) o r ↔
    r = ({ m with events := #[] } : Machine).report 0 (.ok v) ∧ o = some (.ok v) := by
  obtain ⟨hj, -⟩ := jobs_of_quiet hm
  have hjobs : (m.handed (.value v)).jobs = [⟨.ok v, [.report 0]⟩] := by
    simp [handed, launch, resume, hj]
  have hstep : Machine.step^[1] (m.handed (.value v)) =
      ({ m with events := #[] } : Machine).report 0 (.ok v) := by
    rw [Function.iterate_one, step_of_jobs hjobs]
    obtain ⟨⟩ := m
    cases hj
    rfl
  exact runs_of_report hstep hm rfl

lemma applies_congr {m' : Machine}
    (h : ({ m' with events := #[] } : Machine) = { m with events := #[] }) :
    m'.Applies c vs o r ↔ m.Applies c vs o r := by
  have hhanded : ∀ c, m'.handed c = m.handed c := fun c => by simp only [handed, h]
  have hruns : ∀ o r, m'.Runs c o r ↔ m.Runs c o r := fun o r => by simp only [Runs, hhanded]
  constructor
  · rintro (h | ⟨h, ha, hs⟩)
    · exact .nil ((hruns _ _).mp h)
    · exact .cons ((hruns _ _).mp h) ha hs
  · rintro (h | ⟨h, ha, hs⟩)
    · exact .nil ((hruns _ _).mpr h)
    · exact .cons ((hruns _ _).mpr h) ha hs

lemma applies_cons {m₁ m₂ : Machine} {c' : Call} {fn : Value}
    (hruns : ∀ o r, m.Runs c o r ↔ r = m₁ ∧ o = some (.ok fn))
    (happly : m₁.apply fn v = some (c', m₂)) :
    m.Applies c (v :: vs) o r ↔ m₂.Applies c' vs o r := by
  constructor
  · rintro (_ | ⟨h, ha, hs⟩)
    obtain ⟨rfl, hfn⟩ := (hruns _ _).mp h
    cases hfn
    rw [happly] at ha
    cases ha
    exact hs
  · exact fun h => .cons ((hruns _ _).mpr ⟨rfl, rfl⟩) happly h

lemma applies_nil : m.Applies c [] o r ↔ m.Runs c o r := by
  constructor
  · rintro ⟨h⟩
    exact h
  · exact .nil

/-! ### Declarations -/

/-- A function that is applied is the declaration of its other parameters. -/
lemma apply_function (m : Machine) (name p : Atom) (more : List Param) (body : Expr) (env : Env)
    (v : Value) : m.apply (.function (some p) more body env) v =
      some (Global.call ⟨name, .ok more, body⟩ (Table.set env p v), m) := by
  cases more <;> rfl

lemma applies_function (hm : m.quiet = true) (name p : Atom) (more : List Param) (body : Expr)
    (env : Env) : m.Applies (.value (.function (some p) more body env)) (v :: vs) o r ↔
      m.Applies (Global.call ⟨name, .ok more, body⟩ (Table.set env p v)) vs o r :=
  (applies_cons (fun _ _ => runs_value hm) (apply_function _ name p more body env v)).trans
    (applies_congr rfl)

/-- **Arguments are only bound** as long as there are parameters for them. -/
theorem applies_taking (hm : m.quiet = true) (name : Atom) (body : Expr) {ps : List String}
    {us : List Value} (hus : us.length ≤ ps.length) (env : Env) :
    m.Applies ((Global.taking name ps body).call env) (us ++ vs) o r ↔
      m.Applies ((Global.taking name (ps.drop us.length) body).call
        (env.bindAll (ps.take us.length) us)) vs o r := by
  induction us generalizing ps env with
  | nil => rfl
  | cons u us ih =>
    cases ps with
    | nil => exact absurd hus (by simp)
    | cons p ps =>
      have hus : us.length ≤ ps.length := Nat.le_of_succ_le_succ hus
      exact (applies_function hm name (.text p) _ body env).trans (ih hus _)

lemma gives_taking (hm : m.quiet = true) (name : Atom) (body : Expr) {ps : List String}
    {us : List Value} (hus : us.length ≤ ps.length) (env : Env)
    {q : Table QueueId (Queue Value Stack)} {a d : Nat} :
    m.Gives ((Global.taking name ps body).call env) (us ++ vs) o q a d ↔
      m.Gives ((Global.taking name (ps.drop us.length) body).call
        (env.bindAll (ps.take us.length) us)) vs o q a d := by
  simp only [Gives, applies_taking hm name body hus env]

/-! ### Lambdas -/

/-- A lambda is its value after one step, and leaves notes. -/
lemma exists_iterate_lambda {policy : Policy} (hlimit : ∀ i, policy.forbids i = false)
    {b : Machine} (hb : b.Resting policy) (p : String) (e : Expr) (env : Env) (k : Stack) :
    ∃ i log, Machine.step^[i] (b.eval (.lambda (.text p) e) env k) =
      ({ b with steps := b.steps + 1, log } : Machine).resume k
        (.ok (.function (some (.text p)) [] e env)) := by
  obtain ⟨i, hi⟩ := exists_iterate_eval hlimit hb (.lambda (.text p) e) env k
  have hc : ({ b with steps := b.steps + 1 } : Machine).Resting policy := { hb with }
  have hlooked := step_resume_ok hc (.eval (.lambda (.text p) e) env) k .unit
  have hcaption : (Expr.lambda (.text p) e).caption? = some ("lambda " ++ p) := rfl
  simp only [accept, evalCounted, hcaption, trace, evalParts, done] at hlooked
  cases ht : b.policy.tracing with
  | false =>
    simp only [ht, Bool.false_eq_true, if_false] at hlooked
    refine ⟨i + 1, b.log, ?_⟩
    rw [Function.iterate_succ_apply', hi, hlooked]
  | true =>
    simp only [ht, if_true, note] at hlooked
    have hleft := step_resume_ok (hc.note (.enter ("lambda " ++ p)))
      (.leave (Expr.caption (.lambda (.text p) e))) k (.function (some (.text p)) [] e env)
    simp only [accept, canTrace, trace, note, ht, Value.showable, Bool.or_true, if_true] at hleft
    refine ⟨i + 1 + 1, _, Eq.trans ?_ hleft⟩
    rw [Function.iterate_succ_apply', Function.iterate_succ_apply', hi, hlooked]

/-- Evaluating a lambda and applying it is evaluating what is inside, one step later. -/
lemma applies_lambda (hm : m.quiet = true) (hwaiting : ∀ q, (m.queue q).waiting = [])
    (hlimit : ∀ i, m.policy.forbids i = false) (p : String) (e : Expr) (env : Env) :
    ∃ log, ∀ v vs o r, m.Applies (.body (.lambda (.text p) e) env) (v :: vs) o r ↔
      ({ m with steps := m.steps + 1, log } : Machine).Applies
        (.body e (Table.set env (.text p) v)) vs o r := by
  obtain ⟨hj, hp⟩ := jobs_of_quiet hm
  have hb : ({ m with events := #[] } : Machine).Resting m.policy := ⟨rfl, hj, hp, rfl, hwaiting⟩
  obtain ⟨i, log, hi⟩ := exists_iterate_lambda hlimit hb p e env [.report 0]
  have hc : ({ m with steps := m.steps + 1, log, events := #[] } : Machine).Resting m.policy :=
    { hb with }
  have hstep : Machine.step^[i + 1] (m.handed (.body (.lambda (.text p) e) env)) =
      ({ m with steps := m.steps + 1, log, events := #[] } : Machine).report 0
        (.ok (.function (some (.text p)) [] e env)) := by
    rw [Function.iterate_succ_apply']
    exact (congrArg Machine.step hi).trans (step_resume_ok hc (.report 0) [] _)
  exact ⟨log, fun v vs o r => (applies_cons (fun _ _ => runs_of_report hstep hm rfl) rfl).trans
    (applies_congr rfl)⟩

/-- **Lambdas take one step each** before the body is evaluated. -/
theorem applies_lambdas (hm : m.quiet = true) (hwaiting : ∀ q, (m.queue q).waiting = [])
    (hlimit : ∀ i, m.policy.forbids i = false) (body : Expr) {ps : List String} {vs : List Value}
    (hvs : vs.length = ps.length) (env : Env) :
    ∃ log, ∀ o r, m.Applies (.body (.lambdas ps body) env) vs o r ↔
      ({ m with steps := m.steps + ps.length, log } : Machine).Runs
        (.body body (env.bindAll ps vs)) o r := by
  induction ps generalizing m vs env with
  | nil =>
    obtain rfl : vs = [] := List.length_eq_zero_iff.mp hvs
    exact ⟨m.log, fun _ _ => applies_nil⟩
  | cons p ps ih =>
    obtain ⟨v, vs, rfl⟩ : ∃ v ws, vs = v :: ws := List.exists_cons_of_length_eq_add_one hvs
    obtain ⟨log, hlambda⟩ := applies_lambda hm hwaiting hlimit p (.lambdas ps body) env
    obtain ⟨log', hrest⟩ := ih (m := { m with steps := m.steps + 1, log }) hm hwaiting hlimit
      (Nat.succ.inj hvs) (Table.set env (.text p) v)
    refine ⟨log', fun o r => (hlambda v vs o r).trans ((hrest o r).trans ?_)⟩
    have hsteps : m.steps + 1 + ps.length = m.steps + (p :: ps).length := by
      rw [List.length_cons]
      omega
    simp only [hsteps]
    rfl

/-! ### A call that is alone -/

namespace RunsAlone

variable {e : Expr} {env : Env}

lemma twin (h : m.RunsAlone c) {m' : Machine} (hm' : m'.quiet = true)
    (hpolicy : m'.policy = m.policy) (hqueues : m'.queues = m.queues)
    (hallocated : m'.allocated = m.allocated) :
    Twin m.policy m.steps m'.steps { m with events := #[] } { m' with events := #[] } := by
  obtain ⟨hj, hp⟩ := jobs_of_quiet h.quiet
  obtain ⟨hj', hp'⟩ := jobs_of_quiet hm'
  refine ⟨⟨rfl, hj, hp, rfl, h.waiting⟩, ⟨hpolicy, hj', hp', rfl, fun q => ?_⟩, hqueues,
    hallocated, 0, rfl, rfl⟩
  have hq : (m'.queue q).waiting = (m.queue q).waiting := by simp only [queue, hqueues]
  exact hq.trans (h.waiting q)

/-- A call that is alone does the same on every machine with the same queues. -/
lemma exists_sameRest (h : m.RunsAlone (.body e env)) {m' : Machine} (hm' : m'.quiet = true)
    (hpolicy : m'.policy = m.policy) (hqueues : m'.queues = m.queues)
    (hallocated : m'.allocated = m.allocated)
    (hruns : m.Runs (.body e env) o r ∨ m'.Runs (.body e env) o r) :
    ∃ r r', m.Runs (.body e env) o r ∧ m'.Runs (.body e env) o r' ∧
      SameRest m.steps m'.steps r r' := by
  have htwin := h.twin hm' hpolicy hqueues hallocated
  have htogether := htwin.eval h.unlimited ⟨[], rfl, by simp⟩ e env
  obtain ⟨n, hn⟩ : ∃ n, (Machine.step^[n] (m.handed (.body e env))).quiet = true ∨
      (Machine.step^[n] (m'.handed (.body e env))).quiet = true := by
    rcases hruns with hruns | hruns
    · obtain ⟨n, hn, -⟩ := runs_iff.mp hruns
      exact ⟨n, .inl hn⟩
    · obtain ⟨n, hn, -⟩ := runs_iff.mp hruns
      exact ⟨n, .inr hn⟩
  obtain ⟨i, i', hrest⟩ := htogether.rests h.unlimited h.unforked hn
  have ho : o = (Machine.step^[i] (m.handed (.body e env))).outcome? 0 := by
    rcases hruns with hruns | hruns
    · obtain ⟨rfl, ho⟩ := (runs_of_quiet hrest.quiet.1).mp hruns
      exact ho
    · obtain ⟨rfl, ho⟩ := (runs_of_quiet hrest.quiet.2).mp hruns
      exact ho.trans hrest.outcome
  exact ⟨_, _, (runs_of_quiet hrest.quiet.1).mpr ⟨rfl, ho⟩,
    (runs_of_quiet hrest.quiet.2).mpr ⟨rfl, ho.trans hrest.outcome.symm⟩, hrest⟩

/-- **A call that is alone only depends on the queues.** -/
theorem gives_congr (h : m.RunsAlone (.body e env)) {m' : Machine} (hm' : m'.quiet = true)
    (hpolicy : m'.policy = m.policy) (hqueues : m'.queues = m.queues)
    (hallocated : m'.allocated = m.allocated) {q : Table QueueId (Queue Value Stack)} {a d : Nat} :
    m'.Gives (.body e env) [] o q a d ↔ m.Gives (.body e env) [] o q a d := by
  constructor
  · rintro ⟨r, hr, rfl, rfl, hd⟩
    obtain ⟨r₁, r₂, h₁, h₂, hrest⟩ :=
      h.exists_sameRest hm' hpolicy hqueues hallocated (.inr (applies_nil.mp hr))
    obtain rfl := h₂.unique (applies_nil.mp hr)
    obtain ⟨n, hn, hn'⟩ := hrest.steps
    exact ⟨r₁, .nil h₁, hrest.queues.symm, hrest.allocated.symm, by omega⟩
  · rintro ⟨r, hr, rfl, rfl, hd⟩
    obtain ⟨r₁, r₂, h₁, h₂, hrest⟩ :=
      h.exists_sameRest hm' hpolicy hqueues hallocated (.inl (applies_nil.mp hr))
    obtain rfl := h₁.unique (applies_nil.mp hr)
    obtain ⟨n, hn, hn'⟩ := hrest.steps
    exact ⟨r₂, .nil h₂, hrest.queues, hrest.allocated, by omega⟩

/-- Lambdas that are applied to arguments give what the body gives, with a step more for each. -/
lemma gives_lambdas {body : Expr} {ps : List String}
    (h : m.RunsAlone (.body body (env.bindAll ps vs))) (hvs : vs.length = ps.length)
    {q : Table QueueId (Queue Value Stack)} {a d : Nat} :
    m.Gives (.body (.lambdas ps body) env) vs o q a d ↔
      ∃ d', d = ps.length + d' ∧ m.Gives (.body body (env.bindAll ps vs)) [] o q a d' := by
  obtain ⟨log, hlambdas⟩ := applies_lambdas h.quiet h.waiting h.unlimited body hvs env
  have hrest := fun {o r} => @exists_sameRest m r o _ _ h
    { m with steps := m.steps + ps.length, log } h.quiet rfl rfl rfl
  constructor
  · rintro ⟨r, hr, rfl, rfl, hd⟩
    have hr := (hlambdas o r).mp hr
    obtain ⟨r₁, r₂, h₁, h₂, hsame⟩ := hrest (.inr hr)
    obtain rfl := h₂.unique hr
    obtain ⟨n, hn, hn'⟩ := hsame.steps
    simp only at hn'
    exact ⟨n, by omega, r₁, .nil h₁, hsame.queues.symm, hsame.allocated.symm, hn⟩
  · rintro ⟨d', rfl, r, hr, rfl, rfl, hd⟩
    obtain ⟨r₁, r₂, h₁, h₂, hsame⟩ := hrest (.inl (applies_nil.mp hr))
    obtain rfl := h₁.unique (applies_nil.mp hr)
    obtain ⟨n, hn, hn'⟩ := hsame.steps
    simp only at hn'
    exact ⟨r₂, (hlambdas o r₂).mpr h₂, hsame.queues, hsame.allocated, by omega⟩

end RunsAlone

lemma gives_value (hm : m.quiet = true) {q : Table QueueId (Queue Value Stack)} {a d : Nat} :
    m.Gives (.value v) [] o q a d ↔
      o = some (.ok v) ∧ q = m.queues ∧ a = m.allocated ∧ d = 0 := by
  simp only [Gives, applies_nil, runs_value hm]
  constructor
  · rintro ⟨r, ⟨rfl, ho⟩, rfl, rfl, hd⟩
    exact ⟨ho, rfl, rfl, by simpa [report] using hd⟩
  · rintro ⟨ho, rfl, rfl, rfl⟩
    exact ⟨_, ⟨rfl, ho⟩, rfl, rfl, rfl⟩

end Machine

/-- **Taking parameters one by one is what lambdas do.** A declaration that is resolved in an
environment and applied to an argument for each parameter, one after the other, gives what its body
gives in the environment with the arguments bound to the parameters in order: the same outcome, or
none if it is blocked, the same queues and the same number of steps. This is so on every machine
that is at rest. Lambdas inside each other give the same with a step more for each parameter, if
the body runs alone. With some of the arguments missing there is a function, and nothing has been
evaluated. Applied to the others, on whatever machine and however often, it gives what the
declaration gives with all the arguments there, and if the body runs alone this only depends on
the queues that are found. -/
theorem Global.taking_eq_lambdas (name : Atom) (body : Expr) (env : Env) {ps : List String}
    {vs : List Value} (hvs : vs.length = ps.length) :
    (∀ m : Machine, m.quiet = true → ∀ o q a d,
      m.Gives ((taking name ps body).call env) vs o q a d ↔
        m.Gives (.body body (env.bindAll ps vs)) [] o q a d) ∧
    (∀ m : Machine, m.RunsAlone (.body body (env.bindAll ps vs)) → ∀ o q a d,
      m.Gives (.body (.lambdas ps body) env) vs o q a d ↔
        ∃ d', d = ps.length + d' ∧ m.Gives (.body body (env.bindAll ps vs)) [] o q a d') ∧
    ∀ us ws, vs = us ++ ws → ws ≠ [] → ∃ fn : Value, fn.kind = .closure ∧
      (∀ m : Machine, m.quiet = true → ∀ o q a d,
        m.Gives ((taking name ps body).call env) us o q a d ↔
          o = some (.ok fn) ∧ q = m.queues ∧ a = m.allocated ∧ d = 0) ∧
      (∀ m : Machine, m.quiet = true → ∀ o q a d,
        m.Gives (.value fn) ws o q a d ↔ m.Gives ((taking name ps body).call env) vs o q a d) ∧
      ∀ m : Machine, m.RunsAlone (.body body (env.bindAll ps vs)) → ∀ o q a d,
        m.Gives (.value fn) ws o q a d ↔
          ({ policy := m.policy, queues := m.queues, allocated := m.allocated } : Machine).Gives
            (.value fn) ws o q a d := by
  have hbody : ∀ m : Machine, m.quiet = true → ∀ o q a d,
      m.Gives ((taking name ps body).call env) vs o q a d ↔
        m.Gives (.body body (env.bindAll ps vs)) [] o q a d := by
    intro m hm o q a d
    have htaking : m.Gives ((taking name ps body).call env) (vs ++ []) o q a d ↔ _ :=
      Machine.gives_taking hm name body hvs.le env
    rwa [List.append_nil, hvs, List.drop_length, List.take_length] at htaking
  refine ⟨hbody, fun m hm o q a d => hm.gives_lambdas hvs, ?_⟩
  rintro us ws rfl hws
  have hlt : us.length < ps.length := by
    have := List.length_pos_iff.mpr hws
    rw [List.length_append] at hvs
    omega
  obtain ⟨p, rest, hdrop⟩ : ∃ p rest, ps.drop us.length = p :: rest :=
    List.exists_cons_of_ne_nil (by simpa using hlt)
  -- the function that takes the other arguments
  have hfn : ∀ m : Machine, m.quiet = true → ∀ vs o q a d,
      m.Gives ((taking name ps body).call env) (us ++ vs) o q a d ↔
        m.Gives (.value (.function (some (.text p)) (rest.map fun p => some (.text p)) body
          (env.bindAll (ps.take us.length) us))) vs o q a d := by
    intro m hm vs o q a d
    rw [Machine.gives_taking hm name body hlt.le env, hdrop]
    rfl
  refine ⟨_, rfl, fun m hm o q a d => ?_, fun m hm o q a d => (hfn m hm ws o q a d).symm,
    fun m hm o q a d => ?_⟩
  · rw [← Machine.gives_value hm, ← hfn m hm, List.append_nil]
  · have hfresh : ({ policy := m.policy, queues := m.queues, allocated := m.allocated } :
        Machine).quiet = true := rfl
    rw [← hfn m hm.quiet, ← hfn _ hfresh, hbody m hm.quiet, hbody _ hfresh]
    exact (hm.gives_congr hfresh rfl rfl rfl).symm

def Expr.difference : Expr := .arith .minus (.var (.text "x")) (.var (.text "y"))

/-- A function of two parameters, applied to both and to one after the other. -/
theorem Global.taking_eq_lambdas_difference :
    ({} : Machine).Gives ((taking (.text "minus") ["x", "y"] .difference).call [])
      [.int 5, .int 3] (some (.ok (.int 2))) [] 0 3 ∧
    ({} : Machine).Gives (.body (.lambdas ["x", "y"] .difference) []) [.int 5, .int 3]
      (some (.ok (.int 2))) [] 0 5 ∧
    ∃ fn : Value, fn.kind = .closure ∧
      ({} : Machine).Gives ((taking (.text "minus") ["x", "y"] .difference).call []) [.int 5]
        (some (.ok fn)) [] 0 0 ∧
      ({ steps := 99 } : Machine).Gives (.value fn) [.int 3] (some (.ok (.int 2))) [] 0 3 := by
  obtain ⟨hbody, hlambdas, hprefix⟩ :=
    @taking_eq_lambdas (.text "minus") .difference [] ["x", "y"] [.int 5, .int 3] rfl
  have hzero : ({} : Machine).Gives (.body .difference
      (Env.bindAll [] ["x", "y"] [.int 5, .int 3])) [] (some (.ok (.int 2))) [] 0 3 :=
    ⟨_, .nil ⟨20, rfl, rfl⟩, rfl, rfl, rfl⟩
  have hlater : ({ steps := 99 } : Machine).Gives (.body .difference
      (Env.bindAll [] ["x", "y"] [.int 5, .int 3])) [] (some (.ok (.int 2))) [] 0 3 :=
    ⟨_, .nil ⟨20, rfl, rfl⟩, rfl, rfl, rfl⟩
  have halone : ({} : Machine).RunsAlone (.body .difference
      (Env.bindAll [] ["x", "y"] [.int 5, .int 3])) := by
    refine ⟨rfl, fun _ => rfl, fun _ => rfl, fun i => ?_⟩
    -- the run is over after twelve steps
    by_cases hi : i ≤ 12
    · interval_cases i <;> rfl
    · obtain ⟨j, rfl⟩ := Nat.exists_eq_add_of_lt (Nat.lt_of_not_le hi)
      rw [Nat.add_assoc, Nat.add_comm 12, Function.iterate_add_apply,
        Machine.iterate_of_quiet (by rfl)]
      rfl
  obtain ⟨fn, hkind, hempty, hrest, -⟩ := hprefix [.int 5] [.int 3] rfl (by simp)
  refine ⟨(hbody _ rfl _ _ _ _).mpr hzero, (hlambdas _ halone _ _ _ _).mpr ⟨3, rfl, hzero⟩, fn,
    hkind, (hempty _ rfl _ _ _ _).mpr ⟨rfl, rfl, rfl, rfl⟩, ?_⟩
  exact (hrest _ rfl _ _ _ _).mpr ((hbody _ rfl _ _ _ _).mpr hlater)

end Parley
