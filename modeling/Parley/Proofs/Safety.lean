import Parley.Proofs.Preservation
import Parley.Proofs.Proper

/-!
What can go wrong in a valid program: it may end in one of six faults of the calculus, it may
have no main declaration, and that is all. No process ever meets a literal without a value, an
unknown expression or a missing member, however the program is run and whatever is done with
the functions that it gives out.
-/

namespace Parley

/-! ### Faults -/

def Code.ofEvaluation : List Code :=
  [.unboundVariable, .typeMismatch, .noMatchingCase, .divisionByZero, .negativeRecursionIndex,
    .stepLimitExceeded]

def Fault.IsOneOf (f : Fault) (cs : List Code) : Prop :=
  ∃ c ∈ cs, f.category = .coded (.text c.name)

lemma Fault.worded_eq_self {f : Fault} (h : f.wordable = true) : f.worded = f := if_pos h

/-- What comes about in a valid program is a fault of the calculus. -/
lemma Fault.Arises.isOneOf {also : Expr → Prop} {f : Fault} (h : f.Arises (.proper also)) :
    f.IsOneOf Code.ofEvaluation := by
  -- the faults without a code do not arise where every node is as validation leaves it
  cases h with
  | given h => exact h.elim
  | unbound h =>
    obtain ⟨⟨s, rfl⟩, -⟩ := h
    rw [worded_eq_self rfl]
    exact ⟨.unboundVariable, by decide, rfl⟩
  | literal h he =>
    obtain ⟨⟨-, i, hi⟩, -⟩ | ⟨⟨-, i, hi⟩, -⟩ := h
    all_goals rw [he] at hi; cases hi
  | @mismatch n v h k s =>
    have hw : (Fault.typeMismatch k.name v s).wordable = true := by
      simp [wordable, h.showable]
    rw [Value.mismatch, worded_eq_self hw]
    exact ⟨.typeMismatch, by decide, rfl⟩
  | @noCase scrutinee bs name h hn =>
    obtain ⟨⟨s, rfl⟩, -⟩ := hn
    have hw : (Fault.noMatchingCase (.text s) (bs.map (·.1))).wordable = true := by
      simp only [wordable, Atom.showable_text, Bool.true_and, List.all_map, List.all_eq_true]
      intro b hb
      obtain ⟨t, ht⟩ := h.1.2 b hb
      simp [ht]
    rw [worded_eq_self hw]
    exact ⟨.noMatchingCase, by decide, rfl⟩
  | noSearch h => cases h.1.1
  | division => exact ⟨.divisionByZero, by decide, rfl⟩
  | index i => exact ⟨.negativeRecursionIndex, by decide, rfl⟩
  | limit a => exact ⟨.stepLimitExceeded, by decide, rfl⟩
  | unknown h => exact h.1.elim
  | missing h => exact h.1.elim
  | noParams h hm =>
    obtain ⟨ps, hps, -⟩ := h.1.params
    rw [hm] at hps
    cases hps
  | noParam h => cases h
  | noCaption h he =>
    obtain ⟨s, hs⟩ := h.1.caption
    rw [he] at hs
    cases hs
  | noText h hv => rw [h.showable] at hv; cases hv

/-! ### Running a program and using what it gives out -/

/-- The values that can be made of some given ones: plain values, pairs and parts of pairs. -/
inductive Value.MadeOf (vs : List Value) : Value → Prop
  | given {v : Value} (h : v ∈ vs) : MadeOf vs v
  | unit : MadeOf vs .unit
  | int (i : Int) : MadeOf vs (.int i)
  | label (s : String) : MadeOf vs (.label (.text s))
  | pair {a b : Value} (ha : MadeOf vs a) (hb : MadeOf vs b) : MadeOf vs (.pair a b)
  | first {a b : Value} (h : MadeOf vs (.pair a b)) : MadeOf vs a
  | second {a b : Value} (h : MadeOf vs (.pair a b)) : MadeOf vs b

/-- A value is the result of a process, or it is left in a queue. -/
def Machine.Yields (m : Machine) (v : Value) : Prop :=
  (∃ e ∈ m.events, e.outcome = .ok v) ∨ ∃ q, v ∈ (m.queue q).buffer

/-- The machines that a program comes through under a policy, with the values that have been
taken from them: while it runs, and while functions that were taken are applied. -/
inductive Program.Reaches (policy : Policy) (p : Program) : Machine → List Value → Prop
  | start : Reaches policy p (({ policy } : Machine).startProgram p [.report 0]) []
  | step {m : Machine} {vs : List Value} (h : Reaches policy p m vs) : Reaches policy p m.step vs
  | take {m : Machine} {vs : List Value} {v : Value} (h : Reaches policy p m vs)
      (hv : m.Yields v) : Reaches policy p m (v :: vs)
  | apply {m m' : Machine} {vs : List Value} {fn arg : Value} {c : Call}
      (h : Reaches policy p m vs) (hfn : fn.MadeOf vs) (harg : arg.MadeOf vs)
      (hc : m.apply fn arg = some (c, m')) (tag : Nat) :
      Reaches policy p (m'.launch c (tag + 1)) vs

/-- Every fault in a machine is as it should be: those of tasks, remembered or noted, are
inner ones, and those in flight or reported are outer ones. -/
structure Machine.Faults (m : Machine) (outer inner : Fault → Prop) : Prop where
  flying : ∀ j ∈ m.jobs, ∀ f, j.outcome = .error f → outer f
  reported : ∀ e ∈ m.events, ∀ f, e.outcome = .error f → outer f
  remembered : ∀ t ∈ m.tasks.failures, inner t.2
  noted : ∀ task f, Note.failed task f ∈ m.log → inner f

/-! ### Programs with a main declaration -/

namespace Machine

variable {D : Discipline} {m m' : Machine}

lemma Obeys.yields {v : Value} (h : m.Obeys D) (hv : m.Yields v) : v.Obeys D m.allocated := by
  rcases hv with ⟨e, he, hv⟩ | ⟨q, hv⟩
  · have ho := h.events e he
    rw [hv] at ho
    exact ho
  · exact h.buffer q v hv

lemma apply_eq_fault {fn arg : Value} {f : Fault} (h : m.apply fn arg = some (.fault f, m')) :
    m' = m := by
  cases fn with
  | function param more body env => cases param <;> cases more <;> cases h <;> rfl
  | sender on =>
    simp only [apply] at h
    split at h <;> cases h
    rfl
  | _ => cases h

/-- Applying a function from outside keeps a machine to a discipline. -/
lemma Obeys.launch (hD : D.Lawful) (h : m.Obeys D) {fn arg : Value} {c : Call}
    (hfn : fn.Obeys D m.allocated) (harg : arg.Obeys D m.allocated)
    (hc : m.apply fn arg = some (c, m')) (tag : Nat) : (m'.launch c tag).Obeys D := by
  have hk : ∀ n, Stack.Obeys D n [.report tag] := fun n f hf => by
    rw [List.mem_singleton.mp hf]; exact .inr trivial
  obtain ⟨hcall, hacts⟩ := apply_acts (k := [.report tag]) hfn harg hc
  cases c with
  | value v => exact (hacts (.hand (o := .ok v) hcall)).obeys hD h (hk _)
  | body e env => exact (hacts (.eval [] hcall.1 hcall.2 (by simp))).obeys hD h (hk _)
  | fault f =>
    rw [apply_eq_fault hc]
    exact h.report tag (o := .error f) hcall

/-- In a machine that obeys the discipline of valid programs all faults are of the calculus. -/
lemma Obeys.faults {also : Expr → Prop} (h : m.Obeys (.proper also)) :
    m.Faults (·.IsOneOf Code.ofEvaluation) (·.IsOneOf Code.ofEvaluation) where
  flying j hj f hf := by
    have ho := (h.jobs j hj).1
    rw [hf] at ho
    exact Fault.Arises.isOneOf ho
  reported e he f hf := by
    have ho := h.events e he
    rw [hf] at ho
    exact Fault.Arises.isOneOf ho
  remembered t ht := (h.failures t ht).isOneOf
  noted task f hf := Fault.Arises.isOneOf (h.log _ hf)

end Machine

/-- What is made of values that obey a discipline obeys it too. -/
lemma Value.MadeOf.obeys {D : Discipline} {n : Nat} {vs : List Value} {v : Value}
    (h : v.MadeOf vs) (hlabel : ∀ s, D.node (.label (.text s)))
    (hvs : ∀ v ∈ vs, v.Obeys D n) : v.Obeys D n := by
  induction h with
  | given h => exact hvs _ h
  | unit => exact .unit
  | int i => exact .int i
  | label s => exact .label (hlabel s)
  | pair _ _ iha ihb => exact .pair iha ihb
  | first _ ih => cases ih; assumption
  | second _ ih => cases ih; assumption

lemma Program.Reaches.obeys {policy : Policy} {p : Program} {g : Global}
    (hp : ∀ g, .global g ∈ p.declarations → g.Proper) (hg : p.main? = some g) {m : Machine}
    {vs : List Value} (h : p.Reaches policy m vs) :
    m.Obeys (.proper fun _ => True) ∧
      ∀ n, ∀ v ∈ vs, v.Obeys (.proper fun _ => True) n := by
  have hD : (Discipline.proper fun _ => True).Lawful := Discipline.lawful_proper fun _ _ => trivial
  have hlabel (s : String) : (Discipline.proper fun _ => True).node (.label (.text s)) :=
    ⟨⟨s, rfl⟩, trivial⟩
  induction h with
  | start =>
    have hglobals := Program.globals_obeys (D := .proper fun _ => True) (n := 0) fun g hm =>
      ⟨hp g hm, Expr.Every.of_forall (fun _ => trivial) _⟩
    refine ⟨(Machine.Obeys.fresh _ policy).startProgram hD (fun f hf => ?_) hglobals hg, by simp⟩
    rw [List.mem_singleton.mp hf]
    exact .inr trivial
  | step _ ih => exact ⟨ih.1.step hD, ih.2⟩
  | take _ hv ih =>
    refine ⟨ih.1, fun n w hw => ?_⟩
    rcases List.mem_cons.mp hw with rfl | hw
    · exact (ih.1.yields hv).anyTime n
    · exact ih.2 n w hw
  | @apply m m' vs fn arg c _ hfn harg hc tag ih =>
    exact ⟨ih.1.launch hD (hfn.obeys hlabel (ih.2 _)) (harg.obeys hlabel (ih.2 _)) hc (tag + 1),
      ih.2⟩

/-! ### Programs without one -/

/-- Without a main declaration there is one fault to report, and nothing to be taken. -/
lemma Program.Reaches.noMain {policy : Policy} {p : Program} (hp : p.main? = none) {m : Machine}
    {vs : List Value} (h : p.Reaches policy m vs) :
    vs = [] ∧ (m = ({ policy } : Machine).resume [.report 0] (.error .noMainDeclaration) ∨
      m = ({ policy } : Machine).report 0 (.error .noMainDeclaration)) := by
  induction h with
  | start => exact ⟨rfl, .inl (by simp [Machine.startProgram, hp])⟩
  | step _ ih => exact ⟨ih.1, .inr (by rcases ih.2 with rfl | rfl <;> rfl)⟩
  | take _ hv ih =>
    rcases hv with ⟨e, he, hv⟩ | ⟨q, hv⟩
    · rcases ih.2 with rfl | rfl
      · simp [Machine.resume] at he
      · simp only [Machine.report, List.push_toArray, List.nil_append, List.mem_toArray,
          List.mem_singleton] at he
        subst he
        cases hv
    · rcases ih.2 with rfl | rfl <;> cases hv
  | @apply m m' vs fn arg c _ hfn _ hc tag ih =>
    -- what is made of nothing holds no function and no channel
    obtain ⟨rfl, -⟩ := ih
    let D : Discipline := ⟨fun _ => True, fun _ => False, fun _ _ => False, fun _ _ => False,
      fun _ => False⟩
    have hv : fn.Obeys D 0 := hfn.obeys (fun _ => trivial) (by simp)
    cases hv with
    | function params => exact (params _ (List.mem_cons_self ..)).elim
    | sender h => exact h.elim
    | _ => cases hc

/-! ### All together -/

/-- What a machine comes to when it is run is among the machines a program comes through. -/
lemma Program.Reaches.drain {policy : Policy} {p : Program} {m r : Machine} {vs : List Value}
    {fuel : Nat} (h : p.Reaches policy m vs) (hr : m.drain fuel = some r) :
    p.Reaches policy r vs := by
  unfold Machine.drain at hr
  induction fuel generalizing m with
  | zero => cases hr
  | succ fuel ih =>
    rw [Machine.runUntil] at hr
    split at hr
    · cases hr; exact h
    · exact ih h.step hr

lemma Machine.Faults.mono {m : Machine} {outer outer' inner : Fault → Prop}
    (h : m.Faults outer inner) (ho : ∀ f, outer f → outer' f) : m.Faults outer' inner :=
  { h with
    flying := fun j hj f hf => ho f (h.flying j hj f hf)
    reported := fun e he f hf => ho f (h.reported e he f hf) }

/-- The faults in the machines that a program of proper globals comes through. -/
lemma Program.Reaches.faults {policy : Policy} {p : Program}
    (hp : ∀ g, .global g ∈ p.declarations → g.Proper) {m : Machine} {vs : List Value}
    (h : p.Reaches policy m vs) :
    m.Faults (·.IsOneOf (.noMainDeclaration :: Code.ofEvaluation))
      (·.IsOneOf Code.ofEvaluation) := by
  cases hmain : p.main? with
  | some g =>
    refine (h.obeys hp hmain).1.faults.mono fun f hf => ?_
    obtain ⟨c, hc, hf⟩ := hf
    exact ⟨c, List.mem_cons_of_mem _ hc, hf⟩
  | none =>
    have hone : Fault.noMainDeclaration.IsOneOf (.noMainDeclaration :: Code.ofEvaluation) :=
      ⟨.noMainDeclaration, List.mem_cons_self .., rfl⟩
    rcases (h.noMain hmain).2 with rfl | rfl
    · constructor <;> simp [Machine.resume, hone]
    · constructor <;> simp [Machine.report, hone]

/-- **Validation leaves only faults of the calculus.** Whatever the policy, and whatever
functions of a run are applied to whatever values of it, every fault in flight or reported is
under a code of evaluation or the one for a missing main declaration, and every fault of a
forked process under a code of evaluation. In particular a run ends so, unless it is
suspended. -/
theorem validate_leaves_coded_faults {doc : Option Json} {v : Valid}
    (hv : validate doc = .ok v) (policy : Policy) :
    (∀ m vs, v.program.Reaches policy m vs →
      m.Faults (·.IsOneOf (.noMainDeclaration :: Code.ofEvaluation))
        (·.IsOneOf Code.ofEvaluation)) ∧
    ∀ fuel r, v.program.run fuel policy = some r → v.program.Reaches policy r.machine [] ∧
      ∀ f, r.outcome = .error f →
        f.IsOneOf (.noMainDeclaration :: Code.ofEvaluation) ∨
          f = .deadlock ∧ r.machine.outcome? 0 = none := by
  have hfaults : ∀ m vs, v.program.Reaches policy m vs → _ :=
    fun m vs h => h.faults fun g hg => validate_proper hv hg
  refine ⟨hfaults, fun fuel r hr => ?_⟩
  obtain ⟨m, hm, rfl⟩ := Option.map_eq_some_iff.mp hr
  have hreach := Program.Reaches.start.drain hm
  refine ⟨hreach, fun f hf => ?_⟩
  cases ho : m.outcome? 0 with
  | none =>
    simp only [ho, Guard.conclude_none] at hf
    cases hf
    exact .inr ⟨rfl, rfl⟩
  | some o =>
    simp only [ho, Guard.conclude_some] at hf
    subst hf
    obtain ⟨e, he, hout⟩ := Option.map_eq_some_iff.mp ho
    exact .inl ((hfaults m [] hreach).reported e (Array.mem_of_find?_eq_some he) f hout)

/-- A document whose main process forks a division by zero and yields a function that adds
one. -/
def Json.forkedDivision : Json :=
  let literal (i : Int) : Json :=
    .object [("kind", .string "int"), ("value", .number (.integer i))]
  let division := Json.object [("kind", .string "div"), ("left", literal 1), ("right", literal 0)]
  let sum := Json.object [("kind", .string "plus"),
    ("left", .object [("kind", .string "var"), ("name", .string "x")]), ("right", literal 1)]
  .object [("declarations", .array [.object [("kind", .string "fun"), ("name", .string "main"),
    ("params", .array []), ("body", .object [("kind", .string "let"), ("name", .string "done"),
      ("value", .object [("kind", .string "fork"), ("expr", division)]),
      ("body", .object [("kind", .string "lambda"), ("param", .string "x"), ("body", sum)])])]])]

/-- The faults of its run, and of applying its result to a label. -/
theorem validate_leaves_coded_faults_of_forkedDivision :
    ∃ v, validate (some .forkedDivision) = .ok v ∧ ∃ r, v.program.run 40 {} = some r ∧
      r.machine.tasks.failures = [(.text "fork-0", .divisionByZero)] ∧
      ∃ fn c m, r.outcome = .ok fn ∧ r.machine.apply fn (.label (.text "a")) = some (c, m) ∧
        (m.launch c 1).Faults (·.IsOneOf (.noMainDeclaration :: Code.ofEvaluation))
          (·.IsOneOf Code.ofEvaluation) := by
  refine ⟨_, rfl, _, rfl, rfl, _, _, _, rfl, rfl, ?_⟩
  obtain ⟨hfaults, hrun⟩ := @validate_leaves_coded_faults (some .forkedDivision) _ rfl {}
  have hreach := (hrun 40 _ rfl).1.take (.inl ⟨_, Array.mem_push_self, rfl⟩)
  exact hfaults _ _ (hreach.apply (.given (List.mem_singleton_self _)) (.label "a") rfl 0)

end Parley
