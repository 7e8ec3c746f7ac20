import Parley.Proofs.Table
import Parley.Run

/-!
Disciplines: what the parts of a program keep to, carried over to everything that a run makes
out of them.

A discipline speaks of expressions node by node, of the globals that a name may stand for, and
of the ends of channels once so many queues are allocated. Values, environments, frames and
notes obey it if all that is in them does. A global is not a value: it occurs only as what a
name is bound to.
-/

namespace Parley

/-! ### Expressions -/

def Expr.parts : Expr → List Expr
  | .unit | .var _ | .label _ | .int _ | .nat _ | .channel | .unknown _ _ | .missing _ => []
  | .negate a | .succ a | .fst a | .snd a | .lambda _ a | .fork a | .send a | .recv a => [a]
  | .arith _ a b | .letIn _ a b | .letPair _ _ a b | .pair _ a b | .app a b => [a, b]
  | .caseOf a bs _ => a :: bs.map (·.2)
  | .natRec a b _ _ c => [a, b, c]

lemma Expr.sizeOf_lt_of_mem_parts {e a : Expr} (h : a ∈ e.parts) : sizeOf a < sizeOf e := by
  cases e with
  | caseOf scrutinee bs rest =>
    simp only [parts, List.mem_cons, List.mem_map] at h
    rcases h with rfl | ⟨b, hb, rfl⟩
    · simp +arith
    · have hlt := List.sizeOf_lt_of_mem hb
      obtain ⟨name, body⟩ := b
      simp only [Prod.mk.sizeOf_spec, caseOf.sizeOf_spec] at hlt ⊢
      omega
  | natRec index zero counter acc step =>
    simp only [parts, List.mem_cons, List.not_mem_nil, or_false] at h
    rcases h with rfl | rfl | rfl <;> simp +arith
  | arith | letIn | letPair | pair | app =>
    simp only [parts, List.mem_cons, List.not_mem_nil, or_false] at h
    rcases h with rfl | rfl <;> simp +arith
  | _ => simp only [parts, List.not_mem_nil, List.mem_singleton] at h <;> subst h <;> simp +arith

theorem Expr.induction_on_parts {P : Expr → Prop} (h : ∀ e : Expr, (∀ a ∈ e.parts, P a) → P e)
    (e : Expr) : P e :=
  h e fun a ha => have := sizeOf_lt_of_mem_parts ha; induction_on_parts h a
termination_by sizeOf e

inductive Expr.Every (P : Expr → Prop) : Expr → Prop
  | mk {e : Expr} (here : P e) (parts : ∀ a ∈ e.parts, Every P a) : Every P e

/-- Checks a property of an expression and of what is inside it, so many levels deep. -/
def Expr.checks (P : Expr → Prop) [DecidablePred P] : Nat → Expr → Bool
  | 0, _ => false
  | n + 1, e => decide (P e) && e.parts.all (checks P n)

namespace Expr.Every

variable {P : Expr → Prop} {e a : Expr}

lemma here (h : e.Every P) : P e := by cases h; assumption

lemma part (h : e.Every P) (ha : a ∈ e.parts) : a.Every P := by
  cases h with
  | mk _ parts => exact parts a ha

lemma and {Q : Expr → Prop} (hP : e.Every P) (hQ : e.Every Q) : e.Every fun a => P a ∧ Q a := by
  induction hP with
  | mk here _ ih => exact ⟨⟨here, hQ.here⟩, fun a ha => ih a ha (hQ.part ha)⟩

lemma imp {Q : Expr → Prop} (h : e.Every P) (hPQ : ∀ a, P a → Q a) : e.Every Q := by
  induction h with
  | mk here _ ih => exact ⟨hPQ _ here, ih⟩

/-- What holds of all expressions holds of all that is inside one. -/
lemma of_forall (h : ∀ e, P e) (e : Expr) : e.Every P :=
  ⟨h e, fun a ha => have := sizeOf_lt_of_mem_parts ha; of_forall h a⟩
termination_by sizeOf e

lemma of_checks [DecidablePred P] {n : Nat} (h : e.checks P n = true) : e.Every P := by
  induction n generalizing e with
  | zero => cases h
  | succ n ih =>
    simp only [checks, Bool.and_eq_true, decide_eq_true_eq, List.all_eq_true] at h
    exact ⟨h.1, fun a ha => ih (h.2 a ha)⟩

end Expr.Every

/-! ### Disciplines -/

/-- What the parts of a program keep to. -/
structure Discipline where
  /-- What every node of an expression must be like. -/
  node : Expr → Prop
  /-- What a parameter must be like. -/
  param : Param → Prop
  /-- The globals that a name may be bound to. -/
  global : Atom → Global → Prop
  /-- The ends of channels once so many queues are allocated. -/
  ends : Nat → Endpoint → Prop
  /-- The faults that come in from outside. -/
  fault : Fault → Prop

/-- A discipline that evaluation cannot leave by itself. -/
structure Discipline.Lawful (D : Discipline) : Prop where
  /-- The literals that negation and successor bring in. -/
  small : ∀ i, i = 0 ∨ i = 1 → D.node (.int (.number (.integer i)))
  named : ∀ a, D.param (some a)
  body : ∀ {name g}, D.global name g → g.body.Every D.node
  params : ∀ {name g ps}, D.global name g → g.params = .ok ps → ∀ p ∈ ps, D.param p
  /-- A new channel takes the next two queues. -/
  fresh : ∀ n, D.ends (n + 2) ⟨.allocated n, .allocated (n + 1)⟩ ∧
    D.ends (n + 2) ⟨.allocated (n + 1), .allocated n⟩
  grow : ∀ {n e}, D.ends n e → D.ends (n + 2) e

variable {D : Discipline} {n : Nat}

/-! ### Values and environments -/

/-- A value is made of what obeys a discipline, once `n` queues are allocated. -/
inductive Value.Obeys (D : Discipline) (n : Nat) : Value → Prop
  | unit : Obeys D n .unit
  | label {name : Atom} (h : D.node (.label name)) : Obeys D n (.label name)
  | int (i : Int) : Obeys D n (.int i)
  | pair {a b : Value} (first : Obeys D n a) (second : Obeys D n b) : Obeys D n (.pair a b)
  | function {param : Param} {more : List Param} {body : Expr} {env : List (Atom × Value)}
      (params : ∀ p ∈ param :: more, D.param p) (code : body.Every D.node)
      (values : ∀ b ∈ env, (∀ g, b.2 ≠ .global g) → Obeys D n b.2)
      (globals : ∀ b ∈ env, ∀ g, b.2 = .global g → D.global b.1 g) :
      Obeys D n (.function param more body env)
  | sender {on : Endpoint} (h : D.ends n on) : Obeys D n (.sender on)
  | channel {e : Endpoint} (h : D.ends n e) : Obeys D n (.channel e)

/-- Every name is bound to a value or to a global that it may be bound to. -/
structure Env.Obeys (D : Discipline) (n : Nat) (env : Env) : Prop where
  values : ∀ b ∈ env, (∀ g, b.2 ≠ .global g) → b.2.Obeys D n
  globals : ∀ b ∈ env, ∀ g, b.2 = .global g → D.global b.1 g

lemma Value.Obeys.ne_global {v : Value} (h : v.Obeys D n) (g : Global) : v ≠ .global g := by
  rintro rfl; cases h

lemma Value.Obeys.grow (hD : D.Lawful) {v : Value} (h : v.Obeys D n) : v.Obeys D (n + 2) := by
  induction h with
  | unit => exact .unit
  | label h => exact .label h
  | int i => exact .int i
  | pair _ _ iha ihb => exact .pair iha ihb
  | function params code _ globals ih => exact .function params code ih globals
  | sender h => exact .sender (hD.grow h)
  | channel h => exact .channel (hD.grow h)

namespace Env.Obeys

variable {env : Env}

lemma grow (hD : D.Lawful) (h : Env.Obeys D n env) : Env.Obeys D (n + 2) env :=
  ⟨fun b hb hg => (h.values b hb hg).grow hD, h.globals⟩

lemma set (h : Env.Obeys D n env) (name : Atom) {v : Value} (hv : v.Obeys D n) :
    Env.Obeys D n (Table.set env name v) := by
  refine ⟨fun b hb hg => ?_, fun b hb g hg => ?_⟩
  · rcases Table.mem_set hb with hb | rfl
    · exact h.values b hb hg
    · exact hv
  · rcases Table.mem_set hb with hb | rfl
    · exact h.globals b hb g hg
    · exact absurd hg (hv.ne_global g)

lemma find {name : Atom} {v : Value} (h : Env.Obeys D n env)
    (hv : Table.find? env name = some v) :
    v.Obeys D n ∨ ∃ g, v = .global g ∧ D.global name g := by
  have hm := Table.mem_of_find? hv
  by_cases hg : ∃ g, v = .global g
  · obtain ⟨g, rfl⟩ := hg
    exact .inr ⟨g, rfl, h.globals _ hm g rfl⟩
  · exact .inl (h.values _ hm fun g hv => hg ⟨g, hv⟩)

lemma function (h : Env.Obeys D n env) {param : Param} {more : List Param} {body : Expr}
    (hp : ∀ p ∈ param :: more, D.param p) (hb : body.Every D.node) :
    (Value.function param more body env).Obeys D n :=
  .function hp hb h.values h.globals

end Env.Obeys

/-! ### Faults and outcomes -/

/-- The ways in which faults come about when everything that is evaluated obeys a
discipline. -/
inductive Fault.Arises (D : Discipline) : Fault → Prop
  | given {f : Fault} (h : D.fault f) : Arises D f
  | unbound {name : Atom} (h : D.node (.var name)) : Arises D (Fault.unboundVariable name).worded
  | literal {l : Literal} {e : Literal.Error} (h : D.node (.int l) ∨ D.node (.nat l))
      (he : l.toInt = .error e) : Arises D (.literal e)
  | mismatch {n : Nat} {v : Value} (h : v.Obeys D n) (k : Kind) (s : String) :
      Arises D (v.mismatch k s)
  | noCase {scrutinee : Expr} {bs : List (Atom × Expr)} {name : Atom}
      (h : D.node (.caseOf scrutinee bs none)) (hn : D.node (.label name)) :
      Arises D (Fault.noMatchingCase name (bs.map (·.1))).worded
  | noSearch {scrutinee : Expr} {bs : List (Atom × Expr)} {m : Misuse}
      (h : D.node (.caseOf scrutinee bs (some m))) : Arises D (.misuse m)
  | division : Arises D .divisionByZero
  | index (i : Int) : Arises D (.negativeRecursionIndex i)
  | limit (a : Atom) : Arises D (.stepLimitExceeded a)
  | unknown {kind shown : Atom} (h : D.node (.unknown kind shown)) :
      Arises D (Fault.unexpected shown).worded
  | missing {g : Gap} (h : D.node (.missing g)) : Arises D (.misuse (.noMember g "kind"))
  | noParams {name : Atom} {g : Global} {m : Misuse} (h : D.global name g)
      (hm : g.params = .error m) : Arises D (.misuse m)
  | noParam (h : D.param none) : Arises D (.misuse (.noMember .null "name"))
  /-- An expression without a caption cannot be traced. -/
  | noCaption {e : Expr} (h : D.node e) (he : e.caption? = none) : Arises D (.misuse .noText)
  /-- A value without a text cannot be traced. -/
  | noText {n : Nat} {v : Value} (h : v.Obeys D n) (hv : v.showable = false) :
      Arises D (.misuse .noText)

def Outcome.Obeys (D : Discipline) (n : Nat) : Outcome → Prop
  | .ok v => v.Obeys D n
  | .error f => f.Arises D

lemma Outcome.Obeys.grow (hD : D.Lawful) {o : Outcome} (h : Outcome.Obeys D n o) :
    Outcome.Obeys D (n + 2) o := by
  cases o with
  | ok v => exact Value.Obeys.grow hD h
  | error f => exact h

/-! ### Frames and notes -/

def Frame.Obeys (D : Discipline) (n : Nat) : Frame → Prop
  | .pass | .leave _ | .rightOperand _ _ | .takeFirst | .takeSecond | .makeSender | .receive =>
    True
  | .eval e env | .leftOperand _ e env | .letBody _ e env | .letPairBody _ _ e env
  | .pairSecond _ e env | .callee e env => e.Every D.node ∧ Env.Obeys D n env
  | .pairUp v | .call v => v.Obeys D n
  | .branch bs rest env =>
    (∃ scrutinee, D.node (.caseOf scrutinee bs rest)) ∧ (∀ b ∈ bs, b.2.Every D.node) ∧
      Env.Obeys D n env
  | .received on => D.ends n on
  | .recursionIndex r | .recursionRound r _ _ =>
    r.zero.Every D.node ∧ r.step.Every D.node ∧ Env.Obeys D n r.env
  | .steps _ _ | .take _ | .strand | .settle _ _ | .report _ => False

@[simp] lemma Frame.obeys_pass : Frame.pass.Obeys D n := trivial

@[simp] lemma Frame.obeys_leave (caption : String) : (Frame.leave caption).Obeys D n := trivial

def Frame.IsBottom : Frame → Prop
  | .settle _ _ | .report _ => True
  | _ => False

/-- Every frame of a stack obeys a discipline, bottoms apart. -/
def Stack.Obeys (D : Discipline) (n : Nat) (k : Stack) : Prop :=
  ∀ f ∈ k, f.Obeys D n ∨ f.IsBottom

def Note.Obeys (D : Discipline) (n : Nat) : Note → Prop
  | .enter _ => True
  | .leave _ v | .finished _ v => v.Obeys D n
  | .sent v on | .received v on => v.Obeys D n ∧ D.ends n on
  | .failed _ f => f.Arises D

lemma Frame.Obeys.grow (hD : D.Lawful) {f : Frame} (h : f.Obeys D n) : f.Obeys D (n + 2) := by
  cases f with
  | eval | leftOperand | letBody | letPairBody | pairSecond | callee => exact ⟨h.1, h.2.grow hD⟩
  | pairUp | call => exact Value.Obeys.grow hD h
  | branch => exact ⟨h.1, h.2.1, h.2.2.grow hD⟩
  | received => exact hD.grow h
  | recursionIndex | recursionRound => exact ⟨h.1, h.2.1, h.2.2.grow hD⟩
  | _ => exact h

lemma Stack.Obeys.grow (hD : D.Lawful) {k : Stack} (h : Stack.Obeys D n k) :
    Stack.Obeys D (n + 2) k :=
  fun f hf => (h f hf).imp_left (Frame.Obeys.grow hD)

lemma Note.Obeys.grow (hD : D.Lawful) {t : Note} (h : t.Obeys D n) : t.Obeys D (n + 2) := by
  cases t with
  | leave | finished => exact Value.Obeys.grow hD h
  | sent | received => exact ⟨h.1.grow hD, hD.grow h.2⟩
  | _ => exact h

lemma Stack.Obeys.append {fs k : Stack} (hf : ∀ f ∈ fs, f.Obeys D n) (hk : Stack.Obeys D n k) :
    Stack.Obeys D n (fs ++ k) := by
  intro f hm
  rcases List.mem_append.mp hm with hm | hm
  · exact .inl (hf f hm)
  · exact hk f hm

end Parley
