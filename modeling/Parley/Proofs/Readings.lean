import Mathlib.Algebra.Group.Pi.Basic
import Mathlib.Algebra.Group.Submonoid.Defs
import Parley.Proofs.Confluence
import Parley.Proofs.Declarations
import Parley.Proofs.Direct

/-!
One program read in several forms side by side.

The forms differ in their expressions, each by a translation of its own, and in what they count.
Computations keep together if, whenever the one that leads comes to a result, all of them do, with
one result in the form of each. A layer of evaluation keeps together, as long as the name that the
forms may deal with differently stands for one and the same global wherever code is evaluated.
-/

namespace Parley

/-! ### A name that nothing binds -/

def Expr.Spares (x : Atom) (e : Expr) : Prop := e.Every fun a => ∀ s ∈ a.scopes, x ∉ s.1

/-- Neither the parameters of a global nor anything in its body bind a name. -/
structure Global.Spares (x : Atom) (g : Global) : Prop where
  params : ∀ ps, g.params = .ok ps → some x ∉ ps
  body : g.body.Spares x

/-- A name stands for one global in all that a value closes over, and is not bound there. -/
inductive Value.Keeps (x : Atom) (g : Global) : Value → Prop
  | unit : Keeps x g .unit
  | label (name : Atom) : Keeps x g (.label name)
  | int (n : Int) : Keeps x g (.int n)
  | pair {a b : Value} (first : Keeps x g a) (second : Keeps x g b) : Keeps x g (.pair a b)
  | function {param : Param} {more : List Param} {body : Expr} {env : Env}
      (params : some x ∉ param :: more) (code : body.Spares x)
      (here : Table.find? env x = some (.global g))
      (globals : ∀ y h, Table.find? env y = some (.global h) → h.Spares x)
      (values : ∀ y v, Table.find? env y = some v → (∀ h, v ≠ .global h) → Keeps x g v) :
      Keeps x g (.function param more body env)
  | sender (on : Endpoint) : Keeps x g (.sender on)
  | identity : Keeps x g .identity
  | channel (e : Endpoint) : Keeps x g (.channel e)

structure Env.Keeps (x : Atom) (g : Global) (env : Env) : Prop where
  here : Table.find? env x = some (.global g)
  globals : ∀ y h, Table.find? env y = some (.global h) → h.Spares x
  values : ∀ y v, Table.find? env y = some v → (∀ h, v ≠ .global h) → v.Keeps x g

section Keeping

variable {x : Atom} {g : Global}

lemma Value.Keeps.ne_global {v : Value} (h : v.Keeps x g) (g' : Global) : v ≠ .global g' := by
  rintro rfl
  cases h

lemma Env.Keeps.function {env : Env} (henv : Env.Keeps x g env) {param : Param} {more : List Param}
    {body : Expr} (hparams : some x ∉ param :: more) (hbody : body.Spares x) :
    (Value.function param more body env).Keeps x g :=
  .function hparams hbody henv.here henv.globals henv.values

lemma Env.Keeps.set {env : Env} (henv : Env.Keeps x g env) {y : Atom} (hy : x ≠ y) {v : Value}
    (hv : v.Keeps x g) : Env.Keeps x g (Table.set env y v) where
  here := by rw [Table.find?_set, if_neg hy, henv.here]
  globals z h hz := by
    rw [Table.find?_set] at hz
    split at hz
    · exact absurd (Option.some.inj hz) (hv.ne_global h)
    · exact henv.globals z h hz
  values z w hz hw := by
    rw [Table.find?_set] at hz
    split at hz
    · exact Option.some.inj hz ▸ hv
    · exact henv.values z w hz hw

lemma Expr.spares_int (n : Literal) : (Expr.int n).Spares x :=
  ⟨fun _ h => absurd h List.not_mem_nil, fun _ h => absurd h List.not_mem_nil⟩

lemma Expr.Spares.part {e a : Expr} (h : e.Spares x) (ha : a ∈ e.parts) : a.Spares x :=
  Every.part h ha

end Keeping

lemma Endpoint.under_eq_self {R : Translation} (hR : ∀ n, R.queue n = n) (on : Endpoint) :
    on.under R = on := by
  have hqueue : ∀ q : QueueId, q.under R = q := by
    intro q
    cases q with
    | allocated n => rw [QueueId.under, hR]
    | outside => rfl
  simp only [Endpoint.under, hqueue]

namespace Direct

/-! ### Readings -/

def tally (n : Nat) : Comp Unit := fun s =>
  some (.value (), { s with evaluations := s.evaluations + n })

structure Reading where
  /-- What is evaluated in the place of an expression. -/
  place : Expr → Expr
  /-- What it counts for. -/
  weight : Expr → Nat

def Reading.eval (R : Reading) : Nat → Expr → Env → Comp Value
  | 0, _, _ => fun _ => none
  | n + 1, e, env => do
    tally (R.weight e)
    layer (R.eval n) (R.place e) env

def Reading.run (R : Reading) (fuel : Nat) (p : Program) : Option (Result Value × Store) :=
  match p.main? with
  | some g => resolve (R.eval fuel) g p.globals {}
  | none => Comp.fault .noMainDeclaration {}

def Reading.plain : Reading := ⟨id, fun _ => 1⟩

lemma Reading.eval_plain (n : Nat) : plain.eval n = Direct.eval n := by
  induction n with
  | zero => rfl
  | succ n ih =>
    funext e env
    simp only [eval, Direct.eval, ih]
    rfl

lemma Reading.run_plain (n : Nat) (p : Program) : plain.run n p = Direct.run n p := by
  unfold run Direct.run
  cases p.main? with
  | none => rfl
  | some g => exact congrFun (congrArg (fun ev => resolve ev g p.globals) (eval_plain n)) {}

/-! ### Computations that keep together -/

/-- A result under a translation, where `φ` translates what is obtained. -/
def Result.under {α : Type} (R : Translation) (φ : α → α) : Result α → Result α
  | .value a => .value (φ a)
  | .fault f => .fault (f.under R)
  | .blocked on => .blocked (on.under R)

def Result.Meets {α : Type} (P : α → Prop) : Result α → Prop
  | .value a => P a
  | _ => True

/-- A store under a translation that leaves queues alone, with its own count. -/
def Store.under (R : Translation) (s : Store) (n : Nat) : Store :=
  ⟨fun q => (s.contents q).map (Value.under R), s.allocated, n⟩

def Store.Keeps (x : Atom) (g : Global) (s : Store) : Prop := ∀ q, ∀ v ∈ s.contents q, v.Keeps x g

lemma Store.Keeps.write {x : Atom} {g : Global} {s : Store} (hs : s.Keeps x g) {q : QueueId}
    {vs : List Value} (hvs : ∀ v ∈ vs, v.Keeps x g) : (s.write q vs).Keeps x g := by
  intro r v hv
  simp only [Store.write] at hv
  split at hv
  · exact hvs v hv
  · exact hs r v hv

lemma Store.under_write (R : Translation) (s : Store) (n : Nat) (q : QueueId) (vs : List Value) :
    (s.write q vs).under R n = (s.under R n).write q (vs.map (Value.under R)) := by
  simp only [Store.under, Store.write]
  congr 1
  funext r
  split <;> rfl

/-- Forms of one program. -/
structure Ensemble (ι : Type) where
  form : ι → Translation
  queue : ∀ i n, (form i).queue n = n
  literal : ∀ i n, (form i).expr (.int n) = .int n
  /-- What the forms may count for the same. -/
  counts : AddSubmonoid (ι → Nat)
  /-- The form that the others follow. -/
  leader : ι
  /-- The name that stands for one global. -/
  name : Atom
  global : Global

namespace Ensemble

variable {ι : Type} (E : Ensemble ι)

/-- If the leader comes to a result, then all of them come to that result in their own form. -/
def Together {α : Type} (φ : Translation → α → α) (P : α → Prop) (cs : ι → Comp α) : Prop :=
  ∀ (s : Store) (n : ι → Nat), s.Keeps E.name E.global →
    cs E.leader (s.under (E.form E.leader) (n E.leader)) ≠ none →
    ∃ (r : Result α) (t : Store) (d : ι → Nat),
      r.Meets P ∧ t.Keeps E.name E.global ∧ d ∈ E.counts ∧
      ∀ i, cs i (s.under (E.form i) (n i)) =
        some (r.under (E.form i) (φ (E.form i)), t.under (E.form i) (n i + d i))

/-- They come to one value, with the name as it was. -/
abbrev Agree (cs : ι → Comp Value) : Prop :=
  E.Together Value.under (Value.Keeps E.name E.global) cs

variable {E} {α β : Type} {φ : Translation → α → α} {ψ : Translation → β → β} {P : α → Prop}
  {Q : β → Prop}

lemma together_pure {a : α} (ha : P a) : E.Together φ P fun i => pure (φ (E.form i) a) :=
  fun s _ hs _ => ⟨.value a, s, 0, ha, hs, E.counts.zero_mem, fun _ => rfl⟩

lemma agree_pure {v : Value} (hv : v.Keeps E.name E.global) :
    E.Agree fun i => pure (v.under (E.form i)) :=
  together_pure hv

lemma together_fault (f : Fault) : E.Together φ P fun i => .fault (f.under (E.form i)) :=
  fun s _ hs _ => ⟨.fault f, s, 0, trivial, hs, E.counts.zero_mem, fun _ => rfl⟩

lemma together_worded {f : Fault} (hf : ∀ R, f.under R = f) :
    E.Together φ P fun _ => .fault f.worded := by
  have h := together_fault (E := E) (φ := φ) (P := P) f.worded
  simp only [Fault.under_worded, hf] at h
  exact h

lemma together_mismatch (v : Value) (k : Kind) (context : Atom) :
    E.Together φ P fun i => .fault ((v.under (E.form i)).mismatch k context) := by
  simp only [Value.mismatch_under]
  exact together_fault _

lemma together_ofExcept {r : Except Fault α} (hr : ∀ a, r = .ok a → P a) :
    E.Together φ P fun i => .ofExcept ((E.form i).result (φ (E.form i)) r) := by
  cases r with
  | ok a => exact together_pure (hr a rfl)
  | error f => exact together_fault f

lemma together_asInt (v : Value) (context : Atom) :
    E.Together (fun _ => id) (fun _ => True)
      fun i => .ofExcept ((v.under (E.form i)).asInt context) := by
  simp only [Value.asInt_under]
  exact together_ofExcept fun _ _ => trivial

lemma together_asLabel (v : Value) (context : Atom) :
    E.Together (fun _ => id) (fun _ => True)
      fun i => .ofExcept ((v.under (E.form i)).asLabel context) := by
  simp only [Value.asLabel_under]
  exact together_ofExcept fun _ _ => trivial

lemma together_asChannel (v : Value) (context : Atom) :
    E.Together Endpoint.under (fun _ => True)
      fun i => .ofExcept ((v.under (E.form i)).asChannel context) := by
  simp only [Value.asChannel_under]
  exact together_ofExcept fun _ _ => trivial

lemma together_asPair {v : Value} (hv : v.Keeps E.name E.global) (context : Atom) :
    E.Together (fun R p => (p.1.under R, p.2.under R))
      (fun p => p.1.Keeps E.name E.global ∧ p.2.Keeps E.name E.global)
      fun i => .ofExcept ((v.under (E.form i)).asPair context) := by
  simp only [Value.asPair_under]
  refine together_ofExcept fun p hp => ?_
  cases hv with
  | pair first second =>
    cases hp
    exact ⟨first, second⟩
  | _ => cases hp

lemma Together.bind {cs : ι → Comp α} {ks : ι → α → Comp β} (hc : E.Together φ P cs)
    (hk : ∀ a, P a → E.Together ψ Q fun i => ks i (φ (E.form i) a)) :
    E.Together ψ Q fun i => cs i >>= ks i := by
  intro s n hs hlead
  obtain ⟨r, t, d, hr, ht, hd, h⟩ := hc s n hs fun hnone => hlead (bind_none hnone)
  cases r with
  | value a =>
    obtain ⟨r', t', d', hr', ht', hd', h'⟩ :=
      hk a hr t (n + d) ht fun hnone => hlead ((bind_value (h E.leader)).trans hnone)
    refine ⟨r', t', d + d', hr', ht', E.counts.add_mem hd hd', fun i => ?_⟩
    refine (bind_value (h i)).trans ((h' i).trans ?_)
    rw [Pi.add_apply, Pi.add_apply, add_assoc]
  | fault f => exact ⟨.fault f, t, d, trivial, ht, hd, fun i => bind_fault (h i)⟩
  | blocked on => exact ⟨.blocked on, t, d, trivial, ht, hd, fun i => bind_blocked (h i)⟩

lemma together_tally {w : ι → Nat} (hw : w ∈ E.counts) :
    E.Together (fun _ => id) (fun _ => True) fun i => tally (w i) :=
  fun s _ hs _ => ⟨.value (), s, w, trivial, hs, hw, fun _ => rfl⟩

/-! ### Queues -/

lemma under_endpoint (i : ι) (on : Endpoint) : on.under (E.form i) = on :=
  on.under_eq_self (E.queue i)

lemma together_allocate : E.Together Endpoint.under (fun _ => True) fun _ => allocate := by
  intro s n hs _
  refine ⟨.value ⟨.allocated s.allocated, .allocated (s.allocated + 1)⟩,
    { s with allocated := s.allocated + 2 }, 0, trivial, hs, E.counts.zero_mem, fun i => ?_⟩
  simp only [Result.under, under_endpoint]
  rfl

lemma together_send (on : Endpoint) {v : Value} (hv : v.Keeps E.name E.global) :
    E.Together (fun _ => id) (fun _ => True)
      fun i => send (on.under (E.form i)) (v.under (E.form i)) := by
  intro s n hs _
  refine ⟨.value (), s.write on.write (s.contents on.write ++ [v]), 0, trivial,
    hs.write fun w hw => ?_, E.counts.zero_mem, fun i => ?_⟩
  · rcases List.mem_append.mp hw with hw | hw
    · exact hs _ w hw
    · exact List.mem_singleton.mp hw ▸ hv
  · simp only [send, under_endpoint, Store.under_write, List.map_append]
    rfl

lemma together_receive (on : Endpoint) : E.Agree fun i => receive (on.under (E.form i)) := by
  intro s n hs _
  cases hq : s.contents on.read with
  | nil =>
    refine ⟨.blocked on, s, 0, trivial, hs, E.counts.zero_mem, fun i => ?_⟩
    simp only [receive, Result.under, under_endpoint, Store.under, hq, List.map_nil]
    rfl
  | cons v rest =>
    have hmem : ∀ w ∈ v :: rest, w.Keeps E.name E.global := hq ▸ hs on.read
    refine ⟨.value v, s.write on.read rest, 0, hmem v (List.mem_cons_self ..),
      hs.write fun w hw => hmem w (List.mem_cons_of_mem _ hw), E.counts.zero_mem, fun i => ?_⟩
    simp only [receive, under_endpoint, Store.under_write]
    simp only [Store.under, hq, List.map_cons]
    rfl

/-! ### A layer -/

section Layer

variable {evs : ι → Expr → Env → Comp Value}

/-- What is evaluated in every form keeps together. -/
def Evaluates (E : Ensemble ι) (evs : ι → Expr → Env → Comp Value) : Prop :=
  ∀ e env, e.Spares E.name → Env.Keeps E.name E.global env →
    E.Agree fun i => evs i ((E.form i).expr e) (Env.under (E.form i) env)

variable (hev : E.Evaluates evs) {env : Env} (henv : Env.Keeps E.name E.global env)

include hev henv

lemma Evaluates.resolve {g : Global} (hg : g.Spares E.name) :
    E.Agree fun i => resolve (evs i) (g.under (E.form i)) (Env.under (E.form i) env) := by
  unfold Direct.resolve
  simp only [Global.under]
  cases hp : g.params with
  | error m => exact together_fault (.misuse m)
  | ok ps =>
    cases ps with
    | nil => exact hev g.body env hg.body henv
    | cons p ps => exact together_pure (henv.function (hg.params _ hp) hg.body)

omit henv in
lemma Evaluates.apply {fn arg : Value} (hfn : fn.Keeps E.name E.global)
    (harg : arg.Keeps E.name E.global) :
    E.Agree fun i => apply (evs i) (fn.under (E.form i)) (arg.under (E.form i)) := by
  cases hfn with
  | @function param more body env params code here globals values =>
    have henv : Env.Keeps E.name E.global env := ⟨here, globals, values⟩
    cases param with
    | none => exact together_fault (.misuse (.noMember .null "name"))
    | some p =>
      -- the name is no parameter, so the argument does not hide it
      have hp : E.name ≠ p := fun h => params (h ▸ List.mem_cons_self ..)
      have hset := henv.set hp harg
      cases more with
      | nil =>
        simp only [Value.under, Direct.apply, ← Env.under_set]
        exact hev body _ code hset
      | cons q qs =>
        simp only [Value.under, Direct.apply, ← Env.under_set]
        exact together_pure
          (hset.function (fun hq => params (List.mem_cons_of_mem _ hq)) code)
  | sender on =>
    exact (together_send on harg).bind fun _ _ =>
      together_pure (φ := Value.under) (Value.Keeps.channel on)
  | identity => exact together_pure harg
  | unit => exact together_mismatch .unit .closure "application"
  | label l => exact together_mismatch (.label l) .closure "application"
  | int n => exact together_mismatch (.int n) .closure "application"
  | @pair a b => exact together_mismatch (.pair a b) .closure "application"
  | channel e => exact together_mismatch (.channel e) .closure "application"

lemma Evaluates.operate (op : ArithOp) {a b : Expr} (ha : a.Spares E.name) (hb : b.Spares E.name) :
    E.Agree fun i => operate (evs i) op ((E.form i).expr a) ((E.form i).expr b)
      (Env.under (E.form i) env) := by
  simp only [Direct.operate, combine_eq_apply]
  have hop : ∀ m n, E.Together (fun _ => id) (fun _ => True) fun _ => .ofExcept (op.apply m n) := by
    intro m n
    have hsame : ∀ R : Translation, R.result id (op.apply m n) = op.apply m n := by
      intro R
      cases op with
      | div =>
        simp only [ArithOp.apply]
        split <;> rfl
      | _ => rfl
    have h := together_ofExcept (E := E) (φ := fun _ => id) (r := op.apply m n)
      (P := fun _ => True) fun _ _ => trivial
    simp only [hsame] at h
    exact h
  refine (hev a env ha henv).bind fun v _ => (together_asInt v _).bind fun m _ => ?_
  refine (hev b env hb henv).bind fun w _ => (together_asInt w _).bind fun n _ => ?_
  exact (hop m n).bind fun k _ => agree_pure (.int k)

lemma Evaluates.rounds {counter acc : Atom} (hcounter : E.name ≠ counter) (hacc : E.name ≠ acc)
    {step : Expr} (hstep : step.Spares E.name) (left j : Nat) {v : Value}
    (hv : v.Keeps E.name E.global) :
    E.Agree fun i => rounds (evs i) counter acc ((E.form i).expr step) (Env.under (E.form i) env)
      left j (v.under (E.form i)) := by
  induction left generalizing j v with
  | zero => exact together_pure hv
  | succ left ih =>
    have hround := hev step _ hstep ((henv.set hacc hv).set hcounter (.int j))
    simp only [Env.under_set, Value.under] at hround
    exact hround.bind fun w hw => ih (j + 1) hw

/-- **A layer of evaluation keeps together**, if its parts do. -/
theorem Evaluates.layer {e : Expr} (he : e.Spares E.name) :
    E.Agree fun i => layer (evs i) (e.mapParts (E.form i).expr) (Env.under (E.form i) env) := by
  have hbound : ∀ s ∈ e.scopes, ∀ y ∈ s.1, E.name ≠ y := by
    rintro s hs y hy rfl
    exact Expr.Every.here he s hs hy
  -- the parts of the expression, in order
  have hone : ∀ {a rest}, e.parts = a :: rest → a.Spares E.name := fun h =>
    he.part (by simp [h])
  have htwo : ∀ {a b rest}, e.parts = a :: b :: rest → b.Spares E.name := fun h =>
    he.part (by simp [h])
  cases e with
  | unit => exact agree_pure .unit
  | label name => exact agree_pure (.label name)
  | int n | nat n =>
    simp only [Expr.mapParts, Direct.layer]
    cases n.toInt with
    | ok k => exact agree_pure (.int k)
    | error f => exact together_fault (.literal f)
  | var y =>
    simp only [Expr.mapParts, Direct.layer, Env.find?_under]
    cases hy : Table.find? env y with
    | none => exact together_worded fun _ => rfl
    | some v =>
      cases v with
      | global g => exact hev.resolve henv (henv.globals y g hy)
      | _ => exact agree_pure (henv.values y _ hy (by simp))
  | arith op a b =>
    exact hev.operate henv op (hone rfl) (htwo rfl)
  | negate a =>
    have h := hev.operate henv .minus (Expr.spares_int (.number (.integer 0))) (hone rfl)
    simp only [E.literal] at h
    exact h
  | succ a =>
    have h := hev.operate henv .plus (Expr.spares_int (.number (.integer 1))) (hone rfl)
    simp only [E.literal] at h
    exact h
  | letIn y a b =>
    refine (hev a env (hone rfl) henv).bind fun v hv => ?_
    simp only [← Env.under_set]
    exact hev b _ (htwo rfl) (henv.set (hbound ([y], b) (by simp [Expr.scopes]) y (by simp)) hv)
  | letPair y z a b =>
    refine (hev a env (hone rfl) henv).bind fun v hv => (together_asPair hv _).bind fun p hp => ?_
    simp only [← Env.under_set]
    have hy : E.name ≠ y := hbound ([z, y], b) (by simp [Expr.scopes]) y (by simp)
    have hz : E.name ≠ z := hbound ([z, y], b) (by simp [Expr.scopes]) z (by simp)
    exact hev b _ (htwo rfl) ((henv.set hz hp.2).set hy hp.1)
  | pair y a b =>
    refine (hev a env (hone rfl) henv).bind fun v hv => ?_
    simp only [← Env.under_set]
    have hy : E.name ≠ y := hbound ([y], b) (by simp [Expr.scopes]) y (by simp)
    exact (hev b _ (htwo rfl) (henv.set hy hv)).bind fun w hw => agree_pure (.pair hv hw)
  | fst a =>
    exact (hev a env (hone rfl) henv).bind fun v hv =>
      (together_asPair hv _).bind fun p hp => agree_pure hp.1
  | snd a =>
    exact (hev a env (hone rfl) henv).bind fun v hv =>
      (together_asPair hv _).bind fun p hp => agree_pure hp.2
  | lambda y a =>
    have hy : E.name ≠ y := hbound ([y], a) (by simp [Expr.scopes]) y (by simp)
    exact agree_pure (henv.function (by simpa using hy) (hone rfl))
  | app a b =>
    exact (hev b env (htwo rfl) henv).bind fun v hv =>
      (hev a env (hone rfl) henv).bind fun f hf => hev.apply hf hv
  | channel =>
    exact together_allocate.bind fun c _ => agree_pure (.pair (.channel c) (.channel c.partner))
  | send a =>
    exact (hev a env (hone rfl) henv).bind fun v _ =>
      (together_asChannel v _).bind fun c _ => agree_pure (.sender c)
  | recv a =>
    exact (hev a env (hone rfl) henv).bind fun v _ => (together_asChannel v _).bind fun c _ =>
      (together_receive c).bind fun w hw => agree_pure (.pair hw (.channel c))
  | caseOf a bs rest =>
    refine (hev a env (hone rfl) henv).bind fun v _ => (together_asLabel v _).bind fun l _ => ?_
    simp only [id, Table.find?_mapVal, List.map_map]
    cases hl : Table.find? bs l with
    | some b =>
      have hb : b ∈ bs.map (·.2) := List.mem_map.mpr ⟨_, Table.mem_of_find? hl, rfl⟩
      exact hev b env (he.part (List.mem_cons_of_mem _ hb)) henv
    | none =>
      cases rest with
      | some m => exact together_fault (.misuse m)
      | none => exact together_worded fun _ => rfl
  | natRec a b counter acc step =>
    refine (hev a env (hone rfl) henv).bind fun v _ => (together_asInt v _).bind fun n _ => ?_
    have hcounter : E.name ≠ counter :=
      hbound ([acc, counter], step) (by simp [Expr.scopes]) counter (by simp)
    have hacc : E.name ≠ acc := hbound ([acc, counter], step) (by simp [Expr.scopes]) acc (by simp)
    simp only [id]
    split
    · exact together_fault (.negativeRecursionIndex n)
    · have hzero : Env.Keeps E.name E.global
          (if n = 0 then env else Table.set env counter (.int 0)) := by
        split
        · exact henv
        · exact henv.set hcounter (.int 0)
      have hunder : ∀ R : Translation,
          Env.under R (if n = 0 then env else Table.set env counter (.int 0)) =
            if n = 0 then Env.under R env else Table.set (Env.under R env) counter (.int 0) := by
        intro R
        split
        · rfl
        · exact Env.under_set ..
      have hstep : step.Spares E.name := he.part (by simp [Expr.parts])
      have h := hev b _ (htwo rfl) hzero
      simp only [hunder] at h
      exact h.bind fun w hw => hev.rounds henv hcounter hacc hstep n.toNat 1 hw
  | unknown k shown => exact together_worded fun _ => rfl
  | missing g => exact together_fault (.misuse (.noMember g "kind"))
  | fork a => exact fun _ _ _ h => absurd rfl h

end Layer

/-- **Runs keep together**, if evaluation does. -/
theorem Evaluates.run {Rs : ι → Reading} {fuel : ι → Nat}
    (hev : E.Evaluates fun i => (Rs i).eval (fuel i)) {p : Program}
    (hp : Env.Keeps E.name E.global p.globals)
    (hlead : (Rs E.leader).run (fuel E.leader) (p.under (E.form E.leader)) ≠ none) :
    ∃ (r : Result Value) (t : Store) (d : ι → Nat), d ∈ E.counts ∧
      ∀ i, (Rs i).run (fuel i) (p.under (E.form i)) =
        some (r.under (E.form i) (Value.under (E.form i)), t.under (E.form i) (d i)) := by
  have hrun : ∀ i, (Rs i).run (fuel i) (p.under (E.form i)) =
      match p.main? with
      | some g => Direct.resolve ((Rs i).eval (fuel i)) (g.under (E.form i))
          (Env.under (E.form i) p.globals) (Store.under (E.form i) {} 0)
      | none => Comp.fault .noMainDeclaration {} := by
    intro i
    simp only [Reading.run, Program.main?_under, Program.globals_under]
    cases p.main? <;> rfl
  simp only [hrun] at hlead ⊢
  cases hmain : p.main? with
  | none => exact ⟨.fault .noMainDeclaration, {}, 0, E.counts.zero_mem, fun _ => rfl⟩
  | some g =>
    have hg : g.Spares E.name := by
      rw [Program.main?_eq_last?] at hmain
      refine hp.globals (.text Program.entry) g ?_
      rw [Program.find?_globals, hmain, Option.map_some]
    simp only [hmain] at hlead
    obtain ⟨r, t, d, -, -, hd, h⟩ := hev.resolve hp hg {} 0 (fun _ _ h => absurd h List.not_mem_nil)
      hlead
    refine ⟨r, t, d, hd, fun i => (h i).trans ?_⟩
    rw [Pi.zero_apply, zero_add]

end Ensemble

end Direct

end Parley
