import Parley.Proofs.Lockstep

/-!
Code that is alike, run in environments that are alike as far as it can see.

Two pieces of code are alike by a given relation, which only has to look one layer deep: alike
expressions are of one form, bind the same names and have parts that are alike. What a piece of
code can see of its environment are its free names, and the free names of the globals that it
finds there, and so on. A set of names that is closed in this way is all that two environments
need to agree on, and it grows by a name whenever one is bound. Values are alike if they show
alike, where functions are alike code in alike environments. A global may also be held as a value
and be called wherever it gets to, so the names that such globals see are among the names that
every environment is to agree on. Then everything that a run makes of
code that is alike is alike, and machines that run it stay in lockstep.
-/

namespace Parley

/-! ### Free names -/

/-- The parts of an expression, each with the names that it is evaluated under. The zero case of a
recursion is under none: a counter that it mentions is the one outside. -/
def Expr.scopes : Expr → List (List Atom × Expr)
  | .unit | .var _ | .label _ | .int _ | .nat _ | .channel | .unknown _ _ | .missing _ => []
  | .negate a | .succ a | .fst a | .snd a | .fork a | .send a | .recv a => [([], a)]
  | .lambda x a => [([x], a)]
  | .arith _ a b | .app a b => [([], a), ([], b)]
  | .letIn x a b | .pair x a b => [([], a), ([x], b)]
  | .letPair x y a b => [([], a), ([y, x], b)]
  | .caseOf a bs _ => ([], a) :: bs.map fun b => ([], b.2)
  | .natRec a b counter acc c => [([], a), ([], b), ([acc, counter], c)]

inductive Expr.Free (x : Atom) : Expr → Prop
  | var : Free x (.var x)
  | part {e a : Expr} {xs : List Atom} (ha : (xs, a) ∈ e.scopes) (hx : x ∉ xs) (h : Free x a) :
      Free x e

def Global.Free (x : Atom) (g : Global) : Prop :=
  ∃ ps, g.params = .ok ps ∧ some x ∉ ps ∧ g.body.Free x

/-! ### Likeness -/

/-- What is held to be alike in the code of two programs. -/
structure Likeness where
  code : Expr → Expr → Prop
  /-- The labels that are offered where none matches. -/
  labels : List Atom → List Atom → Prop
  /-- The names that globals see which are held as values, and may be called anywhere. -/
  loose : Set Atom

namespace Likeness

variable (L : Likeness)

/-- Expressions that are alike in their outermost layer. -/
inductive Layer : Expr → Expr → Prop
  | unit : Layer .unit .unit
  | var (x : Atom) : Layer (.var x) (.var x)
  | label (x : Atom) : Layer (.label x) (.label x)
  | int (n : Literal) : Layer (.int n) (.int n)
  | nat (n : Literal) : Layer (.nat n) (.nat n)
  | arith (op : ArithOp) {a a' b b' : Expr} (ha : L.code a a') (hb : L.code b b') :
      Layer (.arith op a b) (.arith op a' b')
  | negate {a a' : Expr} (ha : L.code a a') : Layer (.negate a) (.negate a')
  | succ {a a' : Expr} (ha : L.code a a') : Layer (.succ a) (.succ a')
  | letIn (x : Atom) {a a' b b' : Expr} (ha : L.code a a') (hb : L.code b b') :
      Layer (.letIn x a b) (.letIn x a' b')
  | letPair (x y : Atom) {a a' b b' : Expr} (ha : L.code a a') (hb : L.code b b') :
      Layer (.letPair x y a b) (.letPair x y a' b')
  | pair (x : Atom) {a a' b b' : Expr} (ha : L.code a a') (hb : L.code b b') :
      Layer (.pair x a b) (.pair x a' b')
  | fst {a a' : Expr} (ha : L.code a a') : Layer (.fst a) (.fst a')
  | snd {a a' : Expr} (ha : L.code a a') : Layer (.snd a) (.snd a')
  | lambda (x : Atom) {a a' : Expr} (ha : L.code a a') : Layer (.lambda x a) (.lambda x a')
  | app {a a' b b' : Expr} (ha : L.code a a') (hb : L.code b b') : Layer (.app a b) (.app a' b')
  | fork {a a' : Expr} (ha : L.code a a') : Layer (.fork a) (.fork a')
  | channel : Layer .channel .channel
  | send {a a' : Expr} (ha : L.code a a') : Layer (.send a) (.send a')
  | recv {a a' : Expr} (ha : L.code a a') : Layer (.recv a) (.recv a')
  | caseOf {a a' : Expr} {bs bs' : List (Atom × Expr)} (ha : L.code a a')
      (hbs : ∀ x, Option.Rel L.code (Table.find? bs x) (Table.find? bs' x))
      (hlabels : L.labels (bs.map (·.1)) (bs'.map (·.1))) (rest : Option Misuse) :
      Layer (.caseOf a bs rest) (.caseOf a' bs' rest)
  | natRec {a a' b b' c c' : Expr} (ha : L.code a a') (hb : L.code b b') (counter acc : Atom)
      (hc : L.code c c') : Layer (.natRec a b counter acc c) (.natRec a' b' counter acc c')
  | unknown (kind shown : Atom) : Layer (.unknown kind shown) (.unknown kind shown)
  | missing (g : Gap) : Layer (.missing g) (.missing g)

/-- Likeness goes all the way down. -/
structure Lawful : Prop where
  layer : ∀ {e e'}, L.code e e' → L.Layer e e'
  /-- The literals that negation and successor bring in. -/
  small : ∀ i, i = 0 ∨ i = 1 →
    L.code (.int (.number (.integer i))) (.int (.number (.integer i)))
  showable : ∀ {ls ls'}, L.labels ls ls' → ls'.all Atom.showable = ls.all Atom.showable

/-- What two environments bind a name to, as far as it is no value: nothing, or globals that are
alike. -/
inductive Bound : Option Value → Option Value → Prop
  | none : Bound none none
  | global {g g' : Global} (name : g'.name = g.name) (params : g'.params = g.params)
      (body : L.code g.body g'.body) : Bound (some (.global g)) (some (.global g'))
  | value {v v' : Value} (h : ∀ g, v ≠ .global g) (h' : ∀ g, v' ≠ .global g) :
      Bound (some v) (some v')

end Likeness

/-- Values that are alike. The environments of functions are alike on the names `S`, which hold all
that the code can see. -/
inductive Value.Like (L : Likeness) : Value → Value → Prop
  | unit : Like L .unit .unit
  | label (x : Atom) : Like L (.label x) (.label x)
  | int (i : Int) : Like L (.int i) (.int i)
  | pair {a a' b b' : Value} (first : Like L a a') (second : Like L b b') :
      Like L (.pair a b) (.pair a' b')
  | function {param : Param} {more : List Param} {body body' : Expr}
      {env env' : List (Atom × Value)} (S : Set Atom) (loose : L.loose ⊆ S)
      (code : L.code body body')
      (free : ∀ x, body.Free x → some x ∉ param :: more → x ∈ S)
      (closed : ∀ x g, x ∈ S → Table.find? env x = some (.global g) → ∀ y, g.Free y → y ∈ S)
      (bound : ∀ x ∈ S, L.Bound (Table.find? env x) (Table.find? env' x))
      (values : ∀ x v v', x ∈ S → Table.find? env x = some v → Table.find? env' x = some v' →
        (∀ g, v ≠ .global g) → Like L v v') :
      Like L (.function param more body env) (.function param more body' env')
  | sender (on : Endpoint) : Like L (.sender on) (.sender on)
  | identity : Like L .identity .identity
  | channel (e : Endpoint) : Like L (.channel e) (.channel e)
  | global {g g' : Global} (name : g'.name = g.name) (params : g'.params = g.params)
      (body : L.code g.body g'.body) (free : ∀ y, g.Free y → y ∈ L.loose) :
      Like L (.global g) (.global g')

/-- Environments that are alike on a set of names, which is closed under what the globals among
them can see. -/
structure Env.Like (L : Likeness) (S : Set Atom) (env env' : Env) : Prop where
  loose : L.loose ⊆ S
  closed : ∀ x g, x ∈ S → Table.find? env x = some (.global g) → ∀ y, g.Free y → y ∈ S
  bound : ∀ x ∈ S, L.Bound (Table.find? env x) (Table.find? env' x)
  values : ∀ x v v', x ∈ S → Table.find? env x = some v → Table.find? env' x = some v' →
    (∀ g, v ≠ .global g) → v.Like L v'

namespace Likeness

/-- Code that is alike, in environments that are alike on all that it can see once the names `xs`
are bound. -/
def Closure (L : Likeness) (xs : List Atom) (e e' : Expr) (env env' : Env) : Prop :=
  ∃ S : Set Atom, L.code e e' ∧ (∀ x, e.Free x → x ∉ xs → x ∈ S) ∧ Env.Like L S env env'

end Likeness

section

variable {L : Likeness} {v v' : Value} {env env' : Env} {e e' : Expr}

/-! ### Values -/

namespace Value.Like

lemma bound (h : v.Like L v') : L.Bound (some v) (some v') := by
  cases h with
  | global name params body => exact .global name params body
  | _ => exact .value (by simp) (by simp)

lemma free {g : Global} (h : (Value.global g).Like L v') {x : Atom} (hx : g.Free x) :
    x ∈ L.loose := by
  cases h with
  | global _ _ _ free => exact free x hx

lemma render (h : v.Like L v') : v'.render = v.render := by
  induction h with
  | pair _ _ iha ihb => simp only [Value.render, iha, ihb]
  | global name => simp only [Value.render, name]
  | _ => rfl

lemma kind (h : v.Like L v') : v'.kind = v.kind := by
  cases h <;> rfl

lemma showable (h : v.Like L v') : v'.showable = v.showable := by
  induction h with
  | pair _ _ iha ihb => simp only [Value.showable, iha, ihb]
  | global name => simp only [Value.showable, name]
  | _ => rfl

end Value.Like

/-! ### Environments -/

lemma Env.Like.set {S : Set Atom} (h : Env.Like L S env env') (x : Atom) (hv : v.Like L v') :
    Env.Like L (insert x S) (Table.set env x v) (Table.set env' x v') := by
  have hloose : L.loose ⊆ insert x S := h.loose.trans (Set.subset_insert x S)
  refine ⟨hloose, fun y g hy hg z hz => ?_, fun y hy => ?_, fun y w w' hy hw hw' hval => ?_⟩
  · rw [Table.find?_set] at hg
    split at hg
    · cases hg
      exact hloose (hv.free hz)
    · next hyx => exact .inr (h.closed y g (hy.resolve_left hyx) hg z hz)
  · simp only [Table.find?_set]
    split
    · exact hv.bound
    · next hyx => exact h.bound y (hy.resolve_left hyx)
  · rw [Table.find?_set] at hw hw'
    split at hw
    · next hyx =>
      rw [if_pos hyx] at hw'
      cases hw
      cases hw'
      exact hv
    · next hyx =>
      rw [if_neg hyx] at hw'
      exact h.values y w w' (hy.resolve_left hyx) hw hw' hval

namespace Likeness.Closure

/-- Binding a name that the code was to be evaluated under. -/
lemma bind {x : Atom} {xs : List Atom} (h : L.Closure (x :: xs) e e' env env')
    (hv : v.Like L v') : L.Closure xs e e' (Table.set env x v) (Table.set env' x v') := by
  obtain ⟨S, hcode, hfree, henv⟩ := h
  refine ⟨insert x S, hcode, fun y hy hxs => ?_, henv.set x hv⟩
  by_cases hyx : y = x
  · exact .inl hyx
  · exact .inr (hfree y hy (by simp [hyx, hxs]))

lemma weaken {xs : List Atom} (h : L.Closure xs e e' env env') (x : Atom) :
    L.Closure (x :: xs) e e' env env' := by
  obtain ⟨S, hcode, hfree, henv⟩ := h
  exact ⟨S, hcode, fun y hy hxs => hfree y hy fun hm => hxs (.tail x hm), henv⟩

/-- A part of the code, under the names that it is evaluated under. -/
lemma part {a a' : Expr} {xs : List Atom} (h : L.Closure [] e e' env env')
    (ha : (xs, a) ∈ e.scopes) (hcode : L.code a a') : L.Closure xs a a' env env' := by
  obtain ⟨S, -, hfree, henv⟩ := h
  exact ⟨S, hcode, fun y hy hxs => hfree y (.part ha hxs hy) List.not_mem_nil, henv⟩

lemma function {param : Param} {more : List Param} {S : Set Atom} (hcode : L.code e e')
    (hfree : ∀ x, e.Free x → some x ∉ param :: more → x ∈ S) (henv : Env.Like L S env env') :
    (Value.function param more e env).Like L (.function param more e' env') :=
  .function S henv.loose hcode hfree henv.closed henv.bound henv.values

end Likeness.Closure

/-! ### Faults and frames -/

variable (L) in
inductive Fault.Like : Fault → Fault → Prop
  | same (f : Fault) : Like f f
  | mismatch (expected context : Atom) {v v' : Value} (h : v.Like L v') :
      Like (.typeMismatch expected v context) (.typeMismatch expected v' context)
  | noCase (x : Atom) {ls ls' : List Atom} (h : L.labels ls ls') :
      Like (.noMatchingCase x ls) (.noMatchingCase x ls')

lemma Fault.Like.worded (hL : L.Lawful) {f f' : Fault} (h : f.Like L f') :
    f.worded.Like L f'.worded := by
  have hwordable : f'.wordable = f.wordable := by
    cases h with
    | same => rfl
    | mismatch _ _ hv => simp only [wordable, hv.showable]
    | noCase _ hls => simp only [wordable, hL.showable hls]
  unfold Fault.worded
  rw [hwordable]
  split
  · exact h
  · exact .same _

lemma Value.Like.mismatch (hL : L.Lawful) (h : v.Like L v') (expected : Kind) (s : Atom) :
    (v.mismatch expected s).Like L (v'.mismatch expected s) :=
  Fault.Like.worded hL (.mismatch _ _ h)

namespace Value.Like

variable (hL : L.Lawful) (h : v.Like L v') (s : Atom)

include hL h

lemma asInt : Except.Tied (Fault.Like L) Eq (v.asInt s) (v'.asInt s) := by
  have hmismatch := h.mismatch hL .int s
  cases h with
  | int i => exact .ok rfl
  | _ => exact .error hmismatch

lemma asPair : Except.Tied (Fault.Like L) (fun p p' => p.1.Like L p'.1 ∧ p.2.Like L p'.2)
    (v.asPair s) (v'.asPair s) := by
  have hmismatch := h.mismatch hL .pair s
  cases h with
  | pair first second => exact .ok ⟨first, second⟩
  | _ => exact .error hmismatch

lemma asLabel : Except.Tied (Fault.Like L) Eq (v.asLabel s) (v'.asLabel s) := by
  have hmismatch := h.mismatch hL .label s
  cases h with
  | label x => exact .ok rfl
  | _ => exact .error hmismatch

lemma asChannel : Except.Tied (Fault.Like L) Eq (v.asChannel s) (v'.asChannel s) := by
  have hmismatch := h.mismatch hL .channel s
  cases h with
  | channel e => exact .ok rfl
  | _ => exact .error hmismatch

end Value.Like

variable (L) in
structure Recursion.Like (r r' : Recursion) : Prop where
  counter : r'.counter = r.counter
  acc : r'.acc = r.acc
  zero : L.Closure [] r.zero r'.zero r.env r'.env
  step : L.Closure [r.acc, r.counter] r.step r'.step r.env r'.env

variable (L) in
/-- Branches that are alike: a label finds alike code in both. -/
structure Likeness.Choice (bs bs' : List (Atom × Expr)) (env env' : Env) : Prop where
  find : ∀ x, Option.Rel (fun b b' => L.Closure [] b b' env env') (Table.find? bs x)
    (Table.find? bs' x)
  labels : L.labels (bs.map (·.1)) (bs'.map (·.1))

def Frame.IsBare : Frame → Prop
  | .pass | .leave _ | .rightOperand _ _ | .takeFirst | .takeSecond | .makeSender | .receive
  | .received _ | .settle _ _ | .report _ => True
  | _ => False

lemma Frame.IsBare.not_isScripted {f : Frame} (h : f.IsBare) : ¬ f.IsScripted := by
  cases f with
  | steps | take | strand => exact h.elim
  | _ => exact id

variable (L) in
inductive Frame.Like : Frame → Frame → Prop
  | bare {f : Frame} (h : f.IsBare) : Like f f
  | eval {e e' : Expr} {env env' : Env} (h : L.Closure [] e e' env env') :
      Like (.eval e env) (.eval e' env')
  | leftOperand (op : ArithOp) {e e' : Expr} {env env' : Env} (h : L.Closure [] e e' env env') :
      Like (.leftOperand op e env) (.leftOperand op e' env')
  | letBody {x : Atom} {e e' : Expr} {env env' : Env} (h : L.Closure [x] e e' env env') :
      Like (.letBody x e env) (.letBody x e' env')
  | letPairBody {x y : Atom} {e e' : Expr} {env env' : Env} (h : L.Closure [y, x] e e' env env') :
      Like (.letPairBody x y e env) (.letPairBody x y e' env')
  | pairSecond {x : Atom} {e e' : Expr} {env env' : Env} (h : L.Closure [x] e e' env env') :
      Like (.pairSecond x e env) (.pairSecond x e' env')
  | pairUp {v v' : Value} (h : v.Like L v') : Like (.pairUp v) (.pairUp v')
  | callee {e e' : Expr} {env env' : Env} (h : L.Closure [] e e' env env') :
      Like (.callee e env) (.callee e' env')
  | call {v v' : Value} (h : v.Like L v') : Like (.call v) (.call v')
  | branch {bs bs' : List (Atom × Expr)} (rest : Option Misuse) {env env' : Env}
      (h : L.Choice bs bs' env env') : Like (.branch bs rest env) (.branch bs' rest env')
  | recursionIndex {r r' : Recursion} (h : r.Like L r') :
      Like (.recursionIndex r) (.recursionIndex r')
  | recursionRound {r r' : Recursion} (h : r.Like L r') (i n : Nat) :
      Like (.recursionRound r i n) (.recursionRound r' i n)

variable (L) in
inductive Call.Like : Call → Call → Prop
  | value {v v' : Value} (h : v.Like L v') : Like (.value v) (.value v')
  | body {e e' : Expr} {env env' : Env} (h : L.Closure [] e e' env env') :
      Like (.body e env) (.body e' env')
  | fault (f : Fault) : Like (.fault f) (.fault f)

/-! ### The pairing -/

variable (L) in
/-- Everything in two machines is alike. -/
def Likeness.pairing : Pairing := ⟨Value.Like L, Fault.Like L, Frame.Like L⟩

namespace Likeness

open Pairing

variable {k k' : Stack} {tracing : Bool}

lemma lawful_pairing : L.pairing.Lawful where
  unit := .unit
  limit _ := .same _
  noText := .same _
  showable h := h.showable
  bottom h hb := by
    cases h with
    | bare => rfl
    | _ => exact (hb.elim id id).elim
  unscripted h := by
    cases h with
    | bare hf => exact ⟨hf.not_isScripted, hf.not_isScripted⟩
    | _ => exact ⟨id, id⟩

lemma faithful_pairing (hL : ∀ ls ls', L.labels ls ls' → ls' = ls) : L.pairing.tie.Faithful where
  render h := h.render
  category h := by cases h <;> rfl
  message h := by
    cases h with
    | same => rfl
    | mismatch expected context hv => exact Fault.message_typeMismatch hv.kind hv.render _ _
    | noCase x hls => rw [hL _ _ hls]

/-! ### Turns that are alike -/

lemma pass_like : (Frame.pass).Like L .pass := .bare trivial

lemma Layer.caption (h : L.Layer e e') : e'.caption? = e.caption? := by
  cases h <;> rfl

lemma cover_like (h : L.Layer e e') : (e.cover tracing).Like L (e'.cover tracing) := by
  unfold Expr.cover Expr.caption
  rw [h.caption]
  split <;> exact .bare trivial

lemma residue_like (h : L.Layer e e') :
    L.pairing.stack (e.residue tracing) (e'.residue tracing) := by
  unfold Expr.residue Expr.caption
  rw [h.caption]
  split
  · exact .cons (.bare trivial) .nil
  · exact .nil

lemma call_like {S : Set Atom} (henv : Env.Like L S env env') {g g' : Global}
    (hfree : ∀ y, g.Free y → y ∈ S) (hparams : g'.params = g.params)
    (hbody : L.code g.body g'.body) : (g.call env).Like L (g'.call env') := by
  unfold Global.call
  rw [hparams]
  cases hps : g.params with
  | error m => exact .fault _
  | ok ps =>
    cases ps with
    | nil => exact .body ⟨S, hbody, fun y hy _ => hfree y ⟨[], hps, List.not_mem_nil, hy⟩, henv⟩
    | cons p ps =>
      exact .value (Closure.function hbody (fun y hy hm => hfree y ⟨p :: ps, hps, hm, hy⟩) henv)

lemma turn_refer (hk : L.pairing.stack k k') (hlayer : L.Layer e e') {c c' : Call}
    (hc : c.Like L c') : L.pairing.tie.turn k k' (c.refer tracing e) (c'.refer tracing e') := by
  cases hc with
  | fault f => exact turn_fault hk (.same f)
  | body h => exact turn_eval hk (.eval h) (.cons (cover_like hlayer) .nil)
  | value hv =>
    refine turn_hand hk ?_ hv
    unfold Expr.caption
    rw [hlayer.caption]
    split
    · exact .cons (.bare trivial) .nil
    · exact .cons pass_like (.cons pass_like .nil)

lemma turn_var (hk : L.pairing.stack k k') {x : Atom} {S : Set Atom} (hx : x ∈ S)
    (henv : Env.Like L S env env') (n : Nat) :
    L.pairing.tie.turn k k' ((Expr.var x).partsTurn tracing n env)
      ((Expr.var x).partsTurn tracing n env') := by
  have hclosed := fun g => henv.closed x g hx
  have hbound := henv.bound x hx
  have hvalues := fun v v' => henv.values x v v' hx
  simp only [Expr.partsTurn]
  generalize Table.find? env x = b, Table.find? env' x = b' at hclosed hbound hvalues
  cases hbound with
  | none => exact turn_fault hk (.same _)
  | @global g g' _ hparams hbody =>
    exact turn_refer hk (.var x) (call_like henv (hclosed g rfl) hparams hbody)
  | @value v v' hv hv' =>
    have hlike := hvalues v v' rfl rfl hv
    have hfinish : L.pairing.tie.turn k k' ((Expr.var x).finish tracing v)
        ((Expr.var x).finish tracing v') := turn_hand hk (residue_like (.var x)) hlike
    cases v with
    | global g => exact absurd rfl (hv g)
    | _ =>
      cases hlike
      exact hfinish

/-- The turn that starts the first part of an expression. -/
lemma turn_parts (hL : L.Lawful) (hk : L.pairing.stack k k') (h : L.Closure [] e e' env env')
    (n : Nat) :
    L.pairing.tie.turn k k' (e.partsTurn tracing n env) (e'.partsTurn tracing n env') := by
  have hlayer : L.Layer e e' := by
    obtain ⟨S, hcode, -, -⟩ := h
    exact hL.layer hcode
  have hfinish : ∀ {v v' : Value}, v.Like L v' →
      L.pairing.tie.turn k k' (e.finish tracing v) (e'.finish tracing v') := fun hv =>
    turn_hand hk (residue_like hlayer) hv
  have hpart : ∀ {a a' : Expr}, L.Closure [] a a' env env' → ∀ {f f' : Frame}, f.Like L f' →
      L.pairing.tie.turn k k' (.eval a env [f, e.cover tracing])
        (.eval a' env' [f', e'.cover tracing]) := fun ha _ _ hf =>
    turn_eval hk (.eval ha) (.cons hf (.cons (cover_like hlayer) .nil))
  have hsmall : ∀ i, i = 0 ∨ i = 1 →
      L.Closure [] (.int (.number (.integer i))) (.int (.number (.integer i))) env env' := by
    obtain ⟨S, -, -, henv⟩ := h
    refine fun i hi => ⟨S, hL.small i hi, fun x hx => ?_, henv⟩
    cases hx with
    | part ha => cases ha
  -- the parts of the expression, in the order of its scopes
  have hone : ∀ {xs : List Atom} {a a' : Expr} {rest}, e.scopes = (xs, a) :: rest →
      L.code a a' → L.Closure xs a a' env env' := fun hs ha => h.part (hs ▸ .head _) ha
  have htwo : ∀ {xs : List Atom} {b b' : Expr} {s rest}, e.scopes = s :: (xs, b) :: rest →
      L.code b b' → L.Closure xs b b' env env' := fun hs hb => h.part (hs ▸ .tail _ (.head _)) hb
  cases hlayer with
  | unit => exact hfinish .unit
  | label x => exact hfinish (.label x)
  | int l | nat l =>
    simp only [Expr.partsTurn]
    split
    · exact hfinish (.int _)
    · exact turn_fault hk (.same _)
  | var x =>
    obtain ⟨S, -, hfree, henv⟩ := h
    exact turn_var hk (hfree x .var List.not_mem_nil) henv n
  | arith op ha hb => exact hpart (hone rfl ha) (.leftOperand op (htwo rfl hb))
  | negate ha => exact hpart (hsmall 0 (.inl rfl)) (.leftOperand .minus (hone rfl ha))
  | succ ha => exact hpart (hsmall 1 (.inr rfl)) (.leftOperand .plus (hone rfl ha))
  | letIn x ha hb => exact hpart (hone rfl ha) (.letBody (htwo rfl hb))
  | letPair x y ha hb => exact hpart (hone rfl ha) (.letPairBody (htwo rfl hb))
  | pair x ha hb => exact hpart (hone rfl ha) (.pairSecond (htwo rfl hb))
  | fst ha | snd ha | send ha | recv ha => exact hpart (hone rfl ha) (.bare trivial)
  | lambda x ha =>
    have hbody : L.Closure [x] _ _ env env' := hone rfl ha
    obtain ⟨S, hcode, hfree, henv⟩ := hbody
    refine hfinish (Closure.function hcode (fun y hy hm => hfree y hy ?_) henv)
    simpa using hm
  | app ha hb => exact hpart (htwo rfl hb) (.callee (hone rfl ha))
  | fork ha =>
    have hforked := hone rfl ha
    refine turn_after (.fork fun task serial => ?_) (hfinish .unit)
    exact .cons (.eval hforked) (.cons (.bare trivial) .nil)
  | channel => exact turn_after .channel (hfinish (.pair (.channel _) (.channel _)))
  | @caseOf a a' bs bs' ha hbs hlabels rest =>
    refine hpart (hone rfl ha) (.branch rest ⟨fun x => ?_, hlabels⟩)
    have hmem : ∀ b, Table.find? bs x = some b → ([], b) ∈ (Expr.caseOf a bs rest).scopes :=
      fun b hb => .tail _ (List.mem_map.mpr ⟨(x, b), Table.mem_of_find? hb, rfl⟩)
    have hx := hbs x
    generalize Table.find? bs x = b, Table.find? bs' x = b' at hx hmem
    cases hx with
    | none => exact .none
    | some hcode => exact .some (h.part (hmem _ rfl) hcode)
  | natRec ha hb counter acc hc =>
    have hstep := h.part (.tail _ (.tail _ (.head _))) hc
    exact hpart (hone rfl ha) (.recursionIndex ⟨rfl, rfl, htwo rfl hb, hstep⟩)
  | unknown | missing => exact turn_fault hk (.same _)

lemma turn_expr (hL : L.Lawful) (hk : L.pairing.stack k k') (h : L.Closure [] e e' env env')
    (n : Nat) :
    L.pairing.tie.turn k k' (e.turn tracing n env) (e'.turn tracing n env') := by
  have hparts : L.pairing.tie.turn k k' (e.partsTurn tracing n env)
      (e'.partsTurn tracing n env') := turn_parts hL hk h n
  have hlayer : L.Layer e e' := by
    obtain ⟨S, hcode, -, -⟩ := h
    exact hL.layer hcode
  have hcaption := hlayer.caption
  cases hlayer with
  | missing g => exact hparts
  | _ =>
    simp only [Expr.turn, hcaption]
    generalize Expr.caption? _ = caption
    cases caption with
    | some caption => exact turn_after (.note (.enter caption)) hparts
    | none =>
      simp only
      split
      · exact turn_fault hk (.same _)
      · exact hparts

lemma turn_apply (hL : L.Lawful) (hk : L.pairing.stack k k') {fn fn' : Value}
    (hfn : fn.Like L fn') (hv : v.Like L v') :
    L.pairing.tie.turn k k' (fn.applyTurn tracing v) (fn'.applyTurn tracing v') := by
  have hpasses : L.pairing.stack [.pass, .pass] [.pass, .pass] :=
    .cons pass_like (.cons pass_like .nil)
  have hmismatch := turn_fault hk (hfn.mismatch hL .closure "application")
  cases hfn with
  | @function param more body body' env env' S hloose hcode hfree hclosed hbound hvalues =>
    have henv : Env.Like L S env env' := ⟨hloose, hclosed, hbound, hvalues⟩
    cases param with
    | none => exact turn_fault hk (.same _)
    | some x =>
      have hset := henv.set x hv
      have hmore : ∀ y, body.Free y → some y ∉ more → y ∈ insert x S := by
        intro y hy hm
        by_cases hyx : y = x
        · exact .inl hyx
        · exact .inr (hfree y hy (by simp [hyx, hm]))
      cases more with
      | nil =>
        exact turn_eval hk (.eval ⟨_, hcode, fun y hy _ => hmore y hy List.not_mem_nil, hset⟩)
          (.cons pass_like .nil)
      | cons p ps => exact turn_hand hk hpasses (Closure.function hcode hmore hset)
  | sender on =>
    refine turn_noting hk lawful_pairing (.pair hv (.channel on)) (.send on hv) ?_
    exact turn_hand hk hpasses (.channel on)
  | identity => exact turn_hand hk hpasses hv
  | _ => exact hmismatch

/-- **Frames that are alike take turns that are alike.** -/
theorem turn_like (hL : L.Lawful) (hk : L.pairing.stack k k') {f f' : Frame}
    (hf : f.Like L f') (hv : v.Like L v') (n : Nat) :
    L.pairing.tie.turn k k' (f.turn tracing n v) (f'.turn tracing n v') := by
  have hpass : L.pairing.stack [.pass] [.pass] := .cons pass_like .nil
  cases hf with
  | bare hbare =>
    -- what is in such a frame is the same on both sides
    cases f with
    | pass | settle | report => exact turn_hand hk .nil hv
    | leave caption =>
      exact turn_noting hk lawful_pairing hv (.note (.leave caption hv)) (turn_hand hk .nil hv)
    | rightOperand op a =>
      refine turn_ofExcept hk (hv.asInt hL _) fun b b' hb => ?_
      subst hb
      cases op.apply a b with
      | ok c => exact turn_hand hk .nil (.int c)
      | error e => exact turn_fault hk (.same e)
    | takeFirst =>
      exact turn_ofExcept hk (hv.asPair hL _) fun _ _ hp => turn_hand hk .nil hp.1
    | takeSecond =>
      exact turn_ofExcept hk (hv.asPair hL _) fun _ _ hp => turn_hand hk .nil hp.2
    | makeSender =>
      refine turn_ofExcept hk (hv.asChannel hL _) fun on on' hon => ?_
      subst hon
      exact turn_hand hk .nil (.sender on)
    | receive =>
      refine turn_ofExcept hk (hv.asChannel hL _) fun on on' hon => ?_
      subst hon
      exact ⟨.nil, .receive (.cons (.bare trivial) hk)⟩
    | received on =>
      have hpair := hv.pair (.channel on)
      exact turn_noting hk lawful_pairing hpair (.note (.received hv on)) (turn_hand hk .nil hpair)
    | _ => exact hbare.elim
  | eval h => exact turn_expr hL hk h n
  | leftOperand op h =>
    refine turn_ofExcept hk (hv.asInt hL _) fun a a' ha => ?_
    subst ha
    exact turn_eval hk (.eval h) (.cons (.bare trivial) .nil)
  | letBody h => exact turn_eval hk (.eval (h.bind hv)) hpass
  | letPairBody h =>
    refine turn_ofExcept hk (hv.asPair hL _) fun p p' hp => ?_
    exact turn_eval hk (.eval ((h.bind hp.2).bind hp.1)) hpass
  | pairSecond h => exact turn_eval hk (.eval (h.bind hv)) (.cons (.pairUp hv) .nil)
  | pairUp h => exact turn_hand hk .nil (h.pair hv)
  | callee h => exact turn_eval hk (.eval h) (.cons (.call hv) .nil)
  | call h => exact turn_apply hL hk hv h
  | @branch bs bs' rest env env' h =>
    refine turn_ofExcept hk (hv.asLabel hL _) fun x x' hx => ?_
    subst hx
    -- a label finds alike code in any order of the branches
    have hfind := h.find x
    generalize Table.find? bs x = b, Table.find? bs' x = b' at hfind
    cases hfind with
    | some hb => exact turn_eval hk (.eval hb) hpass
    | none =>
      cases rest with
      | some misuse => exact turn_fault hk (.same _)
      | none => exact turn_fault hk (Fault.Like.worded hL (.noCase x h.labels))
  | @recursionIndex r r' h =>
    refine turn_ofExcept hk (hv.asInt hL _) fun i i' hi => ?_
    subst hi
    split
    · exact turn_fault hk (.same _)
    · refine turn_eval hk (.eval ?_) (.cons (.recursionRound h 1 _) .nil)
      unfold Recursion.zeroEnv
      rw [h.counter]
      split
      · exact h.zero
      · exact (h.zero.weaken r.counter).bind (.int 0)
  | @recursionRound r r' h i upTo =>
    simp only [Frame.turn]
    split
    · refine turn_eval hk (.eval ?_) (.cons (.recursionRound h (i + 1) upTo) .nil)
      unfold Recursion.stepEnv
      rw [h.counter, h.acc]
      exact (h.step.bind hv).bind (.int i)
    · exact turn_hand hk .nil hv

lemma Lawful.steady (hL : L.Lawful) : L.pairing.Steady :=
  fun hf hv hk _ n => turn_like hL hk hf hv n

end Likeness

/-! ### Runs -/

/-- Programs start alike in environments where their main declarations see alike globals. -/
lemma Machine.Tied.like_start {p p' : Program} {S : Set Atom}
    (henv : Env.Like L S p.globals p'.globals) (hmain : .text Program.entry ∈ S) (policy : Policy) :
    (({ policy } : Machine).startProgram p [.report 0]).Tied L.pairing.tie
      (({ policy } : Machine).startProgram p' [.report 0]) := by
  have hT : L.pairing.tie.Lawful := Likeness.lawful_pairing.tie
  have hfresh : Tied L.pairing.tie { policy } { policy } := .fresh policy .nil .nil
  have hreport : L.pairing.stack [.report 0] [.report 0] := .cons (.bare trivial) .nil
  have hnone := hfresh.resume hT hreport (.error (.same .noMainDeclaration))
  have hclosed := fun g => henv.closed _ g hmain
  have hbound := henv.bound _ hmain
  simp only [startProgram, Program.main?]
  generalize Table.find? p.globals _ = b, Table.find? p'.globals _ = b' at hbound hclosed
  cases hbound with
  | none => exact hnone
  | @value v v' hv hv' =>
    -- a name that is bound to a value is no main declaration
    cases v with
    | global g => exact absurd rfl (hv g)
    | _ =>
      cases v' with
      | global g => exact absurd rfl (hv' g)
      | _ => exact hnone
  | @global g g' _ hparams hbody =>
    have hcall := Likeness.call_like henv (hclosed g rfl) hparams hbody
    simp only
    generalize g.call p.globals = c, g'.call p'.globals = c' at hcall
    cases hcall with
    | value hv =>
      exact hfresh.resume hT (.cons Likeness.pass_like (.cons Likeness.pass_like hreport)) (.ok hv)
    | body h => exact hfresh.check hT (.cons (.eval h) (.cons Likeness.pass_like hreport))
    | fault f => exact hfresh.resume hT hreport (.error (.same f))

/-- **Programs that are alike run alike**: they give the same account after every step and at the
end, if labels are alike only if they are the same, and their main processes end at the same
moment. -/
theorem Program.run_like (hL : L.Lawful) (hlabels : ∀ ls ls', L.labels ls ls' → ls' = ls)
    {p p' : Program} {S : Set Atom} (henv : Env.Like L S p.globals p'.globals)
    (hmain : .text Program.entry ∈ S) (policy : Policy) :
    (∀ n, (p'.after policy n).glimpse = (p.after policy n).glimpse) ∧
    ∀ fuel, (p'.run fuel policy).map (fun f => (f.report, f.countsAtEnd)) =
      (p.run fuel policy).map fun f => (f.report, f.countsAtEnd) :=
  (Machine.Tied.like_start henv hmain policy).same_account Likeness.lawful_pairing hL.steady
    (Likeness.faithful_pairing hlabels) (.same _)

end

end Parley
