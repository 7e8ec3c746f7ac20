import Parley.Proofs.Proper
import Parley.Proofs.Turn

/-!
Translations: queues under other numbers and expressions in another form, in everything that a
process is made of. What a turn comes to is told apart from how it is traced: frames that only
hand on an outcome make no difference to it. Then a traced turn comes to the same as one that is
not traced, and what is translated takes the translated turn.
-/

namespace Parley

/-- Numbers of queues and expressions, and what to put in their place. -/
structure Translation where
  expr : Expr → Expr
  queue : Nat → Nat

def Expr.mapParts (φ : Expr → Expr) : Expr → Expr
  | .arith op a b => .arith op (φ a) (φ b)
  | .negate a => .negate (φ a)
  | .succ a => .succ (φ a)
  | .letIn x a b => .letIn x (φ a) (φ b)
  | .letPair x y a b => .letPair x y (φ a) (φ b)
  | .pair x a b => .pair x (φ a) (φ b)
  | .fst a => .fst (φ a)
  | .snd a => .snd (φ a)
  | .lambda x a => .lambda x (φ a)
  | .app a b => .app (φ a) (φ b)
  | .fork a => .fork (φ a)
  | .send a => .send (φ a)
  | .recv a => .recv (φ a)
  | .caseOf a bs rest => .caseOf (φ a) (bs.map fun b => (b.1, φ b.2)) rest
  | .natRec a b x y c => .natRec (φ a) (φ b) x y (φ c)
  | e => e

lemma Expr.mapParts_id (e : Expr) : e.mapParts id = e := by
  cases e with
  | caseOf a bs rest => exact congrArg (caseOf a · rest) (List.map_id bs)
  | _ => rfl

/-- A translation keeps expressions as they are, part by part; at most it takes out forks. -/
structure Translation.Lawful (R : Translation) : Prop where
  node : ∀ e, (∀ a, e ≠ .fork a) → R.expr e = e.mapParts R.expr
  fork : ∀ a, R.expr (.fork a) = .fork (R.expr a) ∨ R.expr (.fork a) = .unit

/-! ### Values -/

def QueueId.under (R : Translation) : QueueId → QueueId
  | .allocated n => .allocated (R.queue n)
  | .outside origin name => .outside origin name

def Endpoint.under (R : Translation) (e : Endpoint) : Endpoint :=
  ⟨e.read.under R, e.write.under R⟩

def Global.under (R : Translation) (g : Global) : Global := { g with body := R.expr g.body }

mutual

def Value.under (R : Translation) : Value → Value
  | .unit => .unit
  | .label name => .label name
  | .int n => .int n
  | .pair a b => .pair (a.under R) (b.under R)
  | .function param more body env => .function param more (R.expr body) (Env.under R env)
  | .sender on => .sender (on.under R)
  | .identity => .identity
  | .channel e => .channel (e.under R)
  | .global g => .global (g.under R)

def Env.under (R : Translation) : List (Atom × Value) → List (Atom × Value)
  | [] => []
  | (name, v) :: rest => (name, v.under R) :: Env.under R rest

end

variable {R : Translation}

lemma Env.under_eq_map (env : Env) : Env.under R env = env.map fun b => (b.1, b.2.under R) := by
  induction env with
  | nil => rfl
  | cons b rest ih => rw [Env.under, ih, List.map_cons]

lemma Table.find?_mapVal {κ α β : Type} [DecidableEq κ] (g : α → β) (t : Table κ α) (key : κ) :
    find? (t.map fun e => (e.1, g e.2)) key = (find? t key).map g := by
  induction t with
  | nil => rfl
  | cons e rest ih =>
    simp only [List.map_cons, find?]
    split
    · rfl
    · exact ih

lemma Table.set_mapVal {κ α β : Type} [DecidableEq κ] (g : α → β) (t : Table κ α) (key : κ)
    (a : α) : (set t key a).map (fun e => (e.1, g e.2)) =
      set (t.map fun e => (e.1, g e.2)) key (g a) := by
  induction t with
  | nil => rfl
  | cons e rest ih =>
    simp only [List.map_cons, set]
    split
    · rfl
    · rw [List.map_cons, ih]

lemma Env.find?_under (env : Env) (name : Atom) :
    Table.find? (Env.under R env) name = (Table.find? env name).map (Value.under R) := by
  rw [Env.under_eq_map]
  exact Table.find?_mapVal _ env name

lemma Env.under_set (env : Env) (name : Atom) (v : Value) :
    Env.under R (Table.set env name v) = Table.set (Env.under R env) name (v.under R) := by
  rw [Env.under_eq_map, Env.under_eq_map]
  exact Table.set_mapVal _ env name v

@[simp] lemma Value.kind_under (v : Value) : (v.under R).kind = v.kind := by cases v <;> rfl

lemma QueueId.showable_allocated (n : Nat) : (allocated n).atom.showable = true := rfl

lemma QueueId.showable_under (q : QueueId) : (q.under R).atom.showable = q.atom.showable := by
  cases q with
  | allocated n => rw [under, showable_allocated, showable_allocated]
  | outside => rfl

lemma Value.showable_under (v : Value) : (v.under R).showable = v.showable := by
  fun_induction Value.showable v with
  | case2 a b iha ihb => rw [under, showable, iha, ihb]
  | case3 e =>
    simp only [under, showable, Endpoint.under, QueueId.showable_under]
  | _ => rfl

/-! ### Faults and outcomes -/

def Fault.under (R : Translation) : Fault → Fault
  | .typeMismatch expected got context => .typeMismatch expected (got.under R) context
  | f => f

lemma Fault.under_worded (f : Fault) : f.worded.under R = (f.under R).worded := by
  have hwordable : (f.under R).wordable = f.wordable := by
    cases f with
    | typeMismatch expected got context => simp only [under, wordable, Value.showable_under]
    | _ => rfl
  unfold worded
  rw [hwordable]
  split <;> rfl

def Translation.result {α : Type} (R : Translation) (g : α → α) :
    Except Fault α → Except Fault α
  | .ok a => .ok (g a)
  | .error f => .error (f.under R)

def Outcome.under (R : Translation) (o : Outcome) : Outcome := R.result (Value.under R) o

lemma Value.mismatch_under (k : Kind) (v : Value) (context : Atom) :
    (v.under R).mismatch k context = (v.mismatch k context).under R := by
  unfold mismatch
  rw [Fault.under_worded]
  rfl

lemma Value.asInt_under (v : Value) (context : Atom) :
    (v.under R).asInt context = R.result id (v.asInt context) := by
  cases v <;> first | rfl | exact congrArg Except.error (mismatch_under ..)

lemma Value.asPair_under (v : Value) (context : Atom) :
    (v.under R).asPair context =
      R.result (fun p => (p.1.under R, p.2.under R)) (v.asPair context) := by
  cases v <;> first | rfl | exact congrArg Except.error (mismatch_under ..)

lemma Value.asLabel_under (v : Value) (context : Atom) :
    (v.under R).asLabel context = R.result id (v.asLabel context) := by
  cases v <;> first | rfl | exact congrArg Except.error (mismatch_under ..)

lemma Value.asChannel_under (v : Value) (context : Atom) :
    (v.under R).asChannel context = R.result (Endpoint.under R) (v.asChannel context) := by
  cases v <;> first | rfl | exact congrArg Except.error (mismatch_under ..)

/-! ### Frames and turns -/

def Recursion.under (R : Translation) (r : Recursion) : Recursion :=
  { r with zero := R.expr r.zero, step := R.expr r.step, env := Env.under R r.env }

def Frame.under (R : Translation) : Frame → Frame
  | .eval e env => .eval (R.expr e) (Env.under R env)
  | .leftOperand op e env => .leftOperand op (R.expr e) (Env.under R env)
  | .letBody x e env => .letBody x (R.expr e) (Env.under R env)
  | .letPairBody x y e env => .letPairBody x y (R.expr e) (Env.under R env)
  | .pairSecond x e env => .pairSecond x (R.expr e) (Env.under R env)
  | .pairUp v => .pairUp (v.under R)
  | .callee e env => .callee (R.expr e) (Env.under R env)
  | .call v => .call (v.under R)
  | .branch bs rest env => .branch (bs.map fun b => (b.1, R.expr b.2)) rest (Env.under R env)
  | .received on => .received (on.under R)
  | .recursionIndex r => .recursionIndex (r.under R)
  | .recursionRound r i n => .recursionRound (r.under R) i n
  | f => f

def Stack.under (R : Translation) (k : Stack) : Stack := k.map (Frame.under R)

/-- The frame does more than to hand on an outcome or to end a process. -/
def Frame.isSolid : Frame → Bool
  | .pass | .leave _ | .settle _ _ | .report _ => false
  | _ => true

def Stack.core (k : Stack) : Stack := k.filter Frame.isSolid

lemma Stack.core_append (fs k : Stack) : Stack.core (fs ++ k) = fs.core ++ k.core :=
  List.filter_append ..

def Sequel.core : Sequel → Sequel
  | .hand fs o => .hand fs.core o
  | .count fs => .count fs.core
  | .receive on => .receive on

def Sequel.under (R : Translation) : Sequel → Sequel
  | .hand fs o => .hand (fs.under R) (Outcome.under R o)
  | .count fs => .count (fs.under R)
  | .receive on => .receive (on.under R)

namespace Turn

def gist (t : Turn) : Sequel := t.sequel.core

@[simp] lemma gist_after (d : Deed) (t : Turn) : (after d t).gist = t.gist := rfl

lemma gist_noting_of_showable {tracing : Bool} {v : Value} (hv : v.showable = true) (d : Deed)
    (t : Turn) : (noting tracing v d t).gist = t.gist := by
  unfold noting
  rw [hv, Bool.or_true]
  rfl

/-- A fault on the spot is translated, and so is what comes of the translated result. -/
lemma gist_ofExcept_under {α : Type} {g : α → α} (r : Except Fault α) {next next' : α → Turn}
    (h : ∀ a, (next' (g a)).gist = (next a).gist.under R) :
    (ofExcept (R.result g r) next').gist = (ofExcept r next).gist.under R := by
  cases r with
  | ok a => exact h a
  | error f => rfl

end Turn

/-! ### Tracing makes no difference -/

section Tracing

variable {D : Discipline} {also : Expr → Prop} {n i : Nat}

@[simp] lemma Expr.gist_finish (tracing : Bool) (e : Expr) (v : Value) :
    (e.finish tracing v).gist = .hand [] (.ok v) := by
  cases tracing <;> rfl

lemma Expr.gist_part (tracing : Bool) (e a : Expr) (env : Env) (f : Frame) :
    (Turn.eval a env [f, e.cover tracing]).gist = .count (.eval a env :: Stack.core [f]) := by
  cases tracing <;> cases f <;> rfl

lemma Call.gist_refer (tracing : Bool) (e : Expr) (c : Call) :
    (c.refer tracing e).gist = match c with
      | .value v => .hand [] (.ok v)
      | .body b env => .count [.eval b env]
      | .fault f => .hand [] (.error f) := by
  cases c <;> cases tracing <;> rfl

lemma Expr.gist_partsTurn (tracing : Bool) (e : Expr) (env : Env) :
    (e.partsTurn tracing n env).gist = (e.partsTurn false n env).gist := by
  cases e with
  | int l | nat l =>
    simp only [partsTurn]
    cases l.toInt with
    | ok i => simp only [gist_finish]
    | error f => rfl
  | var name =>
    simp only [partsTurn]
    cases Table.find? env name with
    | none => rfl
    | some v =>
      cases v with
      | global g => simp only [Call.gist_refer]
      | _ => simp only [gist_finish]
  | unit | label | lambda => simp only [partsTurn, gist_finish]
  | fork a | channel => simp only [partsTurn, Turn.gist_after, gist_finish]
  | unknown | missing => rfl
  | _ => simp only [partsTurn, gist_part]

lemma Expr.gist_turn_untraced (e : Expr) (env : Env) :
    (e.turn false n env).gist = (e.partsTurn false n env).gist := by
  cases e with
  | missing g => rfl
  | _ =>
    simp only [turn]
    generalize Expr.caption? _ = caption
    cases caption <;> rfl

lemma Expr.gist_turn_of_caption {e : Expr} {s : String} (h : e.caption? = some s) (tracing : Bool)
    (env : Env) : (e.turn tracing n env).gist = (e.turn false n env).gist := by
  rw [gist_turn_untraced, ← gist_partsTurn tracing]
  cases e with
  | missing g => cases h
  | _ =>
    simp only [turn, h]
    rfl

/-- **Tracing makes no difference to what a turn comes to**, if everything has a text. -/
theorem Frame.gist_turn {f : Frame} {v : Value} (hf : f.Obeys (.proper also) i)
    (hv : v.Obeys (.proper also) i) (tracing : Bool) (n : Nat) :
    (f.turn tracing n v).gist = (f.turn false n v).gist := by
  have hends : ∀ {on : Endpoint}, (∃ r w, on = ⟨.allocated r, .allocated w⟩) →
      (Value.channel on).showable = true := by
    rintro on ⟨r, w, rfl⟩
    rfl
  cases f with
  | eval e env =>
    obtain ⟨s, hs⟩ := hf.1.here.1.caption
    exact Expr.gist_turn_of_caption hs tracing env
  | leave caption => exact Turn.gist_noting_of_showable hv.showable _ _
  | received on =>
    refine Turn.gist_noting_of_showable ?_ _ _
    rw [Value.showable, hv.showable, hends hf]
    rfl
  | call arg =>
    cases v with
    | function param more body env =>
      cases param with
      | none => rfl
      | some param => cases more <;> rfl
    | sender on =>
      have hon : (Value.channel on).showable = true := by
        cases hv with
        | sender h => exact hends h
      refine Turn.gist_noting_of_showable ?_ _ _
      rw [Value.showable, Value.Obeys.showable hf, hon]
      rfl
    | _ => rfl
  | _ => rfl

/-- Tracing makes no difference to the act of a frame either. -/
lemma Frame.act?_untraced {f : Frame} {v : Value} (hf : f.Obeys (.proper also) i)
    (hv : v.Obeys (.proper also) i) (tracing : Bool) : f.act? tracing v = f.act? false v := by
  cases f with
  | call arg =>
    cases v with
    | sender on =>
      have hon : (Value.channel on).showable = true := by
        cases hv with
        | sender h =>
          obtain ⟨r, w, rfl⟩ := h
          rfl
      have hpair : (Value.pair arg (.channel on)).showable = true := by
        rw [Value.showable, Value.Obeys.showable hf, hon]
        rfl
      simp only [act?, hpair, Bool.or_true]
    | _ => rfl
  | _ => rfl

end Tracing

/-! ### Translated turns -/

lemma Frame.isSolid_under (f : Frame) : (f.under R).isSolid = f.isSolid := by cases f <;> rfl

lemma Stack.core_under (k : Stack) : Stack.core (k.under R) = k.core.under R := by
  unfold core under
  rw [List.filter_map]
  congr 2
  funext f
  exact f.isSolid_under

lemma Stack.under_append (fs k : Stack) : Stack.under R (fs ++ k) = fs.under R ++ k.under R :=
  List.map_append

lemma Recursion.under_zeroEnv (r : Recursion) (n : Nat) :
    (r.under R).zeroEnv n = Env.under R (r.zeroEnv n) := by
  unfold zeroEnv
  split
  · rfl
  · rw [Env.under_set]
    rfl

lemma Recursion.under_stepEnv (r : Recursion) (i : Nat) (acc : Value) :
    (r.under R).stepEnv i (acc.under R) = Env.under R (r.stepEnv i acc) := by
  simp only [stepEnv, Table.setAll, List.foldl, Env.under_set]
  rfl

section Turns

variable {n n' : Nat}

lemma Turn.gist_eval (e : Expr) (env : Env) (fs : Stack) :
    (Turn.eval e env fs).gist = .count (.eval e env :: fs.core) := rfl

lemma Turn.gist_eval_under (e : Expr) (env : Env) {fs fs' : Stack}
    (h : Stack.core fs' = Stack.under R fs.core) :
    (Turn.eval (R.expr e) (Env.under R env) fs').gist = (Turn.eval e env fs).gist.under R := by
  rw [gist_eval, gist_eval, h]
  rfl

lemma Turn.gist_worded_under (f : Fault) :
    (Turn.fault (f.under R).worded).gist = (Turn.fault f.worded).gist.under R := by
  rw [← Fault.under_worded]
  rfl

lemma Expr.gist_part_under (e e' a : Expr) (env : Env) (f : Frame) :
    (Turn.eval (R.expr a) (Env.under R env) [f.under R, e'.cover false]).gist =
      (Turn.eval a env [f, e.cover false]).gist.under R := by
  refine Turn.gist_eval_under a env ?_
  have hcover : ∀ g e, Stack.core [g, Expr.cover false e] = Stack.core [g] := by
    intro g e
    cases g <;> rfl
  rw [hcover, hcover]
  exact Stack.core_under [f]

lemma Global.call_under (g : Global) (env : Env) : (g.under R).call (Env.under R env) =
    match g.call env with
    | .value v => .value (v.under R)
    | .body b env => .body (R.expr b) (Env.under R env)
    | .fault f => .fault (f.under R) := by
  have hcall : ∀ ps, Global.call ⟨g.name, ps, R.expr g.body⟩ (Env.under R env) =
      match Global.call ⟨g.name, ps, g.body⟩ env with
      | .value v => .value (v.under R)
      | .body b env => .body (R.expr b) (Env.under R env)
      | .fault f => .fault (f.under R) := by
    intro ps
    cases ps with
    | error m => rfl
    | ok ps => cases ps <;> rfl
  exact hcall g.params

lemma Expr.gist_partsTurn_under (hR : R.Lawful) (e : Expr) (env : Env)
    (hn : e = .channel → R.queue n = n' ∧ R.queue (n + 1) = n' + 1) :
    ((R.expr e).partsTurn false n' (Env.under R env)).gist =
      (e.partsTurn false n env).gist.under R := by
  have hsmall : ∀ l, R.expr (.int l) = .int l := fun l => hR.node (.int l) (by simp)
  cases e with
  | fork a => rcases hR.fork a with h | h <;> rw [h] <;> rfl
  | unit | label | lambda | missing =>
    rw [hR.node _ (by simp)]
    rfl
  | unknown kind shown =>
    rw [hR.node _ (by simp)]
    exact Turn.gist_worded_under (.unexpected shown)
  | int l | nat l =>
    rw [hR.node _ (by simp)]
    simp only [mapParts, partsTurn]
    cases l.toInt <;> rfl
  | var name =>
    rw [hR.node _ (by simp)]
    simp only [mapParts, partsTurn, Env.find?_under]
    cases Table.find? env name with
    | none => exact Turn.gist_worded_under (.unboundVariable name)
    | some v =>
      cases v with
      | global g =>
        simp only [Option.map_some, Value.under, Global.call_under, Call.gist_refer]
        cases g.call env <;> rfl
      | _ => rfl
  | channel =>
    obtain ⟨hread, hwrite⟩ := hn rfl
    rw [hR.node _ (by simp)]
    simp only [mapParts, partsTurn, Turn.gist_after, gist_finish, Sequel.under, Stack.under,
      List.map_nil, Outcome.under, Translation.result, Value.under, Endpoint.under,
      Endpoint.partner, QueueId.under, hread, hwrite]
  | negate a | succ a =>
    rw [hR.node _ (by simp)]
    simp only [mapParts, partsTurn]
    -- the operand that is put in has no part to be translated
    nth_rewrite 1 [← hsmall]
    exact gist_part_under _ _ _ env (.leftOperand _ a env)
  | arith op a b =>
    rw [hR.node _ (by simp)]
    exact gist_part_under _ _ a env (.leftOperand op b env)
  | letIn x a b =>
    rw [hR.node _ (by simp)]
    exact gist_part_under _ _ a env (.letBody x b env)
  | letPair x y a b =>
    rw [hR.node _ (by simp)]
    exact gist_part_under _ _ a env (.letPairBody x y b env)
  | pair x a b =>
    rw [hR.node _ (by simp)]
    exact gist_part_under _ _ a env (.pairSecond x b env)
  | fst a =>
    rw [hR.node _ (by simp)]
    exact gist_part_under _ _ a env .takeFirst
  | snd a =>
    rw [hR.node _ (by simp)]
    exact gist_part_under _ _ a env .takeSecond
  | app a b =>
    rw [hR.node _ (by simp)]
    exact gist_part_under _ _ b env (.callee a env)
  | send a =>
    rw [hR.node _ (by simp)]
    exact gist_part_under _ _ a env .makeSender
  | recv a =>
    rw [hR.node _ (by simp)]
    exact gist_part_under _ _ a env .receive
  | caseOf a bs rest =>
    rw [hR.node _ (by simp)]
    exact gist_part_under _ _ a env (.branch bs rest env)
  | natRec a b x y c =>
    rw [hR.node _ (by simp)]
    exact gist_part_under _ _ a env (.recursionIndex ⟨b, x, y, c, env⟩)

lemma Value.gist_applyTurn_under (fn arg : Value) :
    ((fn.under R).applyTurn false (arg.under R)).gist =
      (fn.applyTurn false arg).gist.under R := by
  have hmismatch : ∀ v : Value,
      Sequel.hand [] (.error ((v.under R).mismatch .closure "application")) =
        (Sequel.hand [] (.error (v.mismatch .closure "application"))).under R :=
    fun v => congrArg (fun f => Sequel.hand [] (.error f)) (mismatch_under ..)
  cases fn with
  | function param more body env =>
    cases param with
    | none => rfl
    | some param =>
      cases more with
      | nil =>
        simp only [under, applyTurn]
        rw [← Env.under_set]
        exact Turn.gist_eval_under body _ rfl
      | cons p ps =>
        simp only [under, applyTurn]
        rw [← Env.under_set]
        rfl
  | sender on => rfl
  | identity => rfl
  | _ => exact hmismatch _

/-- **What is translated takes the translated turn**, as far as what it comes to. The number of
queues only matters to a new channel, which takes the next two. -/
theorem Frame.gist_turn_under (hR : R.Lawful) (f : Frame) (v : Value)
    (hn : ∀ env, f = .eval .channel env → R.queue n = n' ∧ R.queue (n + 1) = n' + 1) :
    ((f.under R).turn false n' (v.under R)).gist = (f.turn false n v).gist.under R := by
  have hfault : ∀ f : Fault, (Turn.fault (f.under R)).gist = (Turn.fault f).gist.under R :=
    fun _ => rfl
  cases f with
  | eval e env =>
    simp only [under, turn, Expr.gist_turn_untraced]
    exact Expr.gist_partsTurn_under hR e env fun he => hn env (he ▸ rfl)
  | leftOperand op e env =>
    simp only [under, turn, Value.asInt_under]
    exact Turn.gist_ofExcept_under _ fun a => Turn.gist_eval_under e env rfl
  | rightOperand op a =>
    simp only [under, turn, Value.asInt_under]
    refine Turn.gist_ofExcept_under _ fun b => ?_
    -- arithmetic knows of neither queues nor code
    have happly : op.apply a b = R.result id (op.apply a b) := by
      cases op with
      | div =>
        simp only [ArithOp.apply]
        split <;> rfl
      | _ => rfl
    simp only [id]
    nth_rewrite 1 [happly]
    exact Turn.gist_ofExcept_under _ fun c => rfl
  | letBody x e env =>
    simp only [under, turn]
    rw [← Env.under_set]
    exact Turn.gist_eval_under e _ rfl
  | letPairBody x y e env =>
    simp only [under, turn, Value.asPair_under]
    refine Turn.gist_ofExcept_under _ fun p => ?_
    simp only [Table.setAll, List.foldl]
    rw [← Env.under_set, ← Env.under_set]
    exact Turn.gist_eval_under e _ rfl
  | pairSecond x e env =>
    simp only [under, turn]
    rw [← Env.under_set]
    exact Turn.gist_eval_under e _ rfl
  | takeFirst | takeSecond =>
    simp only [under, turn, Value.asPair_under]
    exact Turn.gist_ofExcept_under _ fun p => rfl
  | callee e env => exact Turn.gist_eval_under e env rfl
  | call arg => exact Value.gist_applyTurn_under v arg
  | branch bs rest env =>
    simp only [under, turn, Value.asLabel_under]
    refine Turn.gist_ofExcept_under _ fun name => ?_
    simp only [id, Table.find?_mapVal, List.map_map]
    cases Table.find? bs name with
    | some body => exact Turn.gist_eval_under body env rfl
    | none =>
      cases rest with
      | some m => rfl
      | none => exact Turn.gist_worded_under (.noMatchingCase name (bs.map (·.1)))
  | makeSender | receive =>
    simp only [under, turn, Value.asChannel_under]
    exact Turn.gist_ofExcept_under _ fun e => rfl
  | recursionIndex r =>
    simp only [under, turn, Value.asInt_under]
    refine Turn.gist_ofExcept_under _ fun i => ?_
    simp only [id]
    split
    · rfl
    · rw [Recursion.under_zeroEnv]
      exact Turn.gist_eval_under r.zero _ rfl
  | recursionRound r i upTo =>
    simp only [under, turn]
    split
    · rw [Recursion.under_stepEnv]
      exact Turn.gist_eval_under r.step _ rfl
    · rfl
  | _ => rfl

end Turns

/-! ### Renamings -/

def Translation.ofQueues (ρ : Nat → Nat) : Translation := ⟨id, ρ⟩

lemma Translation.lawful_ofQueues (ρ : Nat → Nat) : (ofQueues ρ).Lawful where
  node e _ := e.mapParts_id.symm
  fork _ := .inl rfl

def Deed.under (R : Translation) : Deed → Deed
  | .send on v => .send (on.under R) (v.under R)
  | .fork e env => .fork (R.expr e) (Env.under R env)
  | d => d

lemma Frame.act?_under (ρ : Nat → Nat) (f : Frame) (v : Value) :
    (f.under (.ofQueues ρ)).act? false (v.under (.ofQueues ρ)) =
      (f.act? false v).map (Deed.under (.ofQueues ρ)) := by
  cases f with
  | eval e env => cases e <;> rfl
  | call arg => cases v <;> rfl
  | _ => rfl

section Renaming

variable (ρ σ : Nat → Nat)

lemma QueueId.under_under (q : QueueId) :
    (q.under (.ofQueues ρ)).under (.ofQueues σ) = q.under (.ofQueues (σ ∘ ρ)) := by
  cases q <;> rfl

lemma Endpoint.under_under (e : Endpoint) :
    (e.under (.ofQueues ρ)).under (.ofQueues σ) = e.under (.ofQueues (σ ∘ ρ)) := by
  simp only [under, QueueId.under_under]

mutual

lemma Value.under_under : ∀ v : Value,
    (v.under (.ofQueues ρ)).under (.ofQueues σ) = v.under (.ofQueues (σ ∘ ρ))
  | .unit | .label _ | .int _ | .identity | .global _ => rfl
  | .pair a b => by simp only [Value.under, Value.under_under a, Value.under_under b]
  | .function param more body env => by
    simp only [Value.under, Env.under_under env]
    rfl
  | .sender on => by simp only [Value.under, Endpoint.under_under]
  | .channel e => by simp only [Value.under, Endpoint.under_under]

lemma Env.under_under : ∀ env : List (Atom × Value),
    Env.under (.ofQueues σ) (Env.under (.ofQueues ρ) env) = Env.under (.ofQueues (σ ∘ ρ)) env
  | [] => rfl
  | (name, v) :: rest => by simp only [Env.under, Value.under_under v, Env.under_under rest]

end

mutual

lemma Value.under_id : ∀ v : Value, v.under (.ofQueues id) = v
  | .unit | .label _ | .int _ | .identity | .global _ => rfl
  | .pair a b => by simp only [Value.under, Value.under_id a, Value.under_id b]
  | .function param more body env => by
    simp only [Value.under, Env.under_id env]
    rfl
  | .sender ⟨read, write⟩ => by cases read <;> cases write <;> rfl
  | .channel ⟨read, write⟩ => by cases read <;> cases write <;> rfl

lemma Env.under_id : ∀ env : List (Atom × Value), Env.under (.ofQueues id) env = env
  | [] => rfl
  | (name, v) :: rest => by simp only [Env.under, Value.under_id v, Env.under_id rest]

end

lemma Outcome.under_under (o : Outcome) :
    Outcome.under (.ofQueues σ) (Outcome.under (.ofQueues ρ) o) =
      Outcome.under (.ofQueues (σ ∘ ρ)) o := by
  cases o with
  | ok v => exact congrArg Except.ok (v.under_under ρ σ)
  | error f =>
    cases f with
    | typeMismatch expected got context =>
      exact congrArg (fun v => Except.error (Fault.typeMismatch expected v context))
        (got.under_under ρ σ)
    | _ => rfl

lemma Outcome.under_id (o : Outcome) : Outcome.under (.ofQueues id) o = o := by
  cases o with
  | ok v => exact congrArg Except.ok v.under_id
  | error f =>
    cases f with
    | typeMismatch expected got context =>
      exact congrArg (fun v => Except.error (Fault.typeMismatch expected v context)) got.under_id
    | _ => rfl

end Renaming

end Parley
