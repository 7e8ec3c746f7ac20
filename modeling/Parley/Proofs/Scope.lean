import Parley.Proofs.Budget
import Parley.Proofs.Declarations

/-!
Where globals are found in a run.

A global is no value. It is found in environments only, under the name of a declaration, and a
reference to the name evaluates it anew. Every environment of a run is that of the program with
bindings written over it, and each of them was made earlier in the run by a let, a pair, a match
on a pair, an application or a round of a recursion. What is bound so is a value. Hence a name
that is bound locally stands for that very value, and any other name for its last declaration.

Environments are inside functions, and functions inside environments; so what is said of them is
said of everything in a machine at once, and kept by a pairing of a machine with itself.
-/

namespace Parley

/-! ### Bindings -/

/-- The names that a frame binds when it is handed a value, the last of them last. -/
def Frame.binds (f : Frame) (v : Value) : List (Atom × Value) :=
  match f, v with
  | .letBody x _ _, v | .pairSecond x _ _, v => [(x, v)]
  | .letPairBody first second _ _, .pair a b => [(second, b), (first, a)]
  | .call arg, .function (some param) _ _ _ => [(param, arg)]
  | .recursionIndex r, .int i => if 0 < i then [(r.counter, .int 0)] else []
  | .recursionRound r i n, v => if i ≤ n then [(r.acc, v), (r.counter, .int i)] else []
  | _, _ => []

def Machine.binds (m : Machine) : List (Atom × Value) :=
  match m.jobs with
  | ⟨.ok v, f :: _⟩ :: _ => f.binds v
  | _ => []

/-! ### Everything in a machine -/

/-- There is no global in a value, except in the environments of functions, and `P` holds of all of
these. -/
inductive Value.Within (P : Env → Prop) : Value → Prop
  | unit : Within P .unit
  | label (x : Atom) : Within P (.label x)
  | int (i : Int) : Within P (.int i)
  | pair {a b : Value} (first : Within P a) (second : Within P b) : Within P (.pair a b)
  | function {param : Param} {more : List Param} {body : Expr} {env : List (Atom × Value)}
      (ambient : P env) (values : ∀ b ∈ env, (∀ g, b.2 ≠ .global g) → Within P b.2) :
      Within P (.function param more body env)
  | sender (on : Endpoint) : Within P (.sender on)
  | identity : Within P .identity
  | channel (e : Endpoint) : Within P (.channel e)

structure Env.Within (P : Env → Prop) (env : Env) : Prop where
  ambient : P env
  values : ∀ b ∈ env, (∀ g, b.2 ≠ .global g) → b.2.Within P

section

variable (P : Env → Prop)

def Fault.Within : Fault → Prop
  | .typeMismatch _ v _ => v.Within P
  | _ => True

def Outcome.Within : Outcome → Prop
  | .ok v => v.Within P
  | .error f => f.Within P

/-- Tasks given from outside have no place in the run of a program. -/
def Frame.Within : Frame → Prop
  | .eval _ env | .leftOperand _ _ env | .letBody _ _ env | .letPairBody _ _ _ env
  | .pairSecond _ _ env | .callee _ env | .branch _ _ env => Env.Within P env
  | .pairUp v | .call v => v.Within P
  | .recursionIndex r | .recursionRound r _ _ => Env.Within P r.env
  | .steps _ _ | .take _ | .strand => False
  | _ => True

def Note.Within : Note → Prop
  | .enter _ => True
  | .leave _ v | .sent v _ | .received v _ | .finished _ v => v.Within P
  | .failed _ f => f.Within P

structure Machine.Within (m : Machine) : Prop where
  jobs : ∀ j ∈ m.jobs, j.outcome.Within P ∧ ∀ f ∈ j.stack, f.Within P
  parked : ∀ k ∈ m.parked, ∀ f ∈ k, f.Within P
  messages : ∀ e ∈ m.queues, ∀ v ∈ e.2.buffer, v.Within P
  receivers : ∀ e ∈ m.queues, ∀ k ∈ e.2.waiting, ∀ f ∈ k, f.Within P
  failures : ∀ e ∈ m.tasks.failures, e.2.Within P
  awaiting : ∀ w ∈ m.awaiting, ∀ f ∈ w.2, f.Within P
  log : ∀ t ∈ m.log, t.Within P
  events : ∀ e ∈ m.events, e.outcome.Within P

end

variable {P Q : Env → Prop} {v : Value} {env : Env}

lemma Value.Within.ne_global (h : v.Within P) (g : Global) : v ≠ .global g := by
  rintro rfl
  cases h

lemma Value.Within.mono (hPQ : ∀ env, P env → Q env) (h : v.Within P) : v.Within Q := by
  induction h with
  | unit => exact .unit
  | label x => exact .label x
  | int i => exact .int i
  | pair _ _ iha ihb => exact .pair iha ihb
  | function ambient _ ih => exact .function (hPQ _ ambient) ih
  | sender on => exact .sender on
  | identity => exact .identity
  | channel e => exact .channel e

namespace Env.Within

lemma mono (hPQ : ∀ env, P env → Q env) (h : Env.Within P env) : Env.Within Q env :=
  ⟨hPQ env h.ambient, fun b hb hg => (h.values b hb hg).mono hPQ⟩

lemma setAll (h : Env.Within Q env) (bs : List (Atom × Value)) (hbs : ∀ b ∈ bs, b.2.Within Q)
    (hQ : Q (Table.setAll env bs)) : Env.Within Q (Table.setAll env bs) := by
  refine ⟨hQ, fun b hb hg => ?_⟩
  rcases Table.mem_of_mem_setAll hb with hb | hb
  · exact h.values b hb hg
  · exact hbs b hb

lemma function (h : Env.Within P env) (param : Param) (more : List Param) (body : Expr) :
    (Value.function param more body env).Within P :=
  .function h.ambient h.values

end Env.Within

lemma Fault.Within.worded {f : Fault} (h : f.Within P) : f.worded.Within P := by
  unfold Fault.worded
  split
  · exact h
  · trivial

lemma Fault.Within.mono (hPQ : ∀ env, P env → Q env) {f : Fault} (h : f.Within P) :
    f.Within Q := by
  cases f with
  | typeMismatch => exact Value.Within.mono hPQ h
  | _ => trivial

lemma Frame.Within.mono (hPQ : ∀ env, P env → Q env) {f : Frame} (h : f.Within P) :
    f.Within Q := by
  cases f with
  | eval | leftOperand | letBody | letPairBody | pairSecond | callee | branch | recursionIndex
  | recursionRound => exact Env.Within.mono hPQ h
  | pairUp | call => exact Value.Within.mono hPQ h
  | steps | take | strand => exact h.elim
  | _ => trivial

lemma Frame.Within.not_isScripted {f : Frame} (h : f.Within P) : ¬ f.IsScripted := by
  cases f with
  | steps | take | strand => exact h.elim
  | _ => exact id

/-- The complaint about a value of another variant speaks of the value. -/
lemma Value.Within.as_fault (hv : v.Within P) {s : String} {f : Fault}
    (h : v.asInt s = .error f ∨ v.asPair s = .error f ∨ v.asLabel s = .error f ∨
      v.asChannel s = .error f) : f.Within P := by
  have hmismatch : ∀ k, (v.mismatch k s).Within P := fun k => Fault.Within.worded hv
  rcases h with h | h | h | h
  all_goals
    cases v <;>
      simp only [asInt, asPair, asLabel, asChannel, Except.error.injEq, reduceCtorEq] at h <;>
      exact h ▸ hmismatch _

/-! ### A machine beside itself -/

def Pairing.within (P : Env → Prop) : Pairing where
  value v v' := v' = v ∧ v.Within P
  fault f f' := f' = f ∧ f.Within P
  frame f f' := f' = f ∧ f.Within P

namespace Pairing

lemma lawful_within : (within P).Lawful where
  unit := ⟨rfl, .unit⟩
  limit _ := ⟨rfl, trivial⟩
  noText := ⟨rfl, trivial⟩
  showable h := by rw [h.1]
  bottom h _ := h.1
  unscripted h := by
    obtain ⟨rfl, hf⟩ := h
    exact ⟨hf.not_isScripted, hf.not_isScripted⟩

lemma within_refines (hPQ : ∀ env, P env → Q env) : (within P).Refines (within Q) :=
  ⟨fun h => ⟨h.1, h.2.mono hPQ⟩, fun h => ⟨h.1, h.2.mono hPQ⟩, fun h => ⟨h.1, h.2.mono hPQ⟩⟩

lemma within_stack {k : Stack} : (within P).stack k k ↔ ∀ f ∈ k, f.Within P :=
  List.forall₂_same.trans (by simp only [within, true_and])

lemma within_outcome {o : Outcome} (h : Except.Tied (within P).fault (within P).value o o) :
    o.Within P := by
  cases h with
  | ok hv => exact hv.2
  | error hf => exact hf.2

end Pairing

/-- What it means that a machine corresponds to itself. -/
lemma Machine.Tied.within {m : Machine} (h : m.Tied (Pairing.within P).tie m) : m.Within P where
  jobs j hj := by
    obtain ⟨ho, hk⟩ := List.forall₂_same.mp h.jobs j hj
    exact ⟨Pairing.within_outcome ho, Pairing.within_stack.mp hk⟩
  parked k hk := Pairing.within_stack.mp (List.forall₂_same.mp h.parked k hk)
  messages e he v hv := (List.forall₂_same.mp (List.forall₂_same.mp h.queues e he).2.buffer v hv).2
  receivers e he k hk := by
    have hqueue := (List.forall₂_same.mp h.queues e he).2
    exact Pairing.within_stack.mp (List.forall₂_same.mp hqueue.waiting k hk)
  failures e he := (List.forall₂_same.mp h.tasks.failures e he).2.2
  awaiting w hw := absurd (h.awaiting.1 ▸ hw) List.not_mem_nil
  log t ht := by
    have hnote := List.forall₂_same.mp h.log t ht.val
    cases hnote with
    | enter => trivial
    | leave _ hv | sent hv | received hv | finished _ hv => exact hv.2
    | failed _ hf => exact hf.2
  events e he := Pairing.within_outcome (List.forall₂_same.mp h.events e he.val).2

/-! ### Turns -/

namespace Pairing

variable {k : Stack} {tracing : Bool} {e : Expr}

lemma cover_within : (e.cover tracing).Within P := by
  unfold Expr.cover
  split <;> trivial

lemma within_finish (hk : (within P).stack k k) (hv : v.Within P) :
    (within P).tie.turn k k (e.finish tracing v) (e.finish tracing v) := by
  refine turn_hand hk (within_stack.mpr ?_) ⟨rfl, hv⟩
  unfold Expr.residue
  split <;> simp [Frame.Within]

lemma within_refer (hk : (within P).stack k k) (henv : Env.Within P env) (g : Global) :
    (within P).tie.turn k k ((g.call env).refer tracing e) ((g.call env).refer tracing e) := by
  unfold Global.call
  split
  · exact turn_fault hk ⟨rfl, trivial⟩
  · exact turn_eval hk ⟨rfl, henv⟩ (.cons ⟨rfl, cover_within⟩ .nil)
  · refine turn_hand hk (within_stack.mpr ?_) ⟨rfl, henv.function ..⟩
    split <;> simp [Frame.Within]

lemma within_parts (hk : (within P).stack k k) (henv : Env.Within P env) (n : Nat) :
    (within P).tie.turn k k (e.partsTurn tracing n env) (e.partsTurn tracing n env) := by
  have hpart : ∀ a {f : Frame}, f.Within P → (within P).tie.turn k k
      (.eval a env [f, e.cover tracing]) (.eval a env [f, e.cover tracing]) := fun a f hf =>
    turn_eval hk ⟨rfl, henv⟩ (.cons ⟨rfl, hf⟩ (.cons ⟨rfl, cover_within⟩ .nil))
  cases e with
  | unit => exact within_finish hk .unit
  | label x => exact within_finish hk (.label x)
  | lambda x a => exact within_finish hk (henv.function ..)
  | int l | nat l =>
    simp only [Expr.partsTurn]
    split
    · exact within_finish hk (.int _)
    · exact turn_fault hk ⟨rfl, trivial⟩
  | var x =>
    simp only [Expr.partsTurn]
    split
    · exact within_refer hk henv _
    · next v hne hv => exact within_finish hk (henv.values _ (Table.mem_of_find? hv) hne)
    · exact turn_fault hk ⟨rfl, Fault.Within.worded trivial⟩
  | fork a =>
    refine turn_after (.fork fun task serial => ?_) (within_finish hk .unit)
    exact .cons ⟨rfl, henv⟩ (.cons ⟨rfl, trivial⟩ .nil)
  | channel => exact turn_after .channel (within_finish hk (.pair (.channel _) (.channel _)))
  | unknown kind shown => exact turn_fault hk ⟨rfl, Fault.Within.worded trivial⟩
  | missing g => exact turn_fault hk ⟨rfl, trivial⟩
  | arith | negate | succ | letIn | letPair | pair | app | caseOf | natRec => exact hpart _ henv
  | fst | snd | send | recv => exact hpart _ trivial

lemma within_expr (hk : (within P).stack k k) (henv : Env.Within P env) (n : Nat) :
    (within P).tie.turn k k (e.turn tracing n env) (e.turn tracing n env) := by
  have hparts : (within P).tie.turn k k (e.partsTurn tracing n env) (e.partsTurn tracing n env) :=
    within_parts hk henv n
  unfold Expr.turn
  split
  · exact hparts
  · exact turn_after (.note (.enter _)) hparts
  · split
    · exact turn_fault hk ⟨rfl, trivial⟩
    · exact hparts

lemma within_as {α : Type} (hk : (within P).stack k k) {r : Except Fault α}
    (hr : ∀ f, r = .error f → f.Within P) {next : α → Turn}
    (hnext : ∀ a, r = .ok a → (within P).tie.turn k k (next a) (next a)) :
    (within P).tie.turn k k (.ofExcept r next) (.ofExcept r next) := by
  cases r with
  | ok a => exact hnext a rfl
  | error f => exact turn_fault hk ⟨rfl, hr f rfl⟩

lemma within_apply (hk : (within Q).stack k k) {fn arg : Value} (hfn : fn.Within Q)
    (harg : arg.Within Q) (hQ : ∀ param more body env, fn = .function (some param) more body env →
      Q (Table.set env param arg)) :
    (within Q).tie.turn k k (fn.applyTurn tracing arg) (fn.applyTurn tracing arg) := by
  have hpasses : (within Q).stack [.pass, .pass] [.pass, .pass] :=
    within_stack.mpr (by simp [Frame.Within])
  have hmismatch : (fn.mismatch .closure "application").Within Q := Fault.Within.worded hfn
  cases hfn with
  | @function param more body env hP hvalues =>
    have henv : Env.Within Q env := ⟨hP, hvalues⟩
    cases param with
    | none => exact turn_fault hk ⟨rfl, trivial⟩
    | some param =>
      have hset : Env.Within Q (Table.set env param arg) :=
        henv.setAll [(param, arg)] (by simpa using harg) (hQ param more body env rfl)
      cases more with
      | nil => exact turn_eval hk ⟨rfl, hset⟩ (within_stack.mpr (by simp [Frame.Within]))
      | cons p ps => exact turn_hand hk hpasses ⟨rfl, hset.function ..⟩
  | sender on =>
    refine turn_noting hk lawful_within ⟨rfl, harg.pair (.channel on)⟩ (.send on ⟨rfl, harg⟩) ?_
    exact turn_hand hk hpasses ⟨rfl, .channel on⟩
  | identity => exact turn_hand hk hpasses ⟨rfl, harg⟩
  | _ => exact turn_fault hk ⟨rfl, hmismatch⟩

/-- **A turn makes no environment but by binding names**, and nothing else that could hold a
global. -/
theorem within_turn (hPQ : ∀ env, P env → Q env) (hk : (within Q).stack k k) {f : Frame}
    (hf : f.Within P) (hv : v.Within P) (hQ : ∀ env, P env → Q (Table.setAll env (f.binds v)))
    (n : Nat) : (within Q).tie.turn k k (f.turn tracing n v) (f.turn tracing n v) := by
  have hvQ : v.Within Q := hv.mono hPQ
  have hfQ : f.Within Q := hf.mono hPQ
  have hnil : (within Q).stack [] [] := .nil
  have hpass : (within Q).stack [.pass] [.pass] := .cons ⟨rfl, trivial⟩ .nil
  have hbind : ∀ {env}, Env.Within P env → (∀ b ∈ f.binds v, b.2.Within Q) →
      Env.Within Q (Table.setAll env (f.binds v)) := fun henv hbs =>
    (henv.mono hPQ).setAll _ hbs (hQ _ henv.ambient)
  cases f with
  | pass | settle | report => exact turn_hand hk hnil ⟨rfl, hvQ⟩
  | eval e env => exact within_expr hk hfQ n
  | leave caption =>
    exact turn_noting hk lawful_within ⟨rfl, hvQ⟩ (.note (.leave caption ⟨rfl, hvQ⟩))
      (turn_hand hk hnil ⟨rfl, hvQ⟩)
  | leftOperand op right env =>
    refine within_as hk (fun f hf => hvQ.as_fault (.inl hf)) fun a _ => ?_
    exact turn_eval hk ⟨rfl, hfQ⟩ (.cons ⟨rfl, trivial⟩ .nil)
  | rightOperand op a =>
    refine within_as hk (fun f hf => hvQ.as_fault (.inl hf)) fun b _ => ?_
    refine within_as hk (fun f hf => ?_) fun c _ => turn_hand hk hnil ⟨rfl, .int c⟩
    -- only a division faults, and there is no value in its fault
    cases op <;> simp only [ArithOp.apply, reduceCtorEq] at hf
    split at hf
    · cases hf
      trivial
    · cases hf
  | letBody x body env =>
    have hset := hbind hf (by simpa [Frame.binds] using hvQ)
    exact turn_eval hk ⟨rfl, hset⟩ hpass
  | letPairBody x y body env =>
    refine within_as hk (fun f hf => hvQ.as_fault (.inr (.inl hf))) fun p hp => ?_
    cases hvQ with
    | pair ha hb =>
      cases hp
      have hset := hbind hf (by simpa [Frame.binds] using ⟨hb, ha⟩)
      exact turn_eval hk ⟨rfl, hset⟩ hpass
    | _ => cases hp
  | pairSecond x second env =>
    have hset := hbind hf (by simpa [Frame.binds] using hvQ)
    exact turn_eval hk ⟨rfl, hset⟩ (.cons ⟨rfl, hvQ⟩ .nil)
  | pairUp first => exact turn_hand hk hnil ⟨rfl, .pair hfQ hvQ⟩
  | takeFirst | takeSecond =>
    refine within_as hk (fun f hf => hvQ.as_fault (.inr (.inl hf))) fun p hp => ?_
    cases hvQ with
    | pair ha hb =>
      cases hp
      exact turn_hand hk hnil ⟨rfl, by assumption⟩
    | _ => cases hp
  | callee fn env => exact turn_eval hk ⟨rfl, hfQ⟩ (.cons ⟨rfl, hvQ⟩ .nil)
  | call arg =>
    refine within_apply hk hvQ hfQ fun param more body env hfn => ?_
    subst hfn
    cases hv with
    | function ambient => exact hQ env ambient
  | branch bs rest env =>
    refine within_as hk (fun f hf => hvQ.as_fault (.inr (.inr (.inl hf)))) fun name _ => ?_
    split
    · exact turn_eval hk ⟨rfl, hfQ⟩ hpass
    · exact turn_fault hk ⟨rfl, trivial⟩
    · exact turn_fault hk ⟨rfl, Fault.Within.worded trivial⟩
  | makeSender =>
    refine within_as hk (fun f hf => hvQ.as_fault (.inr (.inr (.inr hf)))) fun on _ => ?_
    exact turn_hand hk hnil ⟨rfl, .sender on⟩
  | receive =>
    refine within_as hk (fun f hf => hvQ.as_fault (.inr (.inr (.inr hf)))) fun on _ => ?_
    exact ⟨.nil, .receive (.cons ⟨rfl, trivial⟩ hk)⟩
  | received on =>
    have hself : (within Q).tie.value v v := ⟨rfl, hvQ⟩
    have hpair : (Value.pair v (.channel on)).Within Q := .pair hvQ (.channel on)
    exact turn_noting hk lawful_within ⟨rfl, hpair⟩ (.note (.received hself on))
      (turn_hand hk hnil ⟨rfl, hpair⟩)
  | recursionIndex r =>
    refine within_as hk (fun f hf => hvQ.as_fault (.inl hf)) fun i hi => ?_
    split
    · exact turn_fault hk ⟨rfl, trivial⟩
    · next hneg =>
      refine turn_eval hk ⟨rfl, ?_⟩ (.cons ⟨rfl, hfQ⟩ .nil)
      obtain rfl : v = .int i := by
        cases v <;> cases hi
        rfl
      have hzero := hbind hf (by simp only [Frame.binds]; split <;> simp [Value.Within.int])
      -- above zero the counter is bound for the zero case, at zero it is not
      have henv : r.zeroEnv i.toNat =
          Table.setAll r.env (Frame.binds (.recursionIndex r) (.int i)) := by
        simp only [Recursion.zeroEnv, Frame.binds]
        by_cases hpos : 0 < i
        · rw [if_pos hpos, if_neg (by omega)]
          rfl
        · rw [if_neg hpos, if_pos (by omega)]
          rfl
      rw [henv]
      exact hzero
  | recursionRound r i upTo =>
    simp only [Frame.turn]
    split
    · next hi =>
      refine turn_eval hk ⟨rfl, ?_⟩ (.cons ⟨rfl, hfQ⟩ .nil)
      have hset := hbind hf (by simp [Frame.binds, hi, hvQ, Value.Within.int])
      simp only [Frame.binds, if_pos hi] at hset
      exact hset
    · exact turn_hand hk hnil ⟨rfl, hvQ⟩
  | steps | take | strand => exact hf.elim

end Pairing

/-! ### Runs -/

lemma Frame.binds_within {f : Frame} (hf : f.Within P) (hv : v.Within P) :
    ∀ b ∈ f.binds v, b.2.Within P := by
  unfold Frame.binds
  split
  · simpa using hv
  · simpa using hv
  · cases hv with
    | pair ha hb => simpa using ⟨hb, ha⟩
  · intro b hb
    rw [List.mem_singleton.mp hb]
    exact hf
  · split <;> simp [Value.Within.int]
  · split <;> simp [hv, Value.Within.int]
  · simp

lemma Machine.Within.binds {m : Machine} (h : m.Within P) : ∀ b ∈ m.binds, b.2.Within P := by
  unfold Machine.binds
  split
  · next v f k rest hj =>
    obtain ⟨hv, hk⟩ := h.jobs _ (hj ▸ List.mem_cons_self ..)
    exact Frame.binds_within (hk f (List.mem_cons_self ..)) hv
  · simp

namespace Program

section

variable (policy : Policy) (p : Program) (n : Nat)

/-- A name was bound to a value in one of the first `n` steps of a run. -/
def Bound (b : Atom × Value) : Prop := ∃ i < n, b ∈ (p.after policy i).binds

/-- The environment of a program with bindings from the first `n` steps of a run written over
it. -/
def Extended (env : Env) : Prop :=
  ∃ bs, env = Table.setAll p.globals bs ∧ ∀ b ∈ bs, p.Bound policy n b

end

variable {policy : Policy} {p : Program} {n : Nat}

lemma policy_after : (p.after policy n).policy = policy :=
  (Machine.policy_iterate Discipline.lawful_any (Machine.Starts.program p).inOrder.obeys n).trans
    ((Source.program p).policy_start policy)

lemma extended_globals : p.Extended policy n p.globals := ⟨[], rfl, by simp⟩

lemma Extended.mono (h : p.Extended policy n env) : p.Extended policy (n + 1) env := by
  obtain ⟨bs, henv, hbs⟩ := h
  refine ⟨bs, henv, fun b hb => ?_⟩
  obtain ⟨i, hi, hb⟩ := hbs b hb
  exact ⟨i, hi.trans (Nat.lt_succ_self n), hb⟩

/-- The bindings of the next step are written over what there is. -/
lemma Extended.bind (h : p.Extended policy n env) :
    p.Extended policy (n + 1) (Table.setAll env (p.after policy n).binds) := by
  obtain ⟨bs, rfl, hbs⟩ := h.mono
  refine ⟨bs ++ (p.after policy n).binds, (List.foldl_append ..).symm, fun b hb => ?_⟩
  rcases List.mem_append.mp hb with hb | hb
  · exact hbs b hb
  · exact ⟨n, Nat.lt_succ_self n, hb⟩

lemma tied_start : (p.after policy 0).Tied (Pairing.within (p.Extended policy 0)).tie
    (p.after policy 0) := by
  have hT := (Pairing.lawful_within (P := p.Extended policy 0)).tie
  have hglobals : Env.Within (p.Extended policy 0) p.globals := by
    refine ⟨extended_globals, fun b hb hg => ?_⟩
    obtain ⟨g, -, rfl⟩ := mem_globals hb
    exact absurd rfl (hg g)
  have hfresh : Machine.Tied (Pairing.within (p.Extended policy 0)).tie { policy } { policy } :=
    .fresh policy .nil .nil
  have hstack : ∀ fs : Stack, (∀ f ∈ fs, f = .pass) →
      (Pairing.within (p.Extended policy 0)).stack (fs ++ [.report 0]) (fs ++ [.report 0]) := by
    intro fs hfs
    refine Pairing.within_stack.mpr fun f hf => ?_
    rcases List.mem_append.mp hf with hf | hf
    · rw [hfs f hf]
      trivial
    · rw [List.mem_singleton.mp hf]
      trivial
  have hstart : p.after policy 0 = ({ policy } : Machine).startProgram p [.report 0] := rfl
  rw [hstart]
  unfold Machine.startProgram
  split
  · next g _ =>
    -- parameters that cannot be read, none, or some
    unfold Global.call
    split
    · exact hfresh.resume hT (hstack [] (by simp)) (.error ⟨rfl, trivial⟩)
    · exact hfresh.check hT (.cons ⟨rfl, hglobals⟩ (hstack [.pass] (by simp)))
    · exact hfresh.resume hT (hstack [.pass, .pass] (by simp)) (.ok ⟨rfl, hglobals.function ..⟩)
  · exact hfresh.resume hT (hstack [] (by simp)) (.error ⟨rfl, trivial⟩)

variable (policy p n) in
/-- **All that a run makes is within its bindings.** -/
theorem within_after : (p.after policy n).Within (p.Extended policy n) := by
  suffices h : (p.after policy n).Tied (Pairing.within (p.Extended policy n)).tie
      (p.after policy n) from h.within
  induction n with
  | zero => exact tied_start
  | succ n ih =>
    have hmono : ∀ env, p.Extended policy n env → p.Extended policy (n + 1) env :=
      fun env henv => henv.mono
    have hstep : p.after policy (n + 1) = (p.after policy n).step :=
      Function.iterate_succ_apply' ..
    rw [hstep]
    refine ih.lockstep Pairing.lawful_within Pairing.lawful_within (Pairing.within_refines hmono)
      fun {f f' v v' k k' rest rest'} hj hj' hk tracing queues => ?_
    have hsame := hj.symm.trans hj'
    simp only [List.cons.injEq, Job.mk.injEq, Except.ok.injEq] at hsame
    obtain ⟨⟨rfl, rfl, rfl⟩, -⟩ := hsame
    obtain ⟨hv, hstack⟩ := ih.within.jobs _ (hj ▸ List.mem_cons_self ..)
    have hbinds : (p.after policy n).binds = f.binds v := by simp only [Machine.binds, hj]
    exact Pairing.within_turn hmono hk (hstack f (List.mem_cons_self ..)) hv
      (fun env henv => hbinds ▸ henv.bind) queues

lemma Bound.ne_global {b : Atom × Value} (h : p.Bound policy n b) (g : Global) :
    b.2 ≠ .global g := by
  obtain ⟨i, -, hb⟩ := h
  exact ((p.within_after policy i).binds b hb).ne_global g

/-- A global in an environment is the last declaration of its name. -/
lemma Extended.last?_of_mem (h : p.Extended policy n env) {x : Atom} {g : Global}
    (hg : (x, .global g) ∈ env) : p.last? x = some g := by
  obtain ⟨bs, rfl, hbs⟩ := h
  rcases Table.mem_of_mem_setAll hg with hg | hg
  · exact last?_of_mem_globals hg
  · exact absurd rfl ((hbs _ hg).ne_global g)

end Program

/-! ### Names -/

/-- The next step hands a value on to the frames `k`: above them there are only frames that hand
it on as it is, and nothing is evaluated for it. -/
def Machine.HandsOn (m : Machine) (w : Value) (k : Stack) (rest : List Job) : Prop :=
  ∃ fs : Stack, (∀ f ∈ fs, f.IsPlain) ∧ m.step.jobs = rest ++ [⟨.ok w, fs ++ k⟩] ∧
    m.step.steps = m.steps

lemma Machine.handsOn_of_find? {D : Discipline} {m : Machine} (hm : m.Obeys D) {x : Atom}
    {k : Stack} {rest : List Job} (hj : m.jobs = ⟨.ok v, .eval (.var x) env :: k⟩ :: rest)
    {w : Value} (hw : Table.find? env x = some w) (hg : ∀ g, w ≠ .global g)
    (hx : m.policy.tracing = true → x.showable = true) : m.HandsOn w k rest := by
  have hparts : (Expr.var x).partsTurn m.policy.tracing m.allocated env =
      (Expr.var x).finish m.policy.tracing w := by
    simp only [Expr.partsTurn, hw]
  refine ⟨(Expr.var x).residue m.policy.tracing, (Frame.Takes.residue_isPlain _ _).1, ?_⟩
  rw [← (Moves.turn hj id).eq_step hm]
  simp only [Frame.turn, Expr.turn, hparts]
  cases hcaption : (Expr.var x).caption? with
  | some caption =>
    have hjobs := (trace_same { m with jobs := rest } (.enter caption)).1
    exact ⟨congrArg (· ++ _) hjobs, steps_trace ..⟩
  | none =>
    have htracing : m.policy.tracing = false := by
      by_contra h
      have hshown := hx (Bool.eq_true_of_not_eq_false h)
      rw [Expr.caption?, Option.map_eq_none_iff] at hcaption
      simp [Atom.showable, hcaption] at hshown
    simp only [htracing, Bool.false_eq_true, if_false]
    exact ⟨rfl, rfl⟩

/-- **Globals stay in scope.** At every moment of the run of any program, everything in the machine
is free of globals, except that they are found in environments; and so is all that the next step
binds a name to. Every environment is that of the program with such bindings from earlier in the
run written over it, and a global in it stands under the name of a declaration and is the last
declaration of that name. So where a name is evaluated, it is the value that it was last bound to,
which is handed on as it is; and if it was never bound, it stands for its last declaration. -/
theorem Program.globals_stay_in_scope (policy : Policy) (p : Program) (n : Nat) :
    (p.after policy n).Within (p.Extended policy n) ∧
    (∀ b ∈ (p.after policy n).binds, b.2.Within (p.Extended policy n)) ∧
    (∀ env, p.Extended policy n env → ∀ x g, (x, .global g) ∈ env →
      .global g ∈ p.declarations ∧ g.name = x ∧ p.last? x = some g) ∧
    ∀ v x bs k rest, (p.after policy n).jobs =
        ⟨.ok v, .eval (.var x) (Table.setAll p.globals bs) :: k⟩ :: rest →
      (∀ b ∈ bs, p.Bound policy n b) →
      (∀ w, Table.find? bs.reverse x = some w → (policy.tracing = true → x.showable = true) →
        (p.after policy n).HandsOn w k rest) ∧
      (Table.find? bs.reverse x = none →
        Table.find? (Table.setAll p.globals bs) x = (p.last? x).map .global) := by
  have hwithin := p.within_after policy n
  refine ⟨hwithin, hwithin.binds, fun env henv x g hg => ?_, fun v x bs k rest hj hbs => ?_⟩
  · have hlast := henv.last?_of_mem hg
    have hname : g.name = x := by simpa using List.find?_some hlast
    exact ⟨mem_functions.mp (List.mem_reverse.mp (List.mem_of_find?_eq_some hlast)), hname, hlast⟩
  · have hfind := Table.find?_setAll p.globals bs x
    constructor
    · intro w hw hx
      rw [hw, Option.some_or] at hfind
      have hmem : (x, w) ∈ bs := List.mem_reverse.mp (Table.mem_of_find? hw)
      refine Machine.handsOn_of_find? (p.obeys_discipline policy n) hj hfind
        (hbs _ hmem).ne_global fun htracing => hx ?_
      rwa [policy_after] at htracing
    · intro hnone
      rw [hfind, hnone, Option.none_or, find?_globals]

/-- A main declaration that binds the name of a global to what it evaluates to, and evaluates it
again. -/
def Program.shadowingOne : Program :=
  ⟨[.global ⟨.text "one", .ok [], .int (.number (.integer 1))⟩, .global ⟨.text entry, .ok [],
    .letIn (.text "one") (.var (.text "one")) (.var (.text "one"))⟩]⟩

/-- At first the name stands for its declaration. It is bound in the fifth step, and evaluated in
the sixth it is the value that it was bound to. -/
theorem Program.shadowingOne_hands_on :
    (shadowingOne.after {} 5).HandsOn (.int 1) [.pass, .pass, .pass, .report 0] [] ∧
    ∃ g, (.text "one", .global g) ∈ shadowingOne.globals ∧
      shadowingOne.last? (.text "one") = some g ∧
      Table.find? shadowingOne.globals (.text "one") = some (.global g) := by
  obtain ⟨-, -, -, hfirst⟩ := globals_stay_in_scope {} shadowingOne 1
  obtain ⟨-, -, hglobals, hthen⟩ := globals_stay_in_scope {} shadowingOne 5
  have hjobs : (shadowingOne.after {} 5).jobs = [⟨.ok .unit, .eval (.var (.text "one"))
      (Table.setAll shadowingOne.globals [(.text "one", .int 1)]) ::
        [.pass, .pass, .pass, .report 0]⟩] := rfl
  have hbinds : (shadowingOne.after {} 4).binds = [(.text "one", .int 1)] := rfl
  have hbound : ∀ b ∈ [((.text "one" : Atom), Value.int 1)], shadowingOne.Bound {} 5 b :=
    fun b hb => ⟨4, by decide, hbinds ▸ hb⟩
  refine ⟨(hthen _ _ _ _ _ hjobs hbound).1 (.int 1) rfl fun _ => rfl, _, List.mem_cons_self .., ?_⟩
  have hlast := (hglobals _ extended_globals _ _ (List.mem_cons_self ..)).2.2
  have hfind := (hfirst .unit (.text "one") [] _ _ rfl (by simp)).2 rfl
  rw [hlast] at hfind
  exact ⟨hlast, hfind⟩

end Parley
