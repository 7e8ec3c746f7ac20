import Parley.Machine.Step
import Parley.Proofs.Table

/-!
Bounded recursion: the rounds that the machine makes, against the definition by recursion on the
index.

Neither side evaluates anything by itself. Each puts questions to an evaluator, of which nothing
is assumed: it may have effects, fail, or never answer. What a side asks, in which order, and what
it comes to for every way of answering, is a dialogue, and the two dialogues are the same. A
question carries what can be looked up in the environment and not how the environment was put
together, because that is where the two sides differ.
-/

namespace Parley

/-- What is asked of an evaluator, and the outcome in the end. -/
inductive Dialogue
  | ends (o : Outcome)
  /-- Asks for the outcome of an expression, and goes on with it. -/
  | asks (e : Expr) (look : Atom → Option Value) (next : Outcome → Dialogue)

namespace Dialogue

def bind (c : Outcome → Dialogue) : Dialogue → Dialogue
  | ends o => c o
  | asks e look next => asks e look fun o => (next o).bind c

def onValue (next : Value → Dialogue) : Outcome → Dialogue
  | .ok v => next v
  | .error f => ends (.error f)

def evaluate (e : Expr) (env : Env) : Dialogue := asks e (Table.find? env) ends

lemma bind_ends (d : Dialogue) : d.bind ends = d := by
  induction d with
  | ends o => rfl
  | asks e look next ih => simp only [bind, ih]

lemma bind_bind (c c' : Outcome → Dialogue) (d : Dialogue) :
    (d.bind c).bind c' = d.bind fun o => (c o).bind c' := by
  induction d with
  | ends o => rfl
  | asks e look next ih => simp only [bind, ih]

end Dialogue

namespace Recursion

/-- **The recursive definition.** At zero the zero case is evaluated; above zero the recursion
below comes first, with the counter at its own index, and then the step case. -/
def unfold (r : Recursion) (env : Env) : Nat → Dialogue
  | 0 => .evaluate r.zero env
  | k + 1 =>
    (r.unfold (Table.set env r.counter (.int k)) k).bind <| Dialogue.onValue fun a =>
      .evaluate r.step (Table.set (Table.set env r.acc a) r.counter (.int (k + 1 : Nat)))

/-- The rounds of the loop that are left, from number `i` on. -/
def rounds (r : Recursion) : Nat → Nat → Outcome → Dialogue
  | 0, _ => .ends
  | left + 1, i => Dialogue.onValue fun v =>
    .asks r.step (Table.find? (r.stepEnv i v)) (r.rounds left (i + 1))

end Recursion

/-! ### What can be looked up -/

namespace Recursion

variable (r : Recursion)

/-- The recursion depends on its environment only through what can be looked up. -/
lemma unfold_congr {env env' : Env} (h : ∀ x, Table.find? env x = Table.find? env' x) (n : Nat) :
    r.unfold env n = r.unfold env' n := by
  have hset : ∀ {e e' : Env}, (∀ x, Table.find? e x = Table.find? e' x) → ∀ (y : Atom) (v : Value)
      (x : Atom), Table.find? (Table.set e y v) x = Table.find? (Table.set e' y v) x := by
    intro e e' he y v x
    simp only [Table.find?_set, he]
  induction n generalizing env env' with
  | zero => simp only [unfold, Dialogue.evaluate, funext h]
  | succ k ih =>
    simp only [unfold, Dialogue.evaluate, ih (hset h r.counter _),
      fun a => funext (hset (hset h r.acc a) r.counter (.int (k + 1 : Nat)))]

/-- A value for the counter that a recursion is started with is only seen at zero. -/
lemma unfold_counter (env : Env) (v : Value) (k : Nat) :
    r.unfold (Table.set env r.counter v) (k + 1) = r.unfold env (k + 1) := by
  have hcounter : r.unfold (Table.set (Table.set env r.counter v) r.counter (.int k)) k =
      r.unfold (Table.set env r.counter (.int k)) k := by
    refine r.unfold_congr (fun x => ?_) k
    simp only [Table.find?_set]
    split <;> rfl
  have hstep : ∀ a, Table.find? (Table.set (Table.set (Table.set env r.counter v) r.acc a)
      r.counter (.int (k + 1 : Nat))) =
      Table.find? (Table.set (Table.set env r.acc a) r.counter (.int (k + 1 : Nat))) := by
    intro a
    funext x
    simp only [Table.find?_set]
    split <;> rfl
  simp only [unfold, Dialogue.evaluate, hcounter, hstep]

/-! ### The loop and the recursion -/

lemma rounds_fault (left i : Nat) (f : Fault) :
    r.rounds left i (.error f) = .ends (.error f) := by
  cases left <;> rfl

/-- One more level of the recursion is one more round of the loop. -/
lemma unfold_bind_rounds (left k : Nat) :
    (r.unfold r.env (k + 1)).bind (r.rounds left (k + 2)) =
      (r.unfold (Table.set r.env r.counter (.int k)) k).bind (r.rounds (left + 1) (k + 1)) := by
  rw [unfold, Dialogue.bind_bind]
  congr 1
  funext o
  cases o with
  | ok v => rfl
  | error f => exact r.rounds_fault left _ f

/-- The recursion below the top, and then the rounds that are left, make one loop. -/
lemma unfold_rounds (left k : Nat) :
    (r.unfold (Table.set r.env r.counter (.int k)) k).bind (r.rounds left (k + 1)) =
      .asks r.zero (Table.find? (Table.set r.env r.counter (.int 0)))
        (r.rounds (k + left) 1) := by
  induction k generalizing left with
  | zero =>
    simp only [Nat.zero_add]
    rfl
  | succ k ih =>
    rw [unfold_counter, unfold_bind_rounds, ih, Nat.add_right_comm, Nat.add_assoc]

/-- **The recursion is the loop**: the zero case once, and then the rounds from one up. -/
theorem unfold_eq_rounds (n : Nat) :
    r.unfold r.env n = .asks r.zero (Table.find? (r.zeroEnv n)) (r.rounds n 1) := by
  cases n with
  | zero => rfl
  | succ k =>
    rw [← Dialogue.bind_ends (r.unfold r.env (k + 1))]
    exact (r.unfold_bind_rounds 0 k).trans (r.unfold_rounds 1 k)

end Recursion

/-! ### The dialogue of the frames -/

/-- The dialogue that frames hold when they are handed an outcome, whatever the machine and the
frames below: the evaluations that they start one after another, and what they hand on in the
end. -/
inductive Stack.Conducts : Stack → Outcome → Dialogue → Prop
  | ends (o : Outcome) : Conducts [] o (.ends o)
  | asks {f : Frame} {v : Value} {fs under : Stack} {e : Expr} {env : Env}
      {next : Outcome → Dialogue}
      (h : ∀ (m : Machine) (k : Stack), m.accept f v k = m.eval e env (fs ++ k))
      (hnext : ∀ o, Conducts (fs ++ under) o (next o)) :
      Conducts (f :: under) (.ok v) (.asks e (Table.find? env) next)
  | hands {f : Frame} {v : Value} {under : Stack} {o : Outcome} {d : Dialogue}
      (h : ∀ (m : Machine) (k : Stack), m.accept f v k = m.resume k o)
      (hd : Conducts under o d) : Conducts (f :: under) (.ok v) d
  | faults {f : Frame} {e : Fault} {under : Stack} {d : Dialogue}
      (h : ∀ (m : Machine) (k : Stack), m.refuse f e k = m.resume k (.error e))
      (hd : Conducts under (.error e) d) : Conducts (f :: under) (.error e) d

namespace Stack.Conducts

/-- An evaluation on a fresh machine can be told from everything else that a frame does. -/
lemma eval_fresh (e : Expr) (env : Env) (k : Stack) :
    ({} : Machine).eval e env k = { steps := 1, jobs := [⟨.ok .unit, .eval e env :: k⟩] } := rfl

lemma unique {k : Stack} {o : Outcome} {d d' : Dialogue} (h : Conducts k o d)
    (h' : Conducts k o d') : d = d' := by
  induction h generalizing d' with
  | ends o => cases h'; rfl
  | @asks f v fs under e env next h hnext ih =>
    cases h' with
    | @asks _ _ fs' _ e' env' next' h' hnext' =>
      have heq := (h {} []).symm.trans (h' {} [])
      simp only [eval_fresh, Machine.mk.injEq, List.append_nil, List.cons.injEq, Job.mk.injEq,
        Frame.eval.injEq] at heq
      obtain ⟨-, ⟨⟨-, ⟨rfl, rfl⟩, rfl⟩, -⟩, -⟩ := heq
      rw [funext fun o => ih o (hnext' o)]
    | hands h' hd' =>
      -- to ask counts a step, to hand on does not
      have heq := congrArg Machine.steps ((h {} []).symm.trans (h' {} []))
      exact absurd heq Nat.one_ne_zero
  | hands h hd ih =>
    cases h' with
    | asks h' hnext' =>
      have heq := congrArg Machine.steps ((h' {} []).symm.trans (h {} []))
      exact absurd heq Nat.one_ne_zero
    | hands h' hd' =>
      have heq := congrArg Machine.jobs ((h {} []).symm.trans (h' {} []))
      simp only [Machine.resume, List.nil_append, List.cons.injEq, Job.mk.injEq] at heq
      obtain ⟨⟨rfl, -⟩, -⟩ := heq
      exact ih hd'
  | faults h hd ih =>
    cases h' with
    | faults h' hd' => exact ih hd'

lemma fault {f : Frame} (hf : ∀ (m : Machine) (e : Fault) (k : Stack),
    m.refuse f e k = m.resume k (.error e)) (e : Fault) :
    Conducts [f] (.error e) (.ends (.error e)) :=
  .faults (fun m k => hf m e k) (.ends _)

/-- The frame of a round holds the dialogue of the rounds that are left. -/
lemma rounds (r : Recursion) {left i n : Nat} (h : i + left = n + 1) (o : Outcome) :
    Conducts [.recursionRound r i n] o (r.rounds left i o) := by
  induction left generalizing i o with
  | zero =>
    cases o with
    | error e => exact .fault (fun _ _ _ => rfl) e
    | ok v =>
      refine .hands (fun m k => ?_) (.ends _)
      simp only [Machine.accept, if_neg (show ¬ i ≤ n by omega)]
  | succ left ih =>
    cases o with
    | error e => exact .fault (fun _ _ _ => rfl) e
    | ok v =>
      have hround : ∀ (m : Machine) (k : Stack), m.accept (.recursionRound r i n) v k =
          m.eval r.step (r.stepEnv i v) ([.recursionRound r (i + 1) n] ++ k) := fun m k => by
        simp only [Machine.accept, if_pos (show i ≤ n by omega)]
        rfl
      exact .asks hround fun o => ih (by omega) o

/-- The frame of the index holds the dialogue of the recursion. -/
lemma index (r : Recursion) (n : Nat) :
    Conducts [.recursionIndex r] (.ok (.int n)) (r.unfold r.env n) := by
  have hindex : ∀ (m : Machine) (k : Stack), m.accept (.recursionIndex r) (.int n) k =
      m.eval r.zero (r.zeroEnv n) ([.recursionRound r 1 n] ++ k) := fun m k => by
    simp only [Machine.accept, Value.asInt, Machine.resumeWith,
      if_neg (Int.not_lt.mpr (Int.natCast_nonneg n)), Int.toNat_natCast]
    rfl
  rw [r.unfold_eq_rounds]
  exact .asks hindex fun o => .rounds r (Nat.add_comm 1 n) o

lemma negative (r : Recursion) (n : Nat) :
    Conducts [.recursionIndex r] (.ok (.int (.negSucc n)))
      (.ends (.error (.negativeRecursionIndex (.negSucc n)))) := by
  refine .hands (fun m k => ?_) (.ends _)
  simp only [Machine.accept, Value.asInt, Machine.resumeWith, if_pos (Int.negSucc_lt_zero n)]

lemma iff_eq {k : Stack} {o : Outcome} {d : Dialogue} (h : Conducts k o d) (d' : Dialogue) :
    Conducts k o d' ↔ d' = d :=
  ⟨fun h' => h'.unique h, fun hd => hd ▸ h⟩

end Stack.Conducts

/-- **The loop of a bounded recursion agrees with the recursive definition.** The index is
evaluated first. With an index `n` from zero up the frames hold the dialogue of the recursive
definition and no other: the same questions in the same order, and the same outcome however they
are answered. A negative index is a fault before anything else is asked, and a fault of the index
is handed on. Nothing is assumed about the two names, which may coincide or hide others. -/
theorem Recursion.conducts_unfold (index zero step : Expr) (counter acc : Atom) (env : Env) :
    let r : Recursion := ⟨zero, counter, acc, step, env⟩
    (∀ (m : Machine) (k : Stack),
      m.evalParts (.natRec index zero counter acc step) env k =
        m.eval index env (.recursionIndex r ::
          m.inside (.natRec index zero counter acc step) k)) ∧
    (∀ (n : Nat) (d : Dialogue),
      Stack.Conducts [.recursionIndex r] (.ok (.int n)) d ↔ d = r.unfold env n) ∧
    (∀ (n : Nat) (d : Dialogue),
      Stack.Conducts [.recursionIndex r] (.ok (.int (.negSucc n))) d ↔
        d = .ends (.error (.negativeRecursionIndex (.negSucc n)))) ∧
    (∀ (f : Fault) (d : Dialogue),
      Stack.Conducts [.recursionIndex r] (.error f) d ↔ d = .ends (.error f)) := by
  intro r
  refine ⟨fun m k => rfl, fun n d => ?_, fun n d => ?_, fun f d => ?_⟩
  · exact (Stack.Conducts.index r n).iff_eq d
  · exact (Stack.Conducts.negative r n).iff_eq d
  · exact (Stack.Conducts.fault (fun _ _ _ => rfl) f).iff_eq d

end Parley
