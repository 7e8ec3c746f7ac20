import Parley.Proofs.Places

/-!
The turn of a process: what it does in one job, told apart from the machine that it does it to.

A turn is a few deeds and then a sequel, and it depends on the frame, on the value that the
frame is handed, on whether the run is traced, and on how many queues are allocated. Everything
else about a machine, its limits included, only matters to what deeds and sequels do to it. So
what holds along a run is shown for the four deeds and the three sequels, and once more for the
few moves that are no turns.
-/

namespace Parley

/-- What a process does before it goes on. -/
inductive Deed
  | note (t : Note)
  /-- Takes a note of a value and sends it. -/
  | send (on : Endpoint) (v : Value)
  | fork (e : Expr) (env : Env)
  | channel

/-- How a process goes on above the frames below it. -/
inductive Sequel
  /-- With an outcome for the frames. -/
  | hand (fs : Stack) (o : Outcome)
  /-- With the frames once a step has been counted. -/
  | count (fs : Stack)
  /-- With what is received. -/
  | receive (on : Endpoint)

/-- What a process does in one job. -/
structure Turn where
  deeds : List Deed := []
  sequel : Sequel

namespace Turn

def hand (fs : Stack) (v : Value) : Turn := ⟨[], .hand fs (.ok v)⟩

def fault (f : Fault) : Turn := ⟨[], .hand [] (.error f)⟩

def eval (e : Expr) (env : Env) (fs : Stack) : Turn := ⟨[], .count (.eval e env :: fs)⟩

def after (d : Deed) (t : Turn) : Turn := ⟨d :: t.deeds, t.sequel⟩

def ofExcept {α : Type} (r : Except Fault α) (next : α → Turn) : Turn :=
  match r with
  | .ok a => next a
  | .error f => fault f

/-- A note of a value and then a turn, or a fault if the value has no text to be noted. -/
def noting (tracing : Bool) (v : Value) (d : Deed) (t : Turn) : Turn :=
  if !tracing || v.showable then after d t else fault (.misuse .noText)

end Turn

/-! ### The turn of every frame -/

def Expr.cover (tracing : Bool) (e : Expr) : Frame := if tracing then .leave e.caption else .pass

/-- The frames that an expression leaves behind when it has its value. -/
def Expr.residue (tracing : Bool) (e : Expr) : Stack :=
  if tracing then [.leave e.caption] else []

/-- An expression has its value without evaluating parts. -/
def Expr.finish (tracing : Bool) (e : Expr) (v : Value) : Turn := .hand (e.residue tracing) v

def Call.refer (tracing : Bool) (e : Expr) : Call → Turn
  | .value v => .hand (if tracing then [.leave e.caption] else [.pass, .pass]) v
  | .body b env => .eval b env [e.cover tracing]
  | .fault f => .fault f

def Value.applyTurn (tracing : Bool) (fn arg : Value) : Turn :=
  match fn with
  | .function none _ _ _ => .fault (.misuse (.noMember .null "name"))
  | .function (some param) [] body env => .eval body (Table.set env param arg) [.pass]
  | .function (some param) (p :: ps) body env =>
    .hand [.pass, .pass] (.function p ps body (Table.set env param arg))
  | .sender on =>
    .noting tracing (.pair arg (.channel on)) (.send on arg) (.hand [.pass, .pass] (.channel on))
  | .identity => .hand [.pass, .pass] arg
  | fn => .fault (fn.mismatch .closure "application")

/-- The turn that starts the first part of an expression, with `n` queues allocated. -/
def Expr.partsTurn (tracing : Bool) (n : Nat) (e : Expr) (env : Env) : Turn :=
  let part (a : Expr) (f : Frame) : Turn := .eval a env [f, e.cover tracing]
  match e with
  | .unit => e.finish tracing .unit
  | .label name => e.finish tracing (.label name)
  | .int l | .nat l =>
    match l.toInt with
    | .ok i => e.finish tracing (.int i)
    | .error f => .fault (.literal f)
  | .var name =>
    match Table.find? env name with
    | some (.global g) => (g.call env).refer tracing e
    | some v => e.finish tracing v
    | none => .fault (Fault.unboundVariable name).worded
  | .arith op left right => part left (.leftOperand op right env)
  | .negate a => part (.int (.number (.integer 0))) (.leftOperand .minus a env)
  | .succ a => part (.int (.number (.integer 1))) (.leftOperand .plus a env)
  | .letIn name value body => part value (.letBody name body env)
  | .letPair first second value body => part value (.letPairBody first second body env)
  | .pair name first second => part first (.pairSecond name second env)
  | .fst a => part a .takeFirst
  | .snd a => part a .takeSecond
  | .lambda param body => e.finish tracing (.function param [] body env)
  | .app fn arg => part arg (.callee fn env)
  | .fork a => .after (.fork a env) (e.finish tracing .unit)
  | .channel =>
    let c : Endpoint := ⟨.allocated n, .allocated (n + 1)⟩
    .after .channel (e.finish tracing (.pair (.channel c) (.channel c.partner)))
  | .send a => part a .makeSender
  | .recv a => part a .receive
  | .caseOf scrutinee branches rest => part scrutinee (.branch branches rest env)
  | .natRec index zero counter acc step =>
    part index (.recursionIndex ⟨zero, counter, acc, step, env⟩)
  | .unknown _ shown => .fault (Fault.unexpected shown).worded
  | .missing g => .fault (.misuse (.noMember g "kind"))

def Expr.turn (tracing : Bool) (n : Nat) (e : Expr) (env : Env) : Turn :=
  match e, e.caption? with
  | .missing _, _ => e.partsTurn tracing n env
  | _, some caption => .after (.note (.enter caption)) (e.partsTurn tracing n env)
  | _, none => if tracing then .fault (.misuse .noText) else e.partsTurn tracing n env

/-- The turn of a frame that is handed a value. Tasks given from outside and the bottoms of
stacks have none. -/
def Frame.turn (tracing : Bool) (n : Nat) (f : Frame) (v : Value) : Turn :=
  match f with
  | .pass => .hand [] v
  | .eval e env => e.turn tracing n env
  | .leave caption => .noting tracing v (.note (.leave caption v)) (.hand [] v)
  | .leftOperand op right env =>
    .ofExcept (v.asInt "arithmetic operand") fun a => .eval right env [.rightOperand op a]
  | .rightOperand op a =>
    .ofExcept (v.asInt "arithmetic operand") fun b =>
      .ofExcept (op.apply a b) fun c => .hand [] (.int c)
  | .letBody name body env => .eval body (Table.set env name v) [.pass]
  | .letPairBody first second body env =>
    .ofExcept (v.asPair "letPair") fun (a, b) =>
      .eval body (Table.setAll env [(second, b), (first, a)]) [.pass]
  | .pairSecond name second env => .eval second (Table.set env name v) [.pairUp v]
  | .pairUp first => .hand [] (.pair first v)
  | .takeFirst => .ofExcept (v.asPair "fst") fun p => .hand [] p.1
  | .takeSecond => .ofExcept (v.asPair "snd") fun p => .hand [] p.2
  | .callee fn env => .eval fn env [.call v]
  | .call arg => v.applyTurn tracing arg
  | .branch branches rest env =>
    .ofExcept (v.asLabel "case") fun name =>
      match Table.find? branches name, rest with
      | some body, _ => .eval body env [.pass]
      | none, some misuse => .fault (.misuse misuse)
      | none, none => .fault (Fault.noMatchingCase name (branches.map (·.1))).worded
  | .makeSender => .ofExcept (v.asChannel "send") fun e => .hand [] (.sender e)
  | .receive => .ofExcept (v.asChannel "recv") fun e => ⟨[], .receive e⟩
  | .received on =>
    .noting tracing (.pair v (.channel on)) (.note (.received v on))
      (.hand [] (.pair v (.channel on)))
  | .recursionIndex r =>
    .ofExcept (v.asInt "natRec index") fun i =>
      if i < 0 then .fault (.negativeRecursionIndex i)
      else .eval r.zero (r.zeroEnv i.toNat) [.recursionRound r 1 i.toNat]
  | .recursionRound r i upTo =>
    if i ≤ upTo then .eval r.step (r.stepEnv i v) [.recursionRound r (i + 1) upTo]
    else .hand [] v
  | .steps _ _ | .take _ | .strand | .settle _ _ | .report _ => .hand [] v

/-! ### Acts -/

def Deed.isAct : Deed → Bool
  | .note _ => false
  | _ => true

def Deed.forks : Deed → Bool
  | .fork _ _ => true
  | _ => false

def Deed.opens : Deed → Bool
  | .channel => true
  | _ => false

def Turn.acts (t : Turn) : List Deed := t.deeds.filter Deed.isAct

lemma Turn.countP_deeds {p : Deed → Bool} (hp : ∀ t, p (.note t) = false) (t : Turn) :
    t.deeds.countP p = t.acts.countP p := by
  unfold acts
  rw [List.countP_filter]
  congr
  funext d
  cases d with
  | note t => rw [hp t]; rfl
  | _ => exact (Bool.and_true _).symm

def Expr.act? (env : Env) : Expr → Option Deed
  | .fork a => some (.fork a env)
  | .channel => some .channel
  | _ => none

def Frame.act? (tracing : Bool) (f : Frame) (v : Value) : Option Deed :=
  match f, v with
  | .eval e env, _ => e.act? env
  | .call arg, .sender on =>
    if !tracing || (Value.pair arg (.channel on)).showable then some (.send on arg) else none
  | _, _ => none

lemma Turn.acts_ofExcept {α : Type} {r : Except Fault α} {next : α → Turn}
    (h : ∀ a, (next a).acts = []) : (ofExcept r next).acts = [] := by
  cases r with
  | ok a => exact h a
  | error f => rfl

lemma Turn.acts_noting (tracing : Bool) (v : Value) (d : Note) (t : Turn) (h : t.acts = []) :
    (noting tracing v (.note d) t).acts = [] := by
  unfold noting
  split
  · exact h
  · rfl

lemma Expr.acts_partsTurn (tracing : Bool) (n : Nat) (e : Expr) (env : Env) :
    (e.partsTurn tracing n env).acts = (e.act? env).toList := by
  cases e with
  | int l | nat l =>
    simp only [partsTurn]
    split <;> rfl
  | var name =>
    simp only [partsTurn]
    split
    · next g _ => cases g.call env <;> rfl
    · rfl
    · rfl
  | _ => rfl

lemma Expr.acts_turn (tracing : Bool) (n : Nat) (e : Expr) (env : Env) :
    (e.turn tracing n env).acts = (e.act? env).toList := by
  have hparts := e.acts_partsTurn tracing n env
  cases e with
  | fork | channel | missing => exact hparts
  | _ =>
    simp only [turn]
    generalize Expr.caption? _ = caption
    cases caption with
    | some caption => exact hparts
    | none =>
      simp only
      split
      · rfl
      · exact hparts

/-- **A frame acts at most once**: it forks, it allocates a channel or it sends. -/
theorem Frame.acts_turn (tracing : Bool) (n : Nat) (f : Frame) (v : Value) :
    (f.turn tracing n v).acts = (f.act? tracing v).toList := by
  cases f with
  | eval e env => exact e.acts_turn tracing n env
  | call arg =>
    cases v with
    | function param more body env =>
      cases param with
      | none => rfl
      | some param => cases more <;> rfl
    | sender on =>
      simp only [turn, Value.applyTurn, Turn.noting, act?]
      split <;> rfl
    | _ => rfl
  | leave | received => exact Turn.acts_noting _ _ _ _ rfl
  | leftOperand | letPairBody | takeFirst | takeSecond | makeSender | receive =>
    exact Turn.acts_ofExcept fun _ => rfl
  | rightOperand => exact Turn.acts_ofExcept fun _ => Turn.acts_ofExcept fun _ => rfl
  | branch bs rest env =>
    refine Turn.acts_ofExcept fun name => ?_
    split <;> rfl
  | recursionIndex r =>
    refine Turn.acts_ofExcept fun i => ?_
    split <;> rfl
  | recursionRound r i upTo =>
    simp only [turn]
    split <;> rfl
  | _ => rfl

/-! ### What a turn can be -/

namespace Frame

def IsPlain (f : Frame) : Prop := f = .pass ∨ ∃ caption, f = .leave caption

/-- Is found on a stack only under the frame that is on top when a process goes on. -/
def IsInner : Frame → Prop
  | .eval _ _ | .received _ | .steps _ _ | .take _ | .strand | .settle _ _ | .report _ => False
  | _ => True

def IsScripted : Frame → Prop
  | .steps _ _ | .take _ | .strand => True
  | _ => False

lemma Obeys.not_isScripted {D : Discipline} {n : Nat} {f : Frame} (h : f.Obeys D n) :
    ¬ f.IsScripted := by
  cases f with
  | steps | take | strand => exact h.elim
  | _ => exact id

lemma IsBottom.not_isScripted {f : Frame} (h : f.IsBottom) : ¬ f.IsScripted := by
  cases f with
  | steps | take | strand => exact h.elim
  | _ => exact id

def IsLight : Frame → Prop
  | .pass | .leave _ | .received _ | .settle _ _ | .report _ => True
  | _ => False

lemma IsPlain.isInner {f : Frame} (h : f.IsPlain) : f.IsInner := by
  obtain rfl | ⟨caption, rfl⟩ := h <;> trivial

lemma IsInner.not_isBottom {f : Frame} (h : f.IsInner) : ¬ f.IsBottom := by
  cases f <;> simp_all [IsInner, IsBottom]

/-- The turns that a frame can take with a value. Only an evaluation forks and allocates, and
only a frame that is not light puts frames on the stack. -/
inductive Takes (tracing : Bool) (f : Frame) (v : Value) : Turn → Prop
  | hand (o : Outcome) : Takes tracing f v ⟨[], .hand [] o⟩
  | leave {caption : String} : Takes tracing f v (.after (.note (.leave caption v)) (.hand [] v))
  | received {on : Endpoint} (hf : f = .received on) (w : Value) :
      Takes tracing f v (.after (.note (.received v on)) (.hand [] w))
  | push {fs : Stack} (hf : ¬ f.IsLight) (hp : ∀ g ∈ fs, g.IsPlain) (hl : fs.length ≤ 2)
      (w : Value) : Takes tracing f v (.hand fs w)
  | send {on : Endpoint} {arg : Value} (hf : ¬ f.IsLight) (ht : tracing = true → arg.showable)
      (w : Value) : Takes tracing f v (.after (.send on arg) (.hand [.pass, .pass] w))
  | count {e : Expr} {env : Env} {gs : Stack} (hf : ¬ f.IsLight) (hi : ∀ g ∈ gs, g.IsInner)
      (hl : gs.length ≤ 2) : Takes tracing f v (.eval e env gs)
  | receive {on : Endpoint} (hf : ¬ f.IsLight) : Takes tracing f v ⟨[], .receive on⟩
  | fork {e a : Expr} {env env' : Env} {fs : Stack} (hf : f = .eval a env')
      (hp : ∀ g ∈ fs, g.IsPlain) (hl : fs.length ≤ 1) (w : Value) :
      Takes tracing f v (.after (.fork e env) (.hand fs w))
  | channel {a : Expr} {env' : Env} {fs : Stack} (hf : f = .eval a env') (hp : ∀ g ∈ fs, g.IsPlain)
      (hl : fs.length ≤ 1) (w : Value) : Takes tracing f v (.after .channel (.hand fs w))
  | enter {caption : String} {a : Expr} {env' : Env} (hf : f = .eval a env') {t : Turn}
      (ht : Takes tracing f v t) : Takes tracing f v (.after (.note (.enter caption)) t)

namespace Takes

variable {tracing : Bool} {f : Frame} {v : Value}

lemma ofExcept {α : Type} {r : Except Fault α} {next : α → Turn}
    (h : ∀ a, r = .ok a → Takes tracing f v (next a)) :
    Takes tracing f v (.ofExcept r next) := by
  cases r with
  | ok a => exact h a rfl
  | error e => exact .hand _

lemma noting {w : Value} {d : Deed} {t : Turn}
    (h : (tracing = true → w.showable = true) → Takes tracing f v (.after d t)) :
    Takes tracing f v (.noting tracing w d t) := by
  unfold Turn.noting
  split
  · next hw => exact h fun ht => by simpa [ht] using hw
  · exact .hand _

lemma cover_isPlain (tracing : Bool) (e : Expr) : (e.cover tracing).IsPlain := by
  unfold Expr.cover
  split
  · exact .inr ⟨_, rfl⟩
  · exact .inl rfl

lemma residue_isPlain (tracing : Bool) (e : Expr) :
    (∀ g ∈ e.residue tracing, g.IsPlain) ∧ (e.residue tracing).length ≤ 1 := by
  unfold Expr.residue
  split <;> simp [IsPlain]

lemma finish (hf : ¬ f.IsLight) (e : Expr) (w : Value) :
    Takes tracing f v (e.finish tracing w) := by
  obtain ⟨hp, hl⟩ := residue_isPlain tracing e
  exact .push hf hp (by omega) w

lemma part (hf : ¬ f.IsLight) (e : Expr) {a : Expr} {env : Env} {g : Frame} (hg : g.IsInner) :
    Takes tracing f v (.eval a env [g, e.cover tracing]) := by
  refine .count hf (fun h hm => ?_) (by simp)
  simp only [List.mem_cons, List.not_mem_nil, or_false] at hm
  rcases hm with rfl | rfl
  · exact hg
  · exact (cover_isPlain tracing e).isInner

lemma refer (hf : ¬ f.IsLight) (e : Expr) (c : Call) :
    Takes tracing f v (c.refer tracing e) := by
  cases c with
  | value w =>
    simp only [Call.refer]
    refine .push hf ?_ ?_ w <;> split <;> simp [IsPlain]
  | body b env =>
    refine .count hf ?_ (by simp)
    simpa using (cover_isPlain tracing e).isInner
  | fault e => exact .hand _

lemma parts {a : Expr} {env : Env} (hf : f = .eval a env) (n : Nat) (e : Expr) (env' : Env) :
    Takes tracing f v (e.partsTurn tracing n env') := by
  have hl : ¬ f.IsLight := hf ▸ id
  cases e with
  | unit | label | lambda => exact .finish hl _ _
  | int l | nat l =>
    simp only [Expr.partsTurn]
    split
    · exact .finish hl _ _
    · exact .hand _
  | var name =>
    simp only [Expr.partsTurn]
    split
    · exact .refer hl _ _
    · exact .finish hl _ _
    · exact .hand _
  | fork b =>
    obtain ⟨hp, hlen⟩ := residue_isPlain tracing (.fork b)
    exact .fork hf hp hlen _
  | channel =>
    obtain ⟨hp, hlen⟩ := residue_isPlain tracing .channel
    exact .channel hf hp hlen _
  | unknown | missing => exact .hand _
  | _ => exact .part hl _ trivial

lemma apply (hf : ¬ f.IsLight) (fn arg : Value) :
    Takes tracing f v (fn.applyTurn tracing arg) := by
  have hpass : ∀ g ∈ [pass, pass], g.IsPlain := by simp [IsPlain]
  cases fn with
  | function param more body env =>
    cases param with
    | none => exact .hand _
    | some param =>
      cases more with
      | nil => exact .count hf (by simp [IsInner]) (by simp)
      | cons p ps => exact .push hf hpass (by simp) _
  | sender on =>
    refine .noting fun hw => .send hf (fun ht => ?_) _
    have := hw ht
    simp only [Value.showable, Bool.and_eq_true] at this
    exact this.1
  | identity => exact .push hf hpass (by simp) _
  | _ => exact .hand _

end Takes

/-- **What a turn can be.** -/
theorem takes (tracing : Bool) (n : Nat) (f : Frame) (v : Value) :
    f.Takes tracing v (f.turn tracing n v) := by
  cases f with
  | eval e env =>
    have hparts : Takes tracing (.eval e env) v (e.partsTurn tracing n env) := .parts rfl n e env
    -- nothing is there, there is a caption, or there is none
    simp only [turn, Expr.turn]
    split
    · exact hparts
    · exact .enter rfl hparts
    · split
      · exact .hand _
      · exact hparts
  | leave caption => exact .noting fun _ => .leave
  | received on => exact .noting fun _ => .received rfl _
  | leftOperand => exact .ofExcept fun _ _ => .count id (by simp [IsInner]) (by simp)
  | rightOperand => exact .ofExcept fun _ _ => .ofExcept fun _ _ => .hand _
  | letBody | pairSecond | callee => exact .count id (by simp [IsInner]) (by simp)
  | letPairBody => exact .ofExcept fun _ _ => .count id (by simp [IsInner]) (by simp)
  | takeFirst | takeSecond | makeSender => exact .ofExcept fun _ _ => .hand _
  | call arg => exact .apply id v arg
  | branch bs rest env =>
    refine .ofExcept fun name _ => ?_
    split
    · exact .count id (by simp [IsInner]) (by simp)
    · exact .hand _
    · exact .hand _
  | receive => exact .ofExcept fun _ _ => .receive id
  | recursionIndex r =>
    refine .ofExcept fun i _ => ?_
    split
    · exact .hand _
    · exact .count id (by simp [IsInner]) (by simp)
  | recursionRound r i upTo =>
    simp only [turn]
    split
    · exact .count id (by simp [IsInner]) (by simp)
    · exact .hand _
  | pass | pairUp | steps | take | strand | settle | report => exact .hand _

end Frame

/-! ### What turns do to a machine -/

def Deed.apply (m : Machine) : Deed → Machine
  | .note t => m.trace t
  | .send on v => (m.trace (.sent v on)).send on.write v
  | .fork e env => m.fork e env
  | .channel => m.newChannel.2

def Sequel.apply (k : Stack) (m : Machine) : Sequel → Machine
  | .hand fs o => m.resume (fs ++ k) o
  | .count fs => m.check (fs ++ k)
  | .receive on => m.recv on.read (.received on :: k)

def Turn.apply (k : Stack) (m : Machine) (t : Turn) : Machine :=
  t.sequel.apply k (t.deeds.foldl Deed.apply m)

namespace Machine

variable {D : Discipline} {m : Machine} {k : Stack}

lemma apply_after (d : Deed) (t : Turn) : (Turn.after d t).apply k m = t.apply k (d.apply m) := rfl

lemma apply_ofExcept {α : Type} (r : Except Fault α) (next : α → Turn) :
    (Turn.ofExcept r next).apply k m = m.resumeWith k r fun a => (next a).apply k m := by
  cases r <;> rfl

lemma apply_noting (v : Value) (d : Deed) (t : Turn) :
    (Turn.noting m.policy.tracing v d t).apply k m =
      if m.canTrace v then t.apply k (d.apply m) else m.resume k (.error (.misuse .noText)) := by
  unfold Turn.noting canTrace
  split <;> rfl

@[simp] lemma policy_trace (m : Machine) (t : Note) : (m.trace t).policy = m.policy := by
  unfold trace; split <;> rfl

@[simp] lemma policy_check (m : Machine) (k : Stack) : (m.check k).policy = m.policy := by
  simp only [check]; split
  · rfl
  · split <;> rfl

@[simp] lemma policy_fork (m : Machine) (e : Expr) (env : Env) :
    (m.fork e env).policy = m.policy := policy_check ..

lemma done_eq (m : Machine) (e : Expr) (v : Value) (k : Stack) :
    m.done e v k = (e.finish m.policy.tracing v).apply k m := by
  unfold done Expr.finish Expr.residue
  split <;> rfl

lemma inside_eq (m : Machine) (e : Expr) (k : Stack) :
    m.inside e k = e.cover m.policy.tracing :: k := by
  unfold inside Expr.cover
  split <;> rfl

lemma refer_eq (m : Machine) (e : Expr) (c : Call) (k : Stack) :
    m.refer e c k = (c.refer m.policy.tracing e).apply k m := by
  cases c with
  | value v =>
    simp only [refer, Call.refer]
    split <;> rfl
  | body b env =>
    simp only [refer, inside_eq]
    rfl
  | fault f => rfl

lemma call_eq (m : Machine) (fn arg : Value) (k : Stack) :
    m.accept (.call arg) fn k = (fn.applyTurn m.policy.tracing arg).apply k m := by
  cases fn with
  | function param more body env =>
    cases param with
    | none => rfl
    | some param => cases more <;> rfl
  | sender on =>
    simp only [accept, apply, Value.applyTurn]
    rw [apply_noting]
    cases m.canTrace (.pair arg (.channel on)) <;> rfl
  | _ => rfl

lemma evalParts_eq (m : Machine) (e : Expr) (env : Env) (k : Stack) :
    m.evalParts e env k = (e.partsTurn m.policy.tracing m.allocated env).apply k m := by
  cases e with
  | int l | nat l =>
    simp only [evalParts, Expr.partsTurn]
    cases l.toInt with
    | ok i => exact done_eq ..
    | error f => rfl
  | var name =>
    simp only [evalParts, Expr.partsTurn]
    cases Table.find? env name with
    | none => rfl
    | some v =>
      cases v with
      | global g => exact refer_eq ..
      | _ => exact done_eq ..
  | unit | label | lambda => exact done_eq ..
  | fork a =>
    simp only [evalParts, Expr.partsTurn, done_eq, policy_fork]
    rfl
  | channel =>
    simp only [evalParts, Expr.partsTurn, done_eq]
    rfl
  | unknown | missing => rfl
  | _ =>
    simp only [evalParts, Expr.partsTurn, inside_eq]
    rfl

lemma evalCounted_eq (m : Machine) (e : Expr) (env : Env) (k : Stack) :
    m.evalCounted e env k = (e.turn m.policy.tracing m.allocated env).apply k m := by
  cases e with
  | missing g =>
    simp only [evalCounted, Expr.turn]
    exact evalParts_eq ..
  | _ =>
    simp only [evalCounted, Expr.turn]
    generalize Expr.caption? _ = caption
    cases caption with
    | some caption =>
      simp only [evalParts_eq, policy_trace, allocated_trace]
      rfl
    | none =>
      simp only
      split
      · rfl
      · exact evalParts_eq ..

/-- **A frame above the bottom takes its turn**, unless it is part of a task given from outside. -/
theorem accept_eq_turn {f : Frame} (hs : ¬ f.IsScripted) (hb : ¬ f.IsBottom) (v : Value)
    (k : Stack) : m.accept f v k = (f.turn m.policy.tracing m.allocated v).apply k m := by
  cases f with
  | eval e env => exact evalCounted_eq ..
  | call arg => exact call_eq ..
  | leave | received =>
    simp only [accept, Frame.turn, apply_noting]
    rfl
  | leftOperand | rightOperand | letPairBody | takeFirst | takeSecond | makeSender | receive =>
    simp only [accept, Frame.turn, apply_ofExcept]
    rfl
  | branch bs rest env =>
    simp only [accept, Frame.turn, apply_ofExcept]
    congr 1
    funext name
    cases Table.find? bs name with
    | some body => rfl
    | none => cases rest <;> rfl
  | recursionIndex r =>
    simp only [accept, Frame.turn, apply_ofExcept]
    congr 1
    funext i
    split <;> rfl
  | recursionRound r i upTo =>
    simp only [accept, Frame.turn]
    split <;> rfl
  | steps | take | strand => exact absurd trivial hs
  | settle | report => exact absurd trivial hb
  | _ => rfl

lemma refuse_eq_resume {f : Frame} (hs : ¬ f.IsScripted) (hb : ¬ f.IsBottom) (fault : Fault)
    (k : Stack) : m.refuse f fault k = m.resume k (.error fault) := by
  cases f with
  | strand => exact absurd trivial hs
  | settle | report => exact absurd trivial hb
  | _ => rfl

/-- A frame that keeps to a discipline takes its turn. -/
lemma accept_eq {f : Frame} {n : Nat} (hf : f.Obeys D n) (v : Value) (k : Stack) :
    m.accept f v k = (f.turn m.policy.tracing m.allocated v).apply k m :=
  accept_eq_turn hf.not_isScripted hf.not_isBottom v k

/-! ### Moves -/

inductive Moves (m : Machine) : Machine → Prop
  /-- Nothing is left to do. -/
  | rest (h : m.quiet = true) : Moves m m
  | release {k : Stack} {rest : List Stack} (hj : m.jobs = []) (hp : m.parked = k :: rest) :
      Moves m { m with parked := rest, jobs := [⟨.ok .unit, k⟩] }
  /-- There is nobody to take an outcome. -/
  | drop {o : Outcome} {rest : List Job} (hj : m.jobs = ⟨o, []⟩ :: rest) :
      Moves m { m with jobs := rest }
  | turn {f : Frame} {v : Value} {k : Stack} {rest : List Job}
      (hj : m.jobs = ⟨.ok v, f :: k⟩ :: rest) (hf : ¬ f.IsBottom) :
      Moves m ((f.turn m.policy.tracing m.allocated v).apply k { m with jobs := rest })
  /-- A fault is handed on. -/
  | fault {f : Frame} {e : Fault} {k : Stack} {rest : List Job}
      (hj : m.jobs = ⟨.error e, f :: k⟩ :: rest) (hf : ¬ f.IsBottom) :
      Moves m (({ m with jobs := rest } : Machine).resume k (.error e))
  | settle {task : Atom} {serial : Nat} {o : Outcome} {k : Stack} {rest : List Job}
      (hj : m.jobs = ⟨o, .settle task serial :: k⟩ :: rest) :
      Moves m (({ m with jobs := rest } : Machine).settle task serial o)
  | report {tag : Nat} {o : Outcome} {k : Stack} {rest : List Job}
      (hj : m.jobs = ⟨o, .report tag :: k⟩ :: rest) :
      Moves m (({ m with jobs := rest } : Machine).report tag o)

lemma Moves.perform {j : Job} {rest : List Job} (hj : m.jobs = j :: rest)
    (hs : Stack.Obeys D m.allocated j.stack) :
    Moves m (({ m with jobs := rest } : Machine).perform j) := by
  obtain ⟨o, stack⟩ := j
  cases stack with
  | nil => exact .drop hj
  | cons f k =>
    rcases hs f (List.mem_cons_self ..) with hf | hf
    · have hbottom := hf.not_isBottom
      cases o with
      | ok v =>
        have heq := accept_eq (m := { m with jobs := rest }) hf v k
        simp only [Machine.perform, heq]
        exact .turn hj hbottom
      | error e =>
        simp only [Machine.perform, refuse_eq hf]
        exact .fault hj hbottom
    · cases f with
      | settle task serial => cases o <;> exact .settle hj
      | report tag => cases o <;> exact .report hj
      | _ => exact hf.elim

/-- **A step is a move.** -/
theorem step_moves (hm : m.Obeys D) : Moves m m.step := by
  cases hj : m.jobs with
  | cons j rest =>
    rw [step_of_jobs hj]
    exact .perform hj (hm.jobs j (hj ▸ List.mem_cons_self ..)).2
  | nil =>
    cases hp : m.parked with
    | cons k rest =>
      rw [step_of_parked hj hp]
      exact .release hj hp
    | nil =>
      have hq : m.quiet = true := by simp [quiet, hj, hp]
      rw [step_of_quiet hq]
      exact .rest hq

/-- The next job is not part of a task given from outside. -/
def Unscripted (m : Machine) : Prop :=
  ∀ {o : Outcome} {f : Frame} {k : Stack} {rest : List Job},
    m.jobs = ⟨o, f :: k⟩ :: rest → ¬ f.IsScripted

lemma Obeys.unscripted (hm : m.Obeys D) : m.Unscripted := by
  intro o f k rest hj
  obtain ⟨-, hs⟩ := hm.jobs _ (hj ▸ List.mem_cons_self ..)
  rcases hs f (List.mem_cons_self ..) with hf | hf
  · exact hf.not_isScripted
  · exact hf.not_isScripted

lemma Moves.eq_step_of_unscripted {m' : Machine} (h : Moves m m') (hm : m.Unscripted) :
    m' = m.step := by
  cases h with
  | rest hq => exact (step_of_quiet hq).symm
  | release hj hp => exact (step_of_parked hj hp).symm
  | drop hj => exact (step_of_jobs hj).symm
  | turn hj hf => exact ((step_of_jobs hj).trans (accept_eq_turn (hm hj) hf _ _)).symm
  | fault hj hf => exact ((step_of_jobs hj).trans (refuse_eq_resume (hm hj) hf _ _)).symm
  | @settle task serial o k rest hj => cases o <;> exact (step_of_jobs hj).symm
  | @report tag o k rest hj => cases o <;> exact (step_of_jobs hj).symm

lemma Moves.eq_step {m' : Machine} (h : Moves m m') (hm : m.Obeys D) : m' = m.step :=
  h.eq_step_of_unscripted hm.unscripted

end Machine

/-! ### Beginnings -/

/-- What a run begins with: a program, a document that is validated first, or a document
without a list of declarations. -/
inductive Source
  | program (p : Program)
  | document (doc : Option Json)
  | unlisted

def Source.start (policy : Policy) : Source → Machine
  | program p => ({ policy } : Machine).startProgram p [.report 0]
  | document doc => ({ policy } : Machine).startDocument doc [.report 0]
  | unlisted =>
    ({ policy } : Machine).resume [.report 0] (.error (.misuse (.notIterable "declarations")))

def Source.run (fuel : Nat) (policy : Policy) (s : Source) : Option Finished :=
  Finished.ofMachine fuel 0 (s.start policy)

lemma Source.run_program (fuel : Nat) (policy : Policy) (p : Program) :
    (program p).run fuel policy = p.run fuel policy := rfl

lemma Source.run_document (fuel : Nat) (policy : Policy) (doc : Option Json) :
    (document doc).run fuel policy = interpret fuel policy doc := rfl

lemma Source.run_unchecked (fuel : Nat) (policy : Policy) (place : Place) (doc : Option Json) :
    (((Program.ofJson? place doc).map program).getD unlisted).run fuel policy =
      runUnchecked fuel policy place doc := by
  unfold runUnchecked
  cases Program.ofJson? place doc <;> rfl

lemma Source.starts (s : Source) (policy : Policy) : Machine.Starts policy (s.start policy) := by
  cases s with
  | program p => exact .program p
  | document doc => exact .document doc
  | unlisted => exact .unlisted

inductive Sequel.Opens : Sequel → Prop
  | hand {fs : Stack} (hp : ∀ g ∈ fs, g.IsPlain) (hl : fs.length ≤ 4) (o : Outcome) :
      Opens (.hand fs o)
  | count {e : Expr} {env : Env} {gs : Stack} (hp : ∀ g ∈ gs, g.IsPlain) (hl : gs.length ≤ 2) :
      Opens (.count (.eval e env :: gs))

lemma Program.opens (p : Program) (under : Stack) (hp : ∀ g ∈ under, g.IsPlain)
    (hl : under.length ≤ (if p.main?.isSome then 1 else 2)) :
    ∃ q : Sequel, q.Opens ∧ ∀ (m : Machine) (k : Stack),
      m.startProgram p (under ++ k) = q.apply k m := by
  have hpass : (Frame.pass).IsPlain := .inl rfl
  cases hmain : p.main? with
  | none =>
    refine ⟨.hand under (.error .noMainDeclaration), .hand hp ?_ _, fun m k => ?_⟩
    · rw [hmain] at hl
      simp only [Option.isSome_none, Bool.false_eq_true, if_false] at hl
      omega
    · simp only [Machine.startProgram, hmain]
      rfl
  | some g =>
    rw [hmain] at hl
    simp only [Option.isSome_some, if_true] at hl
    have hstart : ∀ (m : Machine) (k : Stack), m.startProgram p (under ++ k) =
        m.enter (g.call p.globals) (under ++ k) := fun m k => by
      simp only [Machine.startProgram, hmain]
    simp only [hstart]
    cases g.call p.globals with
    | value v =>
      refine ⟨.hand (.pass :: .pass :: under) (.ok v), .hand ?_ ?_ _, fun _ _ => rfl⟩
      · simpa [hpass] using hp
      · simp only [List.length_cons]
        omega
    | body e env =>
      refine ⟨.count (.eval e env :: .pass :: under), .count ?_ ?_, fun _ _ => rfl⟩
      · simpa [hpass] using hp
      · simp only [List.length_cons]
        omega
    | fault f => exact ⟨.hand under (.error f), .hand hp (by omega) _, fun _ _ => rfl⟩

/-- **A run begins with a sequel**, whatever its limits are. -/
theorem Source.opens (s : Source) : ∃ q : Sequel, q.Opens ∧
    ∀ policy, s.start policy = q.apply [.report 0] { policy } := by
  have hfault : ∀ f : Fault, (Sequel.hand [] (.error f)).Opens := fun f =>
    .hand (by simp) (by simp) _
  cases s with
  | program p =>
    obtain ⟨q, hq, hstart⟩ := p.opens [] (by simp) (by simp)
    exact ⟨q, hq, fun policy => hstart _ _⟩
  | unlisted => exact ⟨_, hfault _, fun _ => rfl⟩
  | document doc =>
    simp only [Source.start, Machine.startDocument]
    cases validate doc with
    | error r => exact ⟨_, hfault _, fun _ => rfl⟩
    | ok v =>
      simp only
      cases hmain : v.program.main? with
      | some g =>
        obtain ⟨q, hq, hstart⟩ := v.program.opens [.pass] (by simp [Frame.IsPlain])
          (by simp [hmain])
        exact ⟨q, hq, fun policy => hstart _ _⟩
      | none =>
        obtain ⟨q, hq, hstart⟩ := v.program.opens [.pass, .pass]
          (by simp [Frame.IsPlain]) (by simp [hmain])
        exact ⟨q, hq, fun policy => hstart _ _⟩

end Parley
