import Parley.Proofs.Discipline

/-!
What a process does in one job.

A frame that is handed a value takes notes, sends, forks and allocates channels, and then goes
on in one of three ways: with an outcome for the frames below, by counting a step, or by
receiving. `Acts` says so once for all frames, and what a machine keeps to is derived from it.
-/

namespace Parley

def Call.Obeys (D : Discipline) (n : Nat) : Call → Prop
  | .value v => v.Obeys D n
  | .body e env => e.Every D.node ∧ Env.Obeys D n env
  | .fault f => f.Arises D

namespace Machine

variable {D : Discipline} {m m' : Machine} {k : Stack}

/-! ### Queues -/

lemma send_of_nil {q : QueueId} (v : Value) (h : (m.queue q).waiting = []) :
    m.send q v = m.setQueue q ⟨(m.queue q).buffer ++ [v], []⟩ := by
  simp [send, Queue.send, h]

lemma send_of_cons {q : QueueId} (v : Value) {rest : List Stack}
    (h : (m.queue q).waiting = k :: rest) :
    m.send q v = (m.setQueue q ⟨(m.queue q).buffer, rest⟩).resume k (.ok v) := by
  simp [send, Queue.send, h]

lemma recv_of_nil {q : QueueId} (k : Stack) (h : (m.queue q).buffer = []) :
    m.recv q k = m.setQueue q ⟨[], (m.queue q).waiting ++ [k]⟩ := by
  simp [recv, Queue.recv, Queue.tryRecv, h]

lemma recv_of_cons {q : QueueId} (k : Stack) {v : Value} {rest : List Value}
    (h : (m.queue q).buffer = v :: rest) :
    m.recv q k = (m.setQueue q ⟨rest, (m.queue q).waiting⟩).resume k (.ok v) := by
  simp [recv, Queue.recv, Queue.tryRecv, h]

/-- A task that nobody waits for only closes its books and leaves a note. -/
lemma settle_of_nobody {task : Atom} {serial : Nat} {o : Outcome} (h : m.awaiting = []) :
    m.settle task serial o =
      let closed := { m with tasks := m.tasks.settle m.policy task o }
      match o with
      | .ok v => if closed.canTrace v then closed.trace (.finished task v) else closed
      | .error f => closed.note (.failed task f) := by
  cases o with
  | ok v =>
    simp only [settle, trace]
    split
    · split <;> simp [note, release, h]
    · simp [release, h]
  | error f => simp [settle, note, release, h]

/-! ### What operations leave alone -/

@[simp] lemma allocated_trace (m : Machine) (t : Note) :
    (m.trace t).allocated = m.allocated := by
  unfold trace; split <;> rfl

@[simp] lemma allocated_check (m : Machine) (k : Stack) :
    (m.check k).allocated = m.allocated := by
  simp only [check]; split
  · rfl
  · split <;> rfl

@[simp] lemma allocated_send (m : Machine) (q : QueueId) (v : Value) :
    (m.send q v).allocated = m.allocated := by
  unfold send; split <;> rfl

@[simp] lemma allocated_fork (m : Machine) (e : Expr) (env : Env) :
    (m.fork e env).allocated = m.allocated := by
  simp [fork, eval, nextName, register]

/-! ### Acting -/

/-- What a process on top of the frames `k` may do in one job, all that it leaves behind being
in order. -/
inductive Acts (D : Discipline) (k : Stack) : Machine → Machine → Prop
  | resume {m : Machine} (fs : Stack) (hf : ∀ f ∈ fs, f.Obeys D m.allocated) {o : Outcome}
      (ho : Outcome.Obeys D m.allocated o) : Acts D k m (m.resume (fs ++ k) o)
  | check {m : Machine} (fs : Stack) (hf : ∀ f ∈ fs, f.Obeys D m.allocated) :
      Acts D k m (m.check (fs ++ k))
  | recv {m : Machine} {on : Endpoint} (h : D.ends m.allocated on) :
      Acts D k m (m.recv on.read (.received on :: k))
  | note {m m' : Machine} {t : Note} (ht : t.Obeys D m.allocated)
      (next : Acts D k (m.note t) m') : Acts D k m m'
  | send {m m' : Machine} {on : Endpoint} {v : Value} (hv : v.Obeys D m.allocated)
      (h : D.ends m.allocated on) (next : Acts D k (m.send on.write v) m') : Acts D k m m'
  | fork {m m' : Machine} {e : Expr} {env : Env} (he : e.Every D.node)
      (henv : Env.Obeys D m.allocated env) (next : Acts D k (m.fork e env) m') : Acts D k m m'
  | channel {m m' : Machine} (next : Acts D k m.newChannel.2 m') : Acts D k m m'

namespace Acts

lemma trace {t : Note} (ht : t.Obeys D m.allocated) (next : Acts D k (m.trace t) m') :
    Acts D k m m' := by
  unfold Machine.trace at next
  split at next
  · exact .note ht next
  · exact next

lemma hand {o : Outcome} (ho : Outcome.Obeys D m.allocated o) : Acts D k m (m.resume k o) :=
  .resume [] (by simp) ho

lemma fault {f : Fault} (hf : f.Arises D) : Acts D k m (m.resume k (.error f)) := hand hf

lemma eval (fs : Stack) {e : Expr} {env : Env} (he : e.Every D.node)
    (henv : Env.Obeys D m.allocated env) (hf : ∀ f ∈ fs, f.Obeys D m.allocated) :
    Acts D k m (m.eval e env (fs ++ k)) := by
  refine .check (.eval e env :: fs) fun f hm => ?_
  rcases List.mem_cons.mp hm with rfl | hm
  · exact ⟨he, henv⟩
  · exact hf f hm

lemma resumeWith {α : Type} {r : Except Fault α} {next : α → Machine}
    (hf : ∀ f, r = .error f → f.Arises D) (hn : ∀ a, r = .ok a → Acts D k m (next a)) :
    Acts D k m (m.resumeWith k r next) := by
  cases r with
  | ok a => exact hn a rfl
  | error f => exact fault (hf f rfl)

lemma done (e : Expr) {v : Value} (hv : v.Obeys D m.allocated) :
    Acts D k m (m.done e v k) := by
  unfold Machine.done
  split
  · exact .resume [.leave e.caption] (by simp) hv
  · exact hand hv

lemma enter {c : Call} (hc : c.Obeys D m.allocated) : Acts D k m (m.enter c k) := by
  cases c with
  | value v => exact .resume [.pass, .pass] (by simp) hc
  | body e env => exact eval [.pass] hc.1 hc.2 (by simp)
  | fault f => exact fault hc

lemma refer (e : Expr) {c : Call} (hc : c.Obeys D m.allocated) :
    Acts D k m (m.refer e c k) := by
  cases c with
  | value v =>
    simp only [Machine.refer]
    split
    · exact .resume [.leave e.caption] (by simp) hc
    · exact .resume [.pass, .pass] (by simp) hc
  | body b env =>
    simp only [Machine.refer, inside]
    split
    · exact eval [.leave e.caption] hc.1 hc.2 (by simp)
    · exact eval [.pass] hc.1 hc.2 (by simp)
  | fault f => exact fault hc

/-- Evaluating a part, with one frame that takes its value. -/
lemma part (e : Expr) {a : Expr} {env : Env} {f : Frame} (ha : a.Every D.node)
    (henv : Env.Obeys D m.allocated env) (hf : f.Obeys D m.allocated) :
    Acts D k m (m.eval a env (f :: m.inside e k)) := by
  unfold inside
  split
  · exact eval [f, .leave e.caption] ha henv (by simp [hf])
  · exact eval [f, .pass] ha henv (by simp [hf])

end Acts

end Machine

lemma Global.call_obeys {D : Discipline} (hD : D.Lawful) {n : Nat} {name : Atom} {g : Global}
    {env : Env} (hg : D.global name g) (henv : Env.Obeys D n env) : (g.call env).Obeys D n := by
  unfold Global.call
  split
  · next hm => exact .noParams hg hm
  · exact ⟨hD.body hg, henv⟩
  · next hp => exact henv.function (hD.params hg hp) (hD.body hg)

lemma Recursion.zeroEnv_obeys {D : Discipline} {r : Recursion} {n i : Nat}
    (h : Env.Obeys D n r.env) : Env.Obeys D n (r.zeroEnv i) := by
  unfold Recursion.zeroEnv
  split
  · exact h
  · exact h.set _ (.int _)

/-! ### Taking values apart -/

namespace Value

variable {D : Discipline} {n : Nat} {v : Value} {s : String}

/-- The complaint about a value of another variant arises. -/
lemma as_arises (hv : v.Obeys D n) {f : Fault}
    (h : v.asInt s = .error f ∨ v.asPair s = .error f ∨ v.asLabel s = .error f ∨
      v.asChannel s = .error f) : f.Arises D := by
  rcases h with h | h | h | h
  all_goals
    cases v <;>
      simp only [asInt, asPair, asLabel, asChannel, Except.error.injEq, reduceCtorEq] at h <;>
      exact h ▸ .mismatch hv _ _

lemma asPair_obeys {a b : Value} (hv : v.Obeys D n) (h : v.asPair s = .ok (a, b)) :
    a.Obeys D n ∧ b.Obeys D n := by
  cases hv <;> simp only [asPair, Except.ok.injEq, Prod.mk.injEq, reduceCtorEq] at h
  case pair ha hb => exact h.1 ▸ h.2 ▸ ⟨ha, hb⟩

lemma asLabel_obeys {name : Atom} (hv : v.Obeys D n) (h : v.asLabel s = .ok name) :
    D.node (.label name) := by
  cases hv <;> simp only [asLabel, Except.ok.injEq, reduceCtorEq] at h
  case label hn => exact h ▸ hn

lemma asChannel_obeys {e : Endpoint} (hv : v.Obeys D n) (h : v.asChannel s = .ok e) :
    D.ends n e := by
  cases hv <;> simp only [asChannel, Except.ok.injEq, reduceCtorEq] at h
  case channel he => exact h ▸ he

end Value

lemma ArithOp.apply_arises {D : Discipline} {op : ArithOp} {a b : Int} {f : Fault}
    (h : op.apply a b = .error f) : f.Arises D := by
  cases op <;> simp only [apply, reduceCtorEq] at h
  split at h
  · cases h; exact .division
  · cases h

namespace Machine

variable {D : Discipline} {m m' : Machine} {k : Stack}

/-! ### What each frame does -/

/-- Applying a value takes a note and sends at most; what is called is in order. -/
lemma apply_acts {fn arg : Value} {c : Call} (hfn : fn.Obeys D m.allocated)
    (harg : arg.Obeys D m.allocated) (h : m.apply fn arg = some (c, m')) :
    c.Obeys D m'.allocated ∧ ∀ {m''}, Acts D k m' m'' → Acts D k m m'' := by
  cases hfn with
  | @function param more body env params code values globals =>
    have henv : Env.Obeys D m.allocated env := ⟨values, globals⟩
    cases param with
    | none =>
      simp only [apply, Option.some.injEq, Prod.mk.injEq] at h
      obtain ⟨rfl, rfl⟩ := h
      exact ⟨.noParam (params none (by simp)), id⟩
    | some param =>
      -- the last parameter starts the body, any other leaves a function
      cases more with
      | nil =>
        simp only [apply, Option.some.injEq, Prod.mk.injEq] at h
        obtain ⟨rfl, rfl⟩ := h
        exact ⟨⟨code, henv.set param harg⟩, id⟩
      | cons p ps =>
        simp only [apply, Option.some.injEq, Prod.mk.injEq] at h
        obtain ⟨rfl, rfl⟩ := h
        exact ⟨(henv.set param harg).function (fun q hq => params q (by simp [hq])) code, id⟩
  | @sender on hon =>
    simp only [apply] at h
    split at h
    · simp only [Option.some.injEq, Prod.mk.injEq] at h
      obtain ⟨rfl, rfl⟩ := h
      refine ⟨.channel (by simpa using hon), fun hnext => ?_⟩
      refine .trace (t := .sent arg on) ⟨harg, hon⟩ ?_
      exact .send (by simpa using harg) (by simpa using hon) hnext
    · next hc =>
      simp only [Option.some.injEq, Prod.mk.injEq] at h
      obtain ⟨rfl, rfl⟩ := h
      exact ⟨.noText (.pair harg (.channel hon)) (by simp [canTrace] at hc; simp [hc.2]), id⟩
  | _ => simp [apply] at h

/-- The first part of an expression is started, or the expression is done. -/
lemma evalParts_acts (hD : D.Lawful) {e : Expr} {env : Env} (he : e.Every D.node)
    (henv : Env.Obeys D m.allocated env) : Acts D k m (m.evalParts e env k) := by
  have hp : ∀ {a}, a ∈ e.parts → a.Every D.node := he.part
  have hz : ∀ i, i = 0 ∨ i = 1 → (Expr.int (.number (.integer i))).Every D.node := fun i hi =>
    ⟨hD.small i hi, by simp [Expr.parts]⟩
  cases e with
  | unit => exact .done _ .unit
  | label name => exact .done _ (.label he.here)
  | int l =>
    simp only [evalParts]
    split
    · exact .done _ (.int _)
    · next hl => exact .fault (.literal (.inl he.here) hl)
  | nat l =>
    simp only [evalParts]
    split
    · exact .done _ (.int _)
    · next hl => exact .fault (.literal (.inr he.here) hl)
  | var name =>
    simp only [evalParts]
    split
    · next g hg =>
      rcases henv.find hg with h | ⟨g', h, hg'⟩
      · exact absurd rfl (h.ne_global g)
      · cases h
        exact .refer _ (Global.call_obeys hD hg' henv)
    · next v hn hv =>
      rcases henv.find hv with h | ⟨g, rfl, -⟩
      · exact .done _ h
      · exact absurd rfl (hn g)
    · exact .fault (.unbound he.here)
  | arith op a b =>
    exact .part _ (hp (by simp [Expr.parts])) henv ⟨hp (by simp [Expr.parts]), henv⟩
  | negate a => exact .part _ (hz 0 (.inl rfl)) henv ⟨hp (by simp [Expr.parts]), henv⟩
  | succ a => exact .part _ (hz 1 (.inr rfl)) henv ⟨hp (by simp [Expr.parts]), henv⟩
  | letIn name a b =>
    exact .part _ (hp (by simp [Expr.parts])) henv ⟨hp (by simp [Expr.parts]), henv⟩
  | letPair first second a b =>
    exact .part _ (hp (by simp [Expr.parts])) henv ⟨hp (by simp [Expr.parts]), henv⟩
  | pair name a b =>
    exact .part _ (hp (by simp [Expr.parts])) henv ⟨hp (by simp [Expr.parts]), henv⟩
  | fst a => exact .part _ (hp (by simp [Expr.parts])) henv trivial
  | snd a => exact .part _ (hp (by simp [Expr.parts])) henv trivial
  | lambda param a =>
    refine .done _ (henv.function ?_ (hp (by simp [Expr.parts])))
    simpa using hD.named param
  | app fn a => exact .part _ (hp (by simp [Expr.parts])) henv ⟨hp (by simp [Expr.parts]), henv⟩
  | fork a => exact .fork (hp (by simp [Expr.parts])) henv (.done _ .unit)
  | channel =>
    obtain ⟨h1, h2⟩ := hD.fresh m.allocated
    exact .channel (.done _ (.pair (.channel h1) (.channel h2)))
  | send a => exact .part _ (hp (by simp [Expr.parts])) henv trivial
  | recv a => exact .part _ (hp (by simp [Expr.parts])) henv trivial
  | caseOf a bs rest =>
    refine .part _ (hp (by simp [Expr.parts])) henv ⟨⟨a, he.here⟩, fun b hb => ?_, henv⟩
    exact hp (by simpa [Expr.parts] using .inr ⟨b.1, hb⟩)
  | natRec a b counter acc c =>
    exact .part _ (hp (by simp [Expr.parts])) henv
      ⟨hp (by simp [Expr.parts]), hp (by simp [Expr.parts]), henv⟩
  | unknown kind shown => exact .fault (.unknown he.here)
  | missing g => exact .fault (.missing he.here)

lemma evalCounted_acts (hD : D.Lawful) {e : Expr} {env : Env} (he : e.Every D.node)
    (henv : Env.Obeys D m.allocated env) : Acts D k m (m.evalCounted e env k) := by
  unfold evalCounted
  split
  · exact evalParts_acts hD he henv
  · exact .trace (t := .enter _) trivial (evalParts_acts hD he (by simpa using henv))
  · next hc =>
    split
    · exact .fault (.noCaption he.here hc)
    · exact evalParts_acts hD he henv

/-- **Every frame above the bottom acts.** -/
theorem accept_acts (hD : D.Lawful) {f : Frame} {v : Value} (hf : f.Obeys D m.allocated)
    (hv : v.Obeys D m.allocated) : Acts D k m (m.accept f v k) := by
  cases f with
  | pass => exact .hand hv
  | eval e env => exact evalCounted_acts hD hf.1 hf.2
  | leave caption =>
    simp only [accept]
    split
    · exact .trace (t := .leave caption v) hv (.hand (by rw [allocated_trace]; exact hv))
    · next hc => exact .fault (.noText hv (by simp [canTrace] at hc; exact hc.2))
  | leftOperand op right env =>
    refine .resumeWith (fun f h => Value.as_arises hv (.inl h)) fun a _ => ?_
    exact .eval [.rightOperand op a] hf.1 hf.2 (by simp [Frame.Obeys])
  | rightOperand op a =>
    refine .resumeWith (fun f h => Value.as_arises hv (.inl h)) fun b _ => ?_
    exact .resumeWith (fun f h => ArithOp.apply_arises h) fun c _ => .hand (.int c)
  | letBody name body env => exact .eval [.pass] hf.1 (hf.2.set name hv) (by simp)
  | letPairBody first second body env =>
    refine .resumeWith (fun f h => Value.as_arises hv (.inr (.inl h))) fun (a, b) h => ?_
    obtain ⟨ha, hb⟩ := Value.asPair_obeys hv h
    exact .eval [.pass] hf.1 ((hf.2.set second hb).set first ha) (by simp)
  | pairSecond name second env =>
    exact .eval [.pairUp v] hf.1 (hf.2.set name hv) (by simpa [Frame.Obeys] using hv)
  | pairUp first => exact .hand (.pair hf hv)
  | takeFirst =>
    refine .resumeWith (fun f h => Value.as_arises hv (.inr (.inl h))) fun p h => ?_
    exact .hand (Value.asPair_obeys hv h).1
  | takeSecond =>
    refine .resumeWith (fun f h => Value.as_arises hv (.inr (.inl h))) fun p h => ?_
    exact .hand (Value.asPair_obeys hv h).2
  | callee fn env => exact .eval [.call v] hf.1 hf.2 (by simpa [Frame.Obeys] using hv)
  | call arg =>
    simp only [accept]
    split
    · next c m' h =>
      obtain ⟨hc, hnext⟩ := apply_acts (k := k) hv hf h
      exact hnext (.enter hc)
    · exact .fault (.mismatch hv _ _)
  | branch bs rest env =>
    -- a branch is found, or the list cannot be searched any further, or no label matches
    obtain ⟨⟨scrutinee, hnode⟩, hbs, henv⟩ := hf
    refine .resumeWith (fun f h => Value.as_arises hv (.inr (.inr (.inl h)))) fun name h => ?_
    split
    · next body hb => exact .eval [.pass] (hbs _ (Table.mem_of_find? hb)) henv (by simp)
    · exact .fault (.noSearch hnode)
    · exact .fault (.noCase hnode (Value.asLabel_obeys hv h))
  | makeSender =>
    refine .resumeWith (fun f h => Value.as_arises hv (.inr (.inr (.inr h)))) fun e h => ?_
    exact .hand (.sender (Value.asChannel_obeys hv h))
  | receive =>
    refine .resumeWith (fun f h => Value.as_arises hv (.inr (.inr (.inr h)))) fun e h => ?_
    exact .recv (Value.asChannel_obeys hv h)
  | received on =>
    simp only [accept]
    split
    · refine .trace (t := .received v on) ⟨hv, hf⟩ (.hand ?_)
      rw [allocated_trace]
      exact .pair hv (.channel hf)
    · next hc =>
      refine .fault (.noText (.pair hv (.channel hf)) ?_)
      simp only [canTrace, Bool.not_eq_true, Bool.or_eq_false_iff] at hc
      exact hc.2
  | recursionIndex r =>
    refine .resumeWith (fun f h => Value.as_arises hv (.inl h)) fun n _ => ?_
    split
    · exact .fault (.index n)
    · exact .eval [.recursionRound r 1 n.toNat] hf.1 (Recursion.zeroEnv_obeys hf.2.2)
        (by simpa [Frame.Obeys] using hf)
  | recursionRound r i n =>
    simp only [accept]
    split
    · exact .eval [.recursionRound r (i + 1) n] hf.2.1 ((hf.2.2.set _ hv).set _ (.int _))
        (by simpa [Frame.Obeys] using hf)
    · exact .hand hv
  | steps | take | strand | settle | report => exact hf.elim

lemma refuse_eq {f : Frame} {n : Nat} (hf : f.Obeys D n) (fault : Fault) (k : Stack) :
    m.refuse f fault k = m.resume k (.error fault) := by
  cases f with
  | settle | report | strand => exact hf.elim
  | _ => rfl

/-! ### Steps -/

lemma step_of_jobs {j : Job} {rest : List Job} (h : m.jobs = j :: rest) :
    m.step = ({ m with jobs := rest } : Machine).perform j := by
  simp [step, h]

lemma step_of_parked {rest : List Stack} (hj : m.jobs = []) (hp : m.parked = k :: rest) :
    m.step = { m with parked := rest, jobs := [⟨.ok .unit, k⟩] } := by
  simp [step, hj, hp]

lemma step_of_quiet (h : m.quiet = true) : m.step = m := by
  simp only [quiet, Bool.and_eq_true, List.isEmpty_iff] at h
  simp [step, h.1, h.2]

end Machine

end Parley
