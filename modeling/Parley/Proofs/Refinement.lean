import Parley.Proofs.Direct
import Parley.Proofs.Preservation
import Parley.Proofs.Proper
import Mathlib.Data.List.Permutation

/-!
The machine does what the direct reading says. A program without forks is one process, so
between two of its jobs nothing else is on its way; what one layer of evaluation does is then
followed frame by frame, and a computation that is cut off keeps the machine busy for as many
steps as it had layers. Pauses and traces change how many jobs that takes and nothing else.
-/

namespace Parley

def Expr.isFork : Expr → Bool
  | .fork _ => true
  | _ => false

abbrev Discipline.single : Discipline := .proper (·.isFork = false)

lemma Discipline.lawful_single : single.Lawful := lawful_proper fun _ _ => rfl

namespace Machine

open Direct

/-! ### Being busy -/

def Busy (n : Nat) (m : Machine) : Prop := (Machine.step^[n] m).quiet = false

variable {m b : Machine} {n : Nat} {k : Stack}

lemma Busy.of_iterate {i j : Nat} (h : Busy n (Machine.step^[i] m)) (hj : j ≤ n + i) :
    Busy j m := by
  unfold Busy at h ⊢
  rw [← Function.iterate_add_apply] at h
  cases hq : (Machine.step^[j] m).quiet with
  | false => rfl
  | true =>
    obtain ⟨l, hl⟩ := Nat.exists_eq_add_of_le hj
    rw [hl, Nat.add_comm j l, Function.iterate_add_apply, iterate_of_quiet hq, hq] at h
    cases h

/-! ### Resting machines -/

def store (m : Machine) : Store := ⟨fun q => (m.queue q).buffer, m.allocated, m.steps⟩

/-- Nothing is on its way, nobody waits, and nothing has been reported. -/
structure Resting (policy : Policy) (m : Machine) : Prop where
  policy : m.policy = policy
  jobs : m.jobs = []
  parked : m.parked = []
  events : m.events = #[]
  waiting : ∀ q, (m.queue q).waiting = []

variable {policy : Policy}

lemma Resting.note (hb : b.Resting policy) (t : Note) : (b.note t).Resting policy := { hb with }

lemma Resting.trace (hb : b.Resting policy) (t : Note) : (b.trace t).Resting policy := by
  unfold Machine.trace
  split
  · exact hb.note t
  · exact hb

@[simp] lemma store_trace (b : Machine) (t : Note) : (b.trace t).store = b.store := by
  unfold Machine.trace
  split <;> rfl

@[simp] lemma queue_trace (b : Machine) (t : Note) (q : QueueId) :
    (b.trace t).queue q = b.queue q := by
  unfold Machine.trace
  split <;> rfl

lemma Resting.setQueue (hb : b.Resting policy) (q : QueueId) (vs : List Value) :
    (b.setQueue q ⟨vs, []⟩).Resting policy := by
  refine { hb with waiting := fun r => ?_ }
  by_cases hr : r = q
  · rw [hr, queue_setQueue_self]
  · rw [queue_setQueue_of_ne _ _ hr]
    exact hb.waiting r

lemma store_setQueue (b : Machine) (q : QueueId) (c : Queue Value Stack) :
    (b.setQueue q c).store = b.store.write q c.buffer := by
  have hcontents : (fun r => ((b.setQueue q c).queue r).buffer) =
      fun r => if r = q then c.buffer else (b.queue r).buffer := by
    funext r
    by_cases hr : r = q
    · rw [hr, queue_setQueue_self, if_pos rfl]
    · rw [queue_setQueue_of_ne _ _ hr, if_neg hr]
  unfold store Store.write
  rw [hcontents]
  rfl

lemma step_resume (hb : b.Resting policy) (k : Stack) (o : Outcome) :
    (b.resume k o).step = b.perform ⟨o, k⟩ := by
  have hjobs : (b.resume k o).jobs = [⟨o, k⟩] := by simp [resume, hb.jobs]
  rw [step_of_jobs hjobs]
  obtain ⟨-, hj, -⟩ := hb
  cases b
  cases hj
  rfl

lemma step_resume_ok (hb : b.Resting policy) (f : Frame) (k : Stack) (v : Value) :
    (b.resume (f :: k) (.ok v)).step = b.accept f v k := step_resume hb _ _

lemma step_resume_error (hb : b.Resting policy) (f : Frame) (k : Stack) (fault : Fault) :
    (b.resume (f :: k) (.error fault)).step = b.refuse f fault k := step_resume hb _ _

/-! ### Doing what a computation says -/

/-- The frames `k` are handed an outcome, and nothing else is left but the store `s`. -/
def Hands (policy : Policy) (k : Stack) (m : Machine) (o : Outcome) (s : Store) : Prop :=
  ∃ (i : Nat) (b : Machine), Machine.step^[i] m = b.resume k o ∧ b.Resting policy ∧ b.store = s

lemma Hands.later {i : Nat} {o : Outcome} {s : Store}
    (h : Hands policy k (Machine.step^[i] m) o s) : Hands policy k m o s := by
  obtain ⟨j, b, hj, hb⟩ := h
  rw [← Function.iterate_add_apply] at hj
  exact ⟨j + i, b, hj, hb⟩

/-- A machine ends up with what came of a computation, handed to the frames `k`. Where the
computation was cut off, it has something to do for `n` steps; where it is blocked, it has not. -/
def Realises (policy : Policy) (n : Nat) (k : Stack) (m : Machine) :
    Option (Result Value × Store) → Prop
  | none => Busy n m
  | some (.value v, s) => Hands policy k m (.ok v) s
  | some (.fault f, s) => Hands policy k m (.error f) s
  | some (.blocked on, s) =>
    ∃ i, (Machine.step^[i] m).quiet = true ∧ (Machine.step^[i] m).events = #[] ∧
      (Machine.step^[i] m).store = s ∧ s.contents on.read = []

namespace Realises

variable {r : Option (Result Value × Store)} {s : Store} {f : Frame}

lemma later {i l : Nat} (h : Realises policy n k (Machine.step^[i] m) r) (hl : l ≤ n + i) :
    Realises policy l k m r := by
  match r, h with
  | none, h => exact h.of_iterate hl
  | some (.value v, s), h => exact Hands.later h
  | some (.fault f, s), h => exact Hands.later h
  | some (.blocked on, s), ⟨j, hj⟩ =>
    rw [← Function.iterate_add_apply] at hj
    exact ⟨j + i, hj⟩

lemma next (h : Realises policy n k m.step r) : Realises policy n k m r :=
  later (i := 1) h (by omega)

lemma value (hb : b.Resting policy) (v : Value) :
    Realises policy n k (b.resume k (.ok v)) (some (.value v, b.store)) :=
  ⟨0, b, rfl, hb, rfl⟩

lemma fault (hb : b.Resting policy) (f : Fault) :
    Realises policy n k (b.resume k (.error f)) (some (.fault f, b.store)) :=
  ⟨0, b, rfl, hb, rfl⟩

/-- A frame takes the value of a computation, and what it does with it is the rest. -/
lemma bind {c : Comp Value} {g : Value → Comp Value} (hm : m.Obeys .single)
    (hf : ∀ (b : Machine) (fault : Fault), b.refuse f fault k = b.resume k (.error fault))
    (h : Realises policy n (f :: k) m (c s))
    (hg : ∀ (v : Value) (b : Machine), b.Resting policy → v.Obeys .single b.allocated →
      (b.accept f v k).Obeys .single → Realises policy n k (b.accept f v k) (g v b.store)) :
    Realises policy n k m ((c >>= g) s) := by
  cases hc : c s with
  | none =>
    rw [bind_none hc]
    rw [hc] at h
    exact h
  | some p =>
    obtain ⟨r, t⟩ := p
    rw [hc] at h
    -- a value goes on through the frame, a fault passes it by, and who is blocked stays
    cases r with
    | value v =>
      obtain ⟨i, b, hi, hb, rfl⟩ := h
      have hobeys := hm.iterate Discipline.lawful_single i
      rw [hi] at hobeys
      have hstep := hobeys.step Discipline.lawful_single
      rw [step_resume_ok hb] at hstep
      have hv := (hobeys.jobs ⟨.ok v, f :: k⟩ (by simp [resume])).1
      have hrest := hg v b hb hv hstep
      rw [← step_resume_ok hb, ← hi] at hrest
      rw [bind_value hc]
      exact hrest.next.later (by omega)
    | fault fault =>
      obtain ⟨i, b, hi, hb, rfl⟩ := h
      rw [bind_fault hc]
      refine ⟨i + 1, b, ?_, hb, rfl⟩
      rw [Function.iterate_succ_apply', hi, step_resume_error hb, hf]
    | blocked on =>
      rw [bind_blocked hc]
      exact h

lemma through (hm : m.Obeys .single)
    (hf : ∀ (b : Machine) (fault : Fault), b.refuse f fault k = b.resume k (.error fault))
    (h : Realises policy n (f :: k) m r)
    (hg : ∀ (v : Value) (b : Machine), b.Resting policy → v.Obeys .single b.allocated →
      Realises policy n k (b.accept f v k) (some (.value v, b.store))) :
    Realises policy n k m r := by
  let c : Comp Value := fun _ => r
  have hc : Realises policy n (f :: k) m (c m.store) := h
  have hrest := hc.bind (g := pure) hm hf fun v b hb hv _ => hg v b hb hv
  rw [bind_pure] at hrest
  exact hrest

lemma pass (hm : m.Obeys .single) (h : Realises policy n (.pass :: k) m r) :
    Realises policy n k m r :=
  through hm (fun _ _ => rfl) h fun v _ hb _ => value hb v

lemma leave {caption : String} (hm : m.Obeys .single)
    (h : Realises policy n (.leave caption :: k) m r) : Realises policy n k m r := by
  refine through hm (fun _ _ => rfl) h fun v b hb hv => ?_
  have htrace : b.canTrace v = true := by simp [canTrace, hv.showable]
  simp only [accept, htrace, if_true]
  rw [← store_trace b (.leave caption v)]
  exact value (hb.trace _) v

lemma inside {e : Expr} (hm : m.Obeys .single) (h : Realises policy n (b.inside e k) m r) :
    Realises policy n k m r := by
  unfold Machine.inside at h
  split at h
  · exact h.leave hm
  · exact h.pass hm

lemma ofExcept {α : Type} {x : Except Fault α} {next : α → Machine} {g : α → Comp Value}
    (hb : b.Resting policy) (hm : (b.resumeWith k x next).Obeys .single)
    (h : ∀ a, x = .ok a → (next a).Obeys .single →
      Realises policy n k (next a) (g a b.store)) :
    Realises policy n k (b.resumeWith k x next) ((Comp.ofExcept x >>= g) b.store) := by
  cases x with
  | ok a => exact h a rfl hm
  | error f => exact fault hb f

lemma done {e : Expr} {v : Value} (hb : b.Resting policy) (hm : (b.done e v k).Obeys .single) :
    Realises policy n k (b.done e v k) (some (.value v, b.store)) := by
  unfold Machine.done at hm ⊢
  split at hm
  · next ht =>
    rw [if_pos ht]
    exact (value hb v).leave hm
  · next ht =>
    rw [if_neg ht]
    exact value hb v

end Realises

/-! ### What is called -/

/-- The machine does what an evaluator says of every expression. -/
def Follows (policy : Policy) (n : Nat) (ev : Expr → Env → Comp Value) : Prop :=
  ∀ (e : Expr) (env : Env) (k : Stack) (b : Machine), b.Resting policy →
    (b.eval e env k).Obeys .single → Realises policy n k (b.eval e env k) (ev e env b.store)

namespace Follows

variable {ev : Expr → Env → Comp Value} {env : Env}

lemma operate (h : Follows policy n ev) (hb : b.Resting policy) {op : ArithOp}
    {left right : Expr}
    (hm : (b.eval left env (.leftOperand op right env :: k)).Obeys .single) :
    Realises policy n k (b.eval left env (.leftOperand op right env :: k))
      (Direct.operate ev op left right env b.store) := by
  simp only [Direct.operate, Direct.combine_eq_apply]
  refine (h _ _ _ _ hb hm).bind hm (fun _ _ => rfl) fun v b hb _ hm => ?_
  refine .ofExcept hb hm fun i _ hm => ?_
  refine (h _ _ _ _ hb hm).bind hm (fun _ _ => rfl) fun w b hb _ hm => ?_
  refine .ofExcept hb hm fun j _ hm => ?_
  refine .ofExcept hb hm fun c _ hm => ?_
  exact .value hb (.int c)

lemma rounds (h : Follows policy n ev) {r : Recursion} {upTo : Nat} (left : Nat) {i : Nat}
    (hi : i + left = upTo + 1) {v : Value} (hb : b.Resting policy)
    (hm : (b.accept (.recursionRound r i upTo) v k).Obeys .single) :
    Realises policy n k (b.accept (.recursionRound r i upTo) v k)
      (Direct.rounds ev r.counter r.acc r.step r.env left i v b.store) := by
  induction left generalizing i v b with
  | zero =>
    have hacc : b.accept (.recursionRound r i upTo) v k = b.resume k (.ok v) :=
      if_neg (by omega)
    rw [hacc]
    exact .value hb v
  | succ left ih =>
    have hacc : b.accept (.recursionRound r i upTo) v k =
        b.eval r.step (r.stepEnv i v) (.recursionRound r (i + 1) upTo :: k) :=
      if_pos (by omega)
    rw [hacc] at hm ⊢
    exact (h _ _ _ _ hb hm).bind hm (fun _ _ => rfl) fun w b hb _ hm => ih (by omega) hb hm

lemma resolve (h : Follows policy n ev) (hb : b.Resting policy) {g : Global}
    (hm : (b.enter (g.call env) k).Obeys .single) :
    Realises policy n k (b.enter (g.call env) k) (Direct.resolve ev g env b.store) := by
  unfold Global.call at hm ⊢
  unfold Direct.resolve
  cases hp : g.params with
  | error m => exact .fault hb (.misuse m)
  | ok ps =>
    rw [hp] at hm
    cases ps with
    | nil => exact (h _ _ _ _ hb hm).pass hm
    | cons p ps =>
      have hv : Realises policy n (.pass :: .pass :: k) _ _ :=
        .value hb (.function p ps g.body env)
      exact (hv.pass hm).pass hm

lemma refer (h : Follows policy n ev) (hb : b.Resting policy) {e : Expr} {g : Global}
    (hm : (b.refer e (g.call env) k).Obeys .single) :
    Realises policy n k (b.refer e (g.call env) k) (Direct.resolve ev g env b.store) := by
  unfold Global.call at hm ⊢
  unfold Direct.resolve
  cases hp : g.params with
  | error m => exact .fault hb (.misuse m)
  | ok ps =>
    rw [hp] at hm
    cases ps with
    | nil => exact (h _ _ _ _ hb hm).inside hm
    | cons p ps =>
      simp only [Machine.refer] at hm ⊢
      split at hm
      · next ht =>
        rw [if_pos ht]
        exact (Realises.value hb _).leave hm
      · next ht =>
        rw [if_neg ht]
        exact ((Realises.value hb _).pass hm).pass hm

lemma apply (h : Follows policy n ev) (hb : b.Resting policy) {fn arg : Value} {i j : Nat}
    (hfn : fn.Obeys .single i) (harg : arg.Obeys .single j)
    (hm : (b.accept (.call arg) fn k).Obeys .single) :
    Realises policy n k (b.accept (.call arg) fn k) (Direct.apply ev fn arg b.store) := by
  cases hfn with
  | @function param more body env params code values globals =>
    cases param with
    | none => cases params none (List.mem_cons_self ..)
    | some param =>
      cases more with
      | nil => exact (h _ _ _ _ hb hm).pass hm
      | cons p ps =>
        have hv : Realises policy n (.pass :: .pass :: k) _ _ :=
          .value hb (.function p ps body (Table.set env param arg))
        exact (hv.pass hm).pass hm
  | @sender on hon =>
    have hshow : (Value.pair arg (.channel on)).showable = true :=
      (Value.Obeys.pair (harg.anyTime 0) (.channel hon)).showable
    have htrace : b.canTrace (.pair arg (.channel on)) = true := by simp [canTrace, hshow]
    -- nobody waits on the queue, so what is sent stays in it
    have hw := (hb.trace (.sent arg on)).waiting on.write
    have hacc : b.accept (.call arg) (.sender on) k = ((b.trace (.sent arg on)).setQueue on.write
        ⟨(b.queue on.write).buffer ++ [arg], []⟩).resume (.pass :: .pass :: k)
          (.ok (.channel on)) := by
      simp only [accept, Machine.apply, htrace, if_true, send_of_nil arg hw, enter, queue_trace]
    have hv : Realises policy n (.pass :: .pass :: k) _ _ :=
      .value ((hb.trace (.sent arg on)).setQueue on.write ((b.queue on.write).buffer ++ [arg]))
        (.channel on)
    rw [store_setQueue, store_trace] at hv
    rw [hacc] at hm ⊢
    exact (hv.pass hm).pass hm
  | _ => exact .fault hb _

end Follows

/-- Receiving takes the oldest value, or it is the end. -/
lemma Realises.receive (hb : b.Resting policy) {on : Endpoint}
    (hm : (b.recv on.read (.received on :: k)).Obeys .single) :
    Realises policy n k (b.recv on.read (.received on :: k))
      ((Direct.receive on >>= fun w => pure (.pair w (.channel on))) b.store) := by
  cases hq : (b.queue on.read).buffer with
  | nil =>
    have hrecv : Direct.receive on b.store = some (.blocked on, b.store) := by
      simp [Direct.receive, store, hq]
    rw [bind_blocked hrecv, recv_of_nil _ hq, hb.waiting]
    refine ⟨0, ?_, hb.events, ?_, hq⟩
    · simp [quiet, Machine.setQueue, hb.jobs, hb.parked]
    · exact (store_setQueue ..).trans (Store.write_self hq)
  | cons v rest =>
    have hrecv : Direct.receive on b.store = some (.value v, b.store.write on.read rest) := by
      simp [Direct.receive, store, hq]
    rw [recv_of_cons _ hq, hb.waiting] at hm ⊢
    have hb' := hb.setQueue on.read rest
    obtain ⟨hv, hstack⟩ := hm.jobs ⟨.ok v, .received on :: k⟩ (by simp [resume])
    have hon := (hstack _ (List.mem_cons_self ..)).resolve_right (by simp [Frame.IsBottom])
    have hshow : (Value.pair v (.channel on)).showable = true :=
      (Value.Obeys.pair hv (.channel hon)).showable
    refine next ?_
    rw [step_resume_ok hb', bind_value hrecv]
    simp only [accept, canTrace, hshow, Bool.or_true, if_true]
    rw [← store_setQueue b on.read ⟨rest, []⟩, ← store_trace _ (.received v on)]
    exact value (hb'.trace _) _

/-! ### One layer -/

/-- A part of an expression is evaluated, and a frame does the rest. -/
lemma Follows.part {ev : Expr → Env → Comp Value} (h : Follows policy n ev)
    (hb : b.Resting policy) {e a : Expr} {env : Env} {f : Frame} {g : Value → Comp Value}
    (hm : (b.eval a env (f :: b.inside e k)).Obeys .single)
    (hf : ∀ (b : Machine) (fault : Fault) (k : Stack),
      b.refuse f fault k = b.resume k (.error fault))
    (hg : ∀ (v : Value) (b : Machine) (k : Stack), b.Resting policy →
      v.Obeys .single b.allocated → (b.accept f v k).Obeys .single →
      Realises policy n k (b.accept f v k) (g v b.store)) :
    Realises policy n k (b.eval a env (f :: b.inside e k)) ((ev a env >>= g) b.store) :=
  Realises.inside hm <| (h _ _ _ _ hb hm).bind hm (fun b fault => hf b fault _)
    fun v b hb hv hm => hg v b _ hb hv hm

/-- The machine does what one layer of evaluation says. -/
lemma Follows.layer {ev : Expr → Env → Comp Value} (h : Follows policy n ev)
    (hb : b.Resting policy) {e : Expr} {env : Env} (he : Discipline.single.node e)
    (hm : (b.evalParts e env k).Obeys .single) :
    Realises policy n k (b.evalParts e env k) (Direct.layer ev e env b.store) := by
  cases e with
  | unit | label | lambda => exact .done hb hm
  | int l | nat l =>
    obtain ⟨-, j, hj⟩ := he.1
    simp only [evalParts, Direct.layer, hj] at hm ⊢
    exact .done hb hm
  | var name =>
    simp only [evalParts, Direct.layer] at hm ⊢
    cases hf : Table.find? env name with
    | none => exact .fault hb _
    | some v =>
      rw [hf] at hm
      cases v with
      | global g => exact h.refer hb hm
      | _ => exact .done hb hm
  | arith | negate | succ => exact (h.operate hb hm).inside hm
  | letIn name value body =>
    refine h.part hb hm (fun _ _ _ => rfl) fun v b k hb _ hm => ?_
    exact (h _ _ _ _ hb hm).pass hm
  | letPair first second value body =>
    refine h.part hb hm (fun _ _ _ => rfl) fun v b k hb _ hm => ?_
    refine .ofExcept hb hm fun p _ hm => ?_
    exact (h _ _ _ _ hb hm).pass hm
  | pair name first second =>
    refine h.part hb hm (fun _ _ _ => rfl) fun v b k hb _ hm => ?_
    refine (h _ _ _ _ hb hm).bind hm (fun _ _ => rfl) fun w b hb _ _ => ?_
    exact .value hb (.pair v w)
  | fst a | snd a =>
    refine h.part hb hm (fun _ _ _ => rfl) fun v b k hb _ hm => ?_
    exact .ofExcept hb hm fun p _ _ => .value hb _
  | app fn arg =>
    refine h.part hb hm (fun _ _ _ => rfl) fun v b k hb hv hm => ?_
    refine (h _ _ _ _ hb hm).bind hm (fun _ _ => rfl) fun w b hb hw hm => ?_
    exact h.apply hb hw hv hm
  | fork a => cases he.2
  | channel =>
    have hb' : b.newChannel.2.Resting policy := { hb with }
    exact .done hb' hm
  | send a =>
    refine h.part hb hm (fun _ _ _ => rfl) fun v b k hb _ hm => ?_
    exact .ofExcept hb hm fun c _ _ => .value hb (.sender c)
  | recv a =>
    refine h.part hb hm (fun _ _ _ => rfl) fun v b k hb _ hm => ?_
    exact .ofExcept hb hm fun c _ hm => .receive hb hm
  | caseOf scrutinee branches rest =>
    refine h.part hb hm (fun _ _ _ => rfl) fun v b k hb _ hm => ?_
    refine .ofExcept hb hm fun name _ hm => ?_
    cases hf : Table.find? branches name with
    | some body =>
      simp only [hf] at hm
      exact (h _ _ _ _ hb hm).pass hm
    | none => cases rest <;> exact .fault hb _
  | natRec index zero counter acc step =>
    refine h.part hb hm (fun _ _ _ => rfl) fun v b k hb _ hm => ?_
    refine .ofExcept hb hm fun i _ hm => ?_
    by_cases hi : i < 0
    · simp only [if_pos hi]
      exact .fault hb _
    · simp only [if_neg hi] at hm ⊢
      -- the machine asks of the number of rounds what is asked here of the index
      have hn : (i.toNat = 0) = (i = 0) := propext (by omega)
      simp only [Recursion.zeroEnv, hn] at hm ⊢
      refine (h _ _ _ _ hb hm).bind hm (fun _ _ => rfl) fun w b hb _ hm => ?_
      exact h.rounds i.toNat (by omega) hb hm
  | unknown | missing => exact he.1.elim

/-! ### Layer by layer -/

/-- A step is counted, and then the expression is looked at, with or without a pause. -/
lemma exists_iterate_eval (hlimit : ∀ i, policy.forbids i = false) (hb : b.Resting policy)
    (e : Expr) (env : Env) (k : Stack) :
    ∃ i, Machine.step^[i] (b.eval e env k) =
      ({ b with steps := b.steps + 1 } : Machine).resume (.eval e env :: k) (.ok .unit) := by
  have hforbids : b.policy.forbids (b.steps + 1) = false := by rw [hb.policy, hlimit]
  unfold eval check
  simp only [hforbids, Bool.false_eq_true, if_false]
  split
  · refine ⟨1, ?_⟩
    rw [hb.jobs, hb.parked]
    rfl
  · exact ⟨0, rfl⟩

lemma evalCounted_of_proper {e : Expr} (he : e.Proper) (m : Machine) (env : Env) (k : Stack) :
    m.evalCounted e env k = (m.trace (.enter e.caption)).evalParts e env k := by
  obtain ⟨caption, hcaption⟩ := he.caption
  unfold evalCounted Expr.caption
  rw [hcaption]
  cases e with
  | missing => exact he.elim
  | _ => rfl

lemma quiet_check (m : Machine) (k : Stack) : (m.check k).quiet = false := by
  simp only [check, quiet, resume]
  split
  · simp
  · split <;> simp

/-- The machine follows the direct reading, whatever the number of layers. -/
lemma Follows.eval (hlimit : ∀ i, policy.forbids i = false) (n : Nat) :
    Follows policy n (Direct.eval n) := by
  -- every layer takes a step or more, so `n` layers that do not suffice are `n` steps at least
  induction n with
  | zero =>
    intro e env k b _ _
    exact quiet_check b (.eval e env :: k)
  | succ n ih =>
    intro e env k b hb hm
    have hb' : ({ b with steps := b.steps + 1 } : Machine).Resting policy := { hb with }
    obtain ⟨i, hi⟩ := exists_iterate_eval hlimit hb e env k
    have hcounted := hm.iterate Discipline.lawful_single i
    rw [hi] at hcounted
    have hframe := (hcounted.jobs ⟨.ok .unit, .eval e env :: k⟩ (by simp [resume])).2 _
      (List.mem_cons_self ..)
    have he := (hframe.resolve_right (by simp [Frame.IsBottom])).1.here
    have hparts := evalCounted_of_proper he.1 { b with steps := b.steps + 1 } env k
    have hstep := (step_resume_ok hb' (.eval e env) k .unit).trans hparts
    have hlooked := hcounted.step Discipline.lawful_single
    rw [hstep] at hlooked
    have hrest := ih.layer (hb'.trace (.enter e.caption)) he hlooked
    rw [store_trace, ← hstep, ← hi, ← Function.iterate_succ_apply' Machine.step] at hrest
    exact hrest.later (by omega)

end Machine

/-! ### Coming to rest -/

def Direct.Result.outcome? : Direct.Result Value → Option Outcome
  | .value v => some (.ok v)
  | .fault f => some (.error f)
  | .blocked _ => none

namespace Direct.Result

variable {r : Result Value}

lemma outcome?_eq_ok {v : Value} : r.outcome? = some (.ok v) ↔ r = .value v := by
  cases r <;> simp [outcome?]

lemma outcome?_eq_error {f : Fault} : r.outcome? = some (.error f) ↔ r = .fault f := by
  cases r <;> simp [outcome?]

lemma outcome?_eq_none : r.outcome? = none ↔ ∃ on, r = .blocked on := by
  cases r <;> simp [outcome?]

end Direct.Result

namespace Machine

open Direct

variable {m b : Machine} {n : Nat} {policy : Policy}

lemma iterate_eq_of_quiet {i j : Nat} (hi : (Machine.step^[i] m).quiet = true)
    (hj : (Machine.step^[j] m).quiet = true) : Machine.step^[i] m = Machine.step^[j] m := by
  rw [← iterate_of_quiet hi j, ← iterate_of_quiet hj i, ← Function.iterate_add_apply,
    ← Function.iterate_add_apply, Nat.add_comm]

lemma Hands.rest {o : Outcome} {s : Store} (h : Hands policy [.report 0] m o s) :
    ∃ i, (Machine.step^[i] m).quiet = true ∧ (Machine.step^[i] m).outcome? 0 = some o ∧
      (Machine.step^[i] m).store = s := by
  obtain ⟨i, b, hi, hb, rfl⟩ := h
  have hperform : b.perform ⟨o, [.report 0]⟩ = b.report 0 o := by cases o <;> rfl
  refine ⟨i + 1, ?_⟩
  rw [Function.iterate_succ_apply', hi, step_resume hb, hperform]
  refine ⟨?_, ?_, rfl⟩
  · simp [quiet, Machine.report, hb.jobs, hb.parked]
  · simp [outcome?, Machine.report, hb.events]

lemma Realises.rest {r : Result Value} {s : Store}
    (h : Realises policy n [.report 0] m (some (r, s))) :
    ∃ i, (Machine.step^[i] m).quiet = true ∧ (Machine.step^[i] m).outcome? 0 = r.outcome? ∧
      (Machine.step^[i] m).store = s := by
  cases r with
  | value v => exact Hands.rest h
  | fault f => exact Hands.rest h
  | blocked on =>
    obtain ⟨i, hquiet, hevents, hstore, -⟩ := h
    exact ⟨i, hquiet, by simp [outcome?, hevents, Result.outcome?], hstore⟩

end Machine

/-! ### Programs -/

namespace Program

def ForkFree (p : Program) : Prop :=
  ∀ g, .global g ∈ p.declarations → g.body.Every (·.isFork = false)

/-- A run of a program comes to rest with this outcome of the main process, or none, and leaves
this store behind. -/
def ComesTo (policy : Policy) (p : Program) (o : Option Outcome) (s : Direct.Store) : Prop :=
  ∃ fuel r, p.run fuel policy = some r ∧ r.machine.outcome? 0 = o ∧ r.machine.store = s

variable {policy : Policy} {p : Program}

lemma realises_run (hproper : ∀ g, .global g ∈ p.declarations → g.Proper) (hfree : p.ForkFree)
    (hlimit : ∀ i, policy.forbids i = false) (n : Nat) :
    Machine.Realises policy n [.report 0] (({ policy } : Machine).startProgram p [.report 0])
      (Direct.run n p) := by
  have hb : ({ policy } : Machine).Resting policy := ⟨rfl, rfl, rfl, rfl, fun _ => rfl⟩
  unfold Direct.run
  cases hmain : p.main? with
  | none =>
    simp only [Machine.startProgram, hmain]
    exact .fault hb _
  | some g =>
    have hglobals : Env.Obeys .single 0 p.globals :=
      globals_obeys fun g hg => ⟨hproper g hg, hfree g hg⟩
    have hm := (Machine.Obeys.fresh .single policy).startProgram (k := [.report 0])
      Discipline.lawful_single (by simp [Stack.Obeys, Frame.IsBottom]) hglobals hmain
    simp only [Machine.startProgram, hmain] at hm ⊢
    exact (Machine.Follows.eval hlimit n).resolve hb hm

lemma comesTo_iff (hproper : ∀ g, .global g ∈ p.declarations → g.Proper) (hfree : p.ForkFree)
    (hlimit : ∀ i, policy.forbids i = false) {o : Option Outcome} {s : Direct.Store} :
    p.ComesTo policy o s ↔ ∃ r, Direct.Derives p r s ∧ r.outcome? = o := by
  have hrun := realises_run hproper hfree hlimit
  constructor
  · rintro ⟨fuel, r, hr, ho, hs⟩
    obtain ⟨m, hm, rfl⟩ := Option.map_eq_some_iff.mp hr
    obtain ⟨i, rfl⟩ := Machine.exists_iterate_of_drain hm
    have hquiet := Machine.quiet_of_drain hm
    have hi := hrun i
    -- as many layers as the run took steps are enough
    cases hd : Direct.run i p with
    | none =>
      rw [hd] at hi
      cases hquiet.symm.trans hi
    | some t =>
      obtain ⟨r, s'⟩ := t
      rw [hd] at hi
      obtain ⟨j, hj, ho', hs'⟩ := hi.rest
      rw [Machine.iterate_eq_of_quiet hj hquiet] at ho' hs'
      subst ho hs
      exact ⟨r, ⟨i, hs' ▸ hd⟩, ho'.symm⟩
  · rintro ⟨r, ⟨fuel, hd⟩, rfl⟩
    have hi := hrun fuel
    rw [hd] at hi
    obtain ⟨j, hj, ho, hs⟩ := hi.rest
    exact ⟨j + 1, _, Option.map_eq_some_iff.mpr ⟨_, Machine.drain_iterate hj, rfl⟩, ho, hs⟩

lemma contents_of_blocked (hproper : ∀ g, .global g ∈ p.declarations → g.Proper)
    (hfree : p.ForkFree) {on : Endpoint} {s : Direct.Store}
    (h : Direct.Derives p (.blocked on) s) : s.contents on.read = [] := by
  obtain ⟨fuel, hd⟩ := h
  have hrun := @realises_run {} p hproper hfree (fun _ => rfl) fuel
  rw [hd] at hrun
  obtain ⟨-, -, -, -, hempty⟩ := hrun
  exact hempty

end Program

/-- **A single process runs as it reads.** A valid program without forks, run without a limit on
steps, fulfils its main process with a value exactly if the direct reading comes to that value,
ends it with a fault exactly if the direct reading comes to that fault, and leaves it pending
exactly if the direct reading comes to a queue with nothing to be received; the contents of the
queues, the queues allocated and the expressions evaluated are the same too. So none of this
depends on pauses and traces. -/
theorem single_process_runs_as_read {doc : Option Json} {v : Valid} (hv : validate doc = .ok v)
    (hfree : v.program.ForkFree) {policy : Policy} (hlimit : ∀ i, policy.forbids i = false) :
    (∀ w s, v.program.ComesTo policy (some (.ok w)) s ↔
      Direct.Derives v.program (.value w) s) ∧
    (∀ f s, v.program.ComesTo policy (some (.error f)) s ↔
      Direct.Derives v.program (.fault f) s) ∧
    (∀ s, v.program.ComesTo policy none s ↔
      ∃ on, Direct.Derives v.program (.blocked on) s ∧ s.contents on.read = []) ∧
    ∀ other : Policy, (∀ i, other.forbids i = false) → ∀ o s,
      v.program.ComesTo policy o s ↔ v.program.ComesTo other o s := by
  have hproper : ∀ g, .global g ∈ v.program.declarations → g.Proper := fun g hg =>
    validate_proper hv hg
  refine ⟨fun w s => ?_, fun f s => ?_, fun s => ?_, fun other hother o s => ?_⟩
  · rw [Program.comesTo_iff hproper hfree hlimit]
    simp only [Direct.Result.outcome?_eq_ok, exists_eq_right]
  · rw [Program.comesTo_iff hproper hfree hlimit]
    simp only [Direct.Result.outcome?_eq_error, exists_eq_right]
  · rw [Program.comesTo_iff hproper hfree hlimit]
    simp only [Direct.Result.outcome?_eq_none]
    constructor
    · rintro ⟨r, hr, on, rfl⟩
      exact ⟨on, hr, Program.contents_of_blocked hproper hfree hr⟩
    · rintro ⟨on, hr, -⟩
      exact ⟨_, hr, on, rfl⟩
  · rw [Program.comesTo_iff hproper hfree hlimit, Program.comesTo_iff hproper hfree hother]

/-- A document whose main process sends itself a difference and divides a multiple of it. -/
def Json.echo : Json :=
  let var (name : String) : Json := .object [("kind", .string "var"), ("name", .string name)]
  let int (n : Int) : Json :=
    .object [("kind", .string "int"), ("value", .number (.integer n))]
  let arith (kind : String) (left right : Json) : Json :=
    .object [("kind", .string kind), ("left", left), ("right", right)]
  let sent := Json.object [("kind", .string "app"),
    ("fn", .object [("kind", .string "send"), ("channel", var "a")]),
    ("arg", arith "minus" (int 7) (int 9))]
  let heard := Json.object [("kind", .string "fst"),
    ("expr", .object [("kind", .string "recv"), ("channel", var "b")])]
  .object [("declarations", .array [.object [("kind", .string "fun"), ("name", .string "main"),
    ("params", .array []), ("body", .object [("kind", .string "letPair"), ("first", .string "a"),
      ("second", .string "b"), ("value", .object [("kind", .string "new")]),
      ("body", .object [("kind", .string "let"), ("name", .string "c"), ("value", sent),
        ("body", arith "div" (arith "times" heard (int 5)) (int 3))])])]])]

def Program.echo : Program :=
  let int (n : Int) : Expr := .int (.number (.integer n))
  let sent : Expr := .app (.send (.var (.text "a"))) (.arith .minus (int 7) (int 9))
  let heard : Expr := .fst (.recv (.var (.text "b")))
  ⟨[.global ⟨.text "main", .ok [], .letPair (.text "a") (.text "b") .channel
    (.letIn (.text "c") sent (.arith .div (.arith .times heard (int 5)) (int 3)))⟩]⟩

/-- Its run, paused and traced at every step, and the run without. The quotient of -10 by 3 is
cut off towards zero. -/
theorem single_process_runs_as_read_echo :
    ∃ v, validate (some .echo) = .ok v ∧ v.program = .echo ∧ Program.echo.ForkFree ∧
      ∃ s : Direct.Store, s.allocated = 2 ∧ s.evaluations = 16 ∧
        s.contents (.allocated 0) = [] ∧ s.contents (.allocated 1) = [] ∧
        Program.echo.ComesTo { tracing := true, interval := .integer 1 }
          (some (.ok (.int (-3)))) s ∧
        Program.echo.ComesTo {} (some (.ok (.int (-3)))) s := by
  obtain ⟨v, hv, hp⟩ : ∃ v, validate (some .echo) = .ok v ∧ v.program = .echo := ⟨_, rfl, rfl⟩
  have hfree : Program.echo.ForkFree := by
    intro g hg
    cases List.mem_singleton.mp hg
    exact .of_checks (n := 7) rfl
  have hread : ∃ s, Direct.run 7 .echo = some (.value (.int (-3)), s) ∧ s.allocated = 2 ∧
      s.evaluations = 16 ∧ s.contents (.allocated 0) = [] ∧ s.contents (.allocated 1) = [] := by
    cases h : Direct.run 7 .echo with
    | none =>
      cbv at h
      cases h
    | some p =>
      cbv at h
      cases h
      exact ⟨_, rfl, rfl, rfl, rfl, rfl⟩
  obtain ⟨s, hs, hallocated, hevaluations, hfirst, hsecond⟩ := hread
  obtain ⟨hvalue, -, -, hsame⟩ := @single_process_runs_as_read (some .echo) v hv (hp ▸ hfree)
    { tracing := true, interval := .integer 1 } fun _ => rfl
  rw [hp] at hvalue hsame
  have hrun := (hvalue (.int (-3)) s).mpr ⟨7, hs⟩
  exact ⟨v, hv, hp, hfree, s, hallocated, hevaluations, hfirst, hsecond, hrun,
    (hsame {} (fun _ => rfl) _ s).mp hrun⟩

end Parley
