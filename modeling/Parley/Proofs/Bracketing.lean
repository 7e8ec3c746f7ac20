import Parley.Proofs.Alone
import Parley.Proofs.Arrival
import Parley.Proofs.Books

/-!
Traces are well bracketed.

A traced evaluation notes its beginning, and it leaves a frame on the stack that notes its end
before it starts its parts. So as long as a process is alone, the beginnings that have no end yet
are told by the frames on its stack, in their order. A fault, or a receive that waits, leaves open
the evaluations that are under way at that moment and no others.
-/

namespace Parley

/-! ### Bracketed notes -/

namespace Note

def isEnter : Note → Bool
  | .enter _ => true
  | _ => false

def isLeave : Note → Bool
  | .leave _ _ => true
  | _ => false

def isBracket (t : Note) : Bool := t.isEnter || t.isLeave

end Note

/-- Every beginning has its end under the same caption, and what is noted between the two is
bracketed in itself. -/
inductive Bracketed : List Note → Prop
  | nil : Bracketed []
  | block {c : String} {v : Value} {w w' : List Note} (inside : Bracketed w)
      (after : Bracketed w') : Bracketed (.enter c :: (w ++ .leave c v :: w'))

/-- Notes that are bracketed but for the beginnings under these captions, the latest first, which
have no end. -/
inductive Pending : List String → List Note → Prop
  | nil {w : List Note} (h : Bracketed w) : Pending [] w
  | cons {c : String} {cs : List String} {w w' : List Note} (before : Pending cs w)
      (after : Bracketed w') : Pending (c :: cs) (w ++ .enter c :: w')

section

variable {w w' : List Note} {c : String} {cs : List String}

lemma Bracketed.append (h : Bracketed w) (h' : Bracketed w') : Bracketed (w ++ w') := by
  induction h with
  | nil => exact h'
  | block inside _ _ ih =>
    rw [List.cons_append, List.append_assoc, List.cons_append]
    exact .block inside ih

lemma Bracketed.count (h : Bracketed w) : w.countP Note.isEnter = w.countP Note.isLeave := by
  induction h with
  | nil => rfl
  | block _ _ ih ih' =>
    simp only [List.countP_cons, List.countP_append, Note.isEnter, Note.isLeave, ih, ih']
    simp only [Bool.false_eq_true, if_false, if_true]
    omega

namespace Pending

lemma count (h : Pending cs w) :
    w.countP Note.isEnter = w.countP Note.isLeave + cs.length := by
  induction h with
  | nil h => exact h.count
  | cons _ after ih =>
    simp only [List.countP_cons, List.countP_append, Note.isEnter, Note.isLeave, ih, after.count,
      List.length_cons]
    simp only [Bool.false_eq_true, if_false, if_true]
    omega

lemma bracketed_iff (h : Pending cs w) : Bracketed w ↔ cs = [] := by
  constructor
  · intro hw
    have hcount := h.count
    rw [hw.count] at hcount
    exact List.length_eq_zero_iff.mp (by omega)
  · rintro rfl
    cases h with
    | nil h => exact h

lemma within (h : Pending cs w) (h' : Bracketed w') : Pending cs (w ++ w') := by
  cases h with
  | nil h => exact .nil (h.append h')
  | cons before after =>
    rw [List.append_assoc, List.cons_append]
    exact .cons before (after.append h')

lemma enter (h : Pending cs w) (c : String) : Pending (c :: cs) (w ++ [.enter c]) := .cons h .nil

lemma leave (h : Pending (c :: cs) w) (v : Value) : Pending cs (w ++ [.leave c v]) := by
  cases h with
  | cons before after =>
    rw [List.append_assoc]
    exact before.within (.block after .nil)

lemma exists_bracketed (h : Pending cs w) : ∃ rest, Bracketed (w ++ rest) := by
  induction cs generalizing w with
  | nil => exact ⟨[], by rw [List.append_nil]; exact h.bracketed_iff.mpr rfl⟩
  | cons c cs ih =>
    obtain ⟨rest, hrest⟩ := ih (h.leave .unit)
    rw [List.append_assoc] at hrest
    exact ⟨_, hrest⟩

end Pending

end

/-! ### What is on the stack -/

/-- Goes on with the parts of an expression that has begun. -/
def Frame.IsPart : Frame → Prop
  | .pass | .eval _ _ | .leave _ | .steps _ _ | .take _ | .strand | .settle _ _ | .report _ => False
  | _ => True

namespace Frame.IsPart

variable {f : Frame}

lemma not_isBottom (h : f.IsPart) : ¬ f.IsBottom := by
  cases f <;> first | exact h.elim | exact id

lemma not_isScripted (h : f.IsPart) : ¬ f.IsScripted := by
  cases f <;> first | exact h.elim | exact id

lemma isEval_eq (h : f.IsPart) : f.isEval = false := by
  cases f <;> first | exact h.elim | rfl

lemma ne_leave (h : f.IsPart) (c : String) : f ≠ .leave c := by
  rintro rfl
  exact h

end Frame.IsPart

namespace Stack

variable {k gs : Stack}

/-- The captions under which the frames of a stack note an end, each with the number of frames
below it. -/
def marks : Stack → List (String × Nat)
  | [] => []
  | .leave c :: k => (c, k.length) :: marks k
  | _ :: k => marks k

lemma marks_cons {f : Frame} (hf : ∀ c, f ≠ .leave c) (k : Stack) : marks (f :: k) = marks k := by
  cases f with
  | leave c => exact absurd rfl (hf c)
  | _ => rfl

lemma marks_append (hg : ∀ g ∈ gs, g = .pass ∨ g.IsPart) (k : Stack) :
    marks (gs ++ k) = marks k := by
  induction gs with
  | nil => rfl
  | cons g gs ih =>
    obtain ⟨hg, hgs⟩ := List.forall_mem_cons.mp hg
    rw [List.cons_append, ← ih hgs]
    rcases hg with rfl | hg
    · rfl
    · exact marks_cons hg.ne_leave _

lemma lt_of_mem_marks {a : String × Nat} (h : a ∈ marks k) : a.2 < k.length := by
  induction k with
  | nil => cases h
  | cons f k ih =>
    have hk : a ∈ marks k → a.2 < (f :: k).length := fun h => Nat.lt_succ_of_lt (ih h)
    cases f with
    | leave c =>
      rcases List.mem_cons.mp h with rfl | h
      · exact Nat.lt_succ_self _
      · exact hk h
    | _ => exact hk h

lemma filter_marks {n : Nat} (h : k.length ≤ n) : (marks k).filter (·.2 < n) = marks k :=
  List.filter_eq_self.mpr fun _ ha => decide_eq_true ((lt_of_mem_marks ha).trans_le h)

/-- The stack of the main process below an expression. Above what hands the result out, whatever
goes on with a part does so inside an evaluation that has yet to note its end. -/
inductive Housed : Stack → Prop
  | report : Housed [.report 0]
  | pass {k : Stack} (hk : Housed k) : Housed (.pass :: k)
  | leave {k : Stack} (c : String) (hk : Housed k) : Housed (.leave c :: k)
  | part {f : Frame} {k : Stack} (hf : f.IsPart) (hm : marks k ≠ []) (hk : Housed k) :
      Housed (f :: k)

inductive Ready : Stack → Prop
  | eval {k : Stack} (e : Expr) (env : Env) (hk : Housed k) : Ready (.eval e env :: k)
  | housed {k : Stack} (hk : Housed k) : Ready k

lemma Housed.evals (h : Housed k) : k.evals = 0 := by
  induction h with
  | report => rfl
  | pass _ ih | leave _ _ ih => exact ih
  | part hf _ _ ih =>
    rw [Stack.evals, List.countP_cons_of_neg (by simp [hf.isEval_eq])]
    exact ih

lemma Housed.evals_eval (h : Housed k) (e : Expr) (env : Env) :
    Stack.evals (.eval e env :: k) = 1 := by
  rw [Stack.evals, List.countP_cons_of_pos rfl]
  exact congrArg (· + 1) h.evals

lemma Housed.append (hg : ∀ g ∈ gs, g = .pass ∨ g.IsPart) (hm : marks k ≠ []) (hk : Housed k) :
    Housed (gs ++ k) := by
  induction gs with
  | nil => exact hk
  | cons g gs ih =>
    obtain ⟨hg, hgs⟩ := List.forall_mem_cons.mp hg
    rcases hg with rfl | hg
    · exact .pass (ih hgs)
    · exact .part hg (marks_append hgs k ▸ hm) (ih hgs)

end Stack

/-! ### What a traced turn tells -/

def Fault.isLimit : Fault → Bool
  | .stepLimitExceeded _ => true
  | _ => false

lemma Fault.isLimit_worded {f : Fault} (h : f.isLimit = false) : f.worded.isLimit = false := by
  unfold worded
  split
  · exact h
  · rfl

/-- How a turn goes on above the frames `under` that it leaves behind. No fault of its own is that
of a step too many. -/
inductive Sequel.Above (under : Stack) : Sequel → Prop
  | fault {f : Fault} (hf : f.isLimit = false) : Above under (.hand [] (.error f))
  | hand (gs : Stack) (hg : ∀ g ∈ gs, g = .pass ∨ g.IsPart) (v : Value) :
      Above under (.hand (gs ++ under) (.ok v))
  | count (gs : Stack) (e : Expr) (env : Env) (hg : ∀ g ∈ gs, g = .pass ∨ g.IsPart) :
      Above under (.count (.eval e env :: (gs ++ under)))
  | receive (on : Endpoint) (hu : under = []) : Above under (.receive on)

/-- A turn of a process that is alone, with the beginnings and ends that it notes and the frames
that it leaves behind. -/
structure Turn.Tells (notes : List Note) (under : Stack) (t : Turn) : Prop where
  forks : t.deeds.countP Deed.forks = 0
  notes : (t.deeds.filterMap Deed.note?).filter Note.isBracket = notes
  above : t.sequel.Above under

namespace Turn.Tells

variable {under : Stack}

lemma fault {f : Fault} (hf : f.isLimit = false) : (Turn.fault f).Tells [] under :=
  ⟨rfl, rfl, .fault hf⟩

lemma finish (v : Value) : (Turn.hand under v).Tells [] under :=
  ⟨rfl, rfl, .hand [] (by simp) v⟩

lemma passing (v : Value) : (Turn.hand [.pass, .pass] v).Tells [] [] :=
  ⟨rfl, rfl, .hand [.pass, .pass] (by simp) v⟩

lemma eval (e : Expr) (env : Env) : (Turn.eval e env under).Tells [] under :=
  ⟨rfl, rfl, .count [] e env (by simp)⟩

lemma part {g : Frame} (hg : g = .pass ∨ g.IsPart) (e : Expr) (env : Env) :
    (Turn.eval e env (g :: under)).Tells [] under :=
  ⟨rfl, rfl, .count [g] e env (by simpa using hg)⟩

lemma ofExcept {α : Type} {r : Except Fault α} {next : α → Turn}
    (hf : ∀ f, r = .error f → f.isLimit = false) (h : ∀ a, (next a).Tells [] under) :
    (Turn.ofExcept r next).Tells [] under := by
  cases r with
  | ok a => exact h a
  | error f => exact fault (hf f rfl)

lemma after {d : Deed} {t : Turn} {notes : List Note} (hd : d.forks = false)
    (h : t.Tells notes under) : (Turn.after d t).Tells
      (d.note?.toList.filter Note.isBracket ++ notes) under := by
  refine ⟨?_, ?_, h.above⟩
  · rw [Turn.after, List.countP_cons_of_neg (by simp [hd]), h.forks]
  · rw [Turn.after, ← h.notes, ← List.filter_append]
    cases hn : d.note? <;> simp [hn]

lemma noting {v : Value} {d : Deed} {t : Turn} (hd : d.forks = false)
    (hn : d.note?.toList.filter Note.isBracket = []) (h : t.Tells [] under) :
    (Turn.noting true v d t).Tells [] under := by
  unfold Turn.noting
  split
  · have hafter := after hd h
    rwa [hn] at hafter
  · exact fault rfl

end Turn.Tells

namespace Value

variable {v : Value} {s : Atom} {f : Fault}

lemma isLimit_asInt (h : v.asInt s = .error f) : f.isLimit = false := by
  cases v <;> cases h <;> exact Fault.isLimit_worded rfl

lemma isLimit_asPair (h : v.asPair s = .error f) : f.isLimit = false := by
  cases v <;> cases h <;> exact Fault.isLimit_worded rfl

lemma isLimit_asLabel (h : v.asLabel s = .error f) : f.isLimit = false := by
  cases v <;> cases h <;> exact Fault.isLimit_worded rfl

lemma isLimit_asChannel (h : v.asChannel s = .error f) : f.isLimit = false := by
  cases v <;> cases h <;> exact Fault.isLimit_worded rfl

end Value

lemma ArithOp.isLimit_apply {op : ArithOp} {a b : Int} {f : Fault} (h : op.apply a b = .error f) :
    f.isLimit = false := by
  cases op with
  | div =>
    simp only [ArithOp.apply] at h
    split at h <;> cases h
    rfl
  | _ => cases h

namespace Expr

/-- The parts of an expression are started above the frame that notes its end. -/
lemma tells_partsTurn {e : Expr} (hfork : e.isFork = false) (n : Nat) (env : Env) :
    (e.partsTurn true n env).Tells [] [.leave e.caption] := by
  cases e with
  | unit | label | lambda => exact .finish _
  | int l | nat l =>
    simp only [partsTurn]
    split
    · exact .finish _
    · exact .fault rfl
  | var name =>
    simp only [partsTurn]
    split
    · next g _ =>
      unfold Global.call
      split
      · exact .fault rfl
      · exact .eval _ _
      · exact .finish _
    · exact .finish _
    · exact .fault (Fault.isLimit_worded rfl)
  | fork => cases hfork
  | channel => exact Turn.Tells.after (d := .channel) rfl (.finish _)
  | unknown => exact .fault (Fault.isLimit_worded rfl)
  | missing => exact .fault rfl
  | _ => exact .part (.inr (by trivial)) _ _

lemma tells_turn {e : Expr} (hfork : e.isFork = false) (hcaption : e.caption?.isSome) (n : Nat)
    (env : Env) : (e.turn true n env).Tells [.enter e.caption] [.leave e.caption] := by
  have hparts := (tells_partsTurn hfork n env).after (d := .note (.enter e.caption)) rfl
  obtain ⟨c, hc⟩ := Option.isSome_iff_exists.mp hcaption
  have hturn : e.turn true n env = .after (.note (.enter c)) (e.partsTurn true n env) := by
    unfold turn
    rw [hc]
    cases e with
    | missing => cases hc
    | _ => rfl
  have hcaption : c = e.caption := by rw [caption, hc, Option.getD_some]
  rw [hturn, hcaption]
  exact hparts

end Expr

lemma Value.tells_applyTurn (fn arg : Value) : (fn.applyTurn true arg).Tells [] [] := by
  cases fn with
  | function param more body env =>
    cases param with
    | none => exact .fault rfl
    | some param =>
      cases more with
      | nil => exact .part (.inl rfl) _ _
      | cons p ps => exact .passing _
  | sender on => exact .noting rfl rfl (.passing _)
  | identity => exact .passing _
  | _ => exact .fault (Fault.isLimit_worded rfl)

/-- What goes on with a part notes neither a beginning nor an end. -/
lemma Frame.tells_turn {f : Frame} (hf : f.IsPart) (n : Nat) (v : Value) :
    (f.turn true n v).Tells [] [] := by
  cases f with
  | pass | eval | leave | steps | take | strand | settle | report => exact hf.elim
  | leftOperand =>
    exact .ofExcept (fun _ => Value.isLimit_asInt) fun _ => .part (.inr (by trivial)) _ _
  | rightOperand =>
    exact .ofExcept (fun _ => Value.isLimit_asInt) fun _ =>
      .ofExcept (fun _ => ArithOp.isLimit_apply) fun _ => .finish _
  | letBody => exact .part (.inl rfl) _ _
  | letPairBody =>
    exact .ofExcept (fun _ => Value.isLimit_asPair) fun _ => .part (.inl rfl) _ _
  | pairSecond | callee => exact .part (.inr (by trivial)) _ _
  | pairUp => exact .finish _
  | takeFirst | takeSecond => exact .ofExcept (fun _ => Value.isLimit_asPair) fun _ => .finish _
  | call arg => exact v.tells_applyTurn arg
  | branch bs rest env =>
    refine .ofExcept (fun _ => Value.isLimit_asLabel) fun name => ?_
    split
    · exact .part (.inl rfl) _ _
    · exact .fault rfl
    · exact .fault (Fault.isLimit_worded rfl)
  | makeSender => exact .ofExcept (fun _ => Value.isLimit_asChannel) fun _ => .finish _
  | receive =>
    exact .ofExcept (fun _ => Value.isLimit_asChannel) fun on => ⟨rfl, rfl, .receive on rfl⟩
  | received on => exact .noting rfl rfl (.finish _)
  | recursionIndex r =>
    refine .ofExcept (fun _ => Value.isLimit_asInt) fun i => ?_
    split
    · exact .fault rfl
    · exact .part (.inr (by trivial)) _ _
  | recursionRound r i upTo =>
    simp only [turn]
    split
    · exact .part (.inr (by trivial)) _ _
    · exact .finish _

/-! ### Programs that a trace can tell of -/

def Program.Captioned (p : Program) : Prop :=
  ∀ g, .global g ∈ p.declarations → g.body.Every (·.caption?.isSome)

def Discipline.captioned : Discipline where
  node e := e.isFork = false ∧ e.caption?.isSome
  param _ := True
  global _ g := g.body.Every fun e => e.isFork = false ∧ e.caption?.isSome
  ends _ _ := True
  fault _ := True

lemma Discipline.lawful_captioned : captioned.Lawful where
  small := by rintro i (rfl | rfl) <;> exact ⟨rfl, rfl⟩
  named _ := trivial
  body := id
  params _ _ _ _ := trivial
  fresh _ := ⟨trivial, trivial⟩
  grow := id

lemma Deed.sum_checks (ds : List Deed) : (ds.map Deed.checks).sum = ds.countP Deed.forks := by
  induction ds with
  | nil => rfl
  | cons d ds ih =>
    rw [List.map_cons, List.sum_cons, ih, List.countP_cons, Nat.add_comm]
    cases d <;> rfl

namespace Machine

variable {policy : Policy} {b m m₀ : Machine} {k under : Stack} {n : Nat}

/-! ### Evaluations under way -/

/-- The expression whose evaluation begins with the next job, and the number of frames below. -/
def begins? (m : Machine) : Option (Expr × Nat) :=
  match m.jobs with
  | ⟨.ok _, .eval e _ :: k⟩ :: _ => some (e, k.length)
  | _ => none

def height (m : Machine) : Nat :=
  match m.jobs, m.parked with
  | j :: _, _ => j.stack.length
  | [], k :: _ => k.length
  | [], [] => 0

/-- The evaluations that are under way after so many steps, the latest first. They have begun, and
ever since there have been more frames on the stack than those below them. -/
def underWay (m : Machine) : Nat → List (Expr × Nat)
  | 0 => m.begins?.toList
  | n + 1 =>
    let m' := Machine.step^[n + 1] m
    m'.begins?.toList ++ (m.underWay n).filter (·.2 < m'.height)

def mark (a : Expr × Nat) : String × Nat := (a.1.caption, a.2)

lemma map_underWay_succ {l : List (String × Nat)}
    (h : ((m.underWay n).map mark).filter (·.2 < (Machine.step^[n + 1] m).height) = l) :
    (m.underWay (n + 1)).map mark = ((Machine.step^[n + 1] m).begins?.map mark).toList ++ l := by
  rw [← h, List.filter_map, underWay, List.map_append]
  congr 1
  cases (Machine.step^[n + 1] m).begins? <;> rfl

lemma Resting.jobs_resume (hb : b.Resting policy) (k : Stack) (o : Outcome) :
    (b.resume k o).jobs = [⟨o, k⟩] := by
  rw [resume, hb.jobs]
  rfl

lemma height_resume (hb : b.Resting policy) (k : Stack) (o : Outcome) :
    (b.resume k o).height = k.length := by
  rw [height, hb.jobs_resume]

lemma height_check (hb : b.Resting policy) (k : Stack) : (b.check k).height = k.length := by
  have hcounted : ({ b with steps := b.steps + 1 } : Machine).Resting policy := { hb with }
  simp only [check]
  split
  · exact height_resume hcounted ..
  · split
    · simp [height, hb.jobs, hb.parked]
    · exact height_resume hcounted ..

/-! ### Deeds of a process that is alone -/

def brackets (m : Machine) : List Note := m.log.toList.filter Note.isBracket

def entered (m : Machine) : Nat := m.brackets.countP Note.isEnter

lemma Resting.deed (hb : b.Resting policy) {d : Deed} (hd : d.forks = false) :
    (d.apply b).Resting policy := by
  cases d with
  | note t => exact hb.trace t
  | send on v =>
    have hnoted := hb.trace (.sent v on)
    simp only [Deed.apply, send_of_nil v (hnoted.waiting on.write)]
    exact hnoted.setQueue ..
  | fork => cases hd
  | channel => exact { hb with }

lemma Resting.deeds (hb : b.Resting policy) {ds : List Deed} (hds : ds.countP Deed.forks = 0) :
    (ds.foldl Deed.apply b).Resting policy := by
  induction ds generalizing b with
  | nil => exact hb
  | cons d ds ih =>
    simp only [List.countP_eq_zero, List.forall_mem_cons, Bool.not_eq_true] at hds ih
    exact ih (hb.deed hds.1) hds.2

lemma brackets_deeds (hb : b.Resting policy) (ht : policy.tracing = true) (ds : List Deed) :
    (ds.foldl Deed.apply b).brackets =
      b.brackets ++ (ds.filterMap Deed.note?).filter Note.isBracket := by
  rw [brackets, log_deeds, hb.policy, ht, if_pos rfl, List.filter_append]
  rfl

/-! ### How a run is cut short -/

/-- The process has its last turn: it is handed a value, and it goes on with a fault or waits for a
value that it is to receive. -/
inductive Stops (m : Machine) : Option Fault → Prop
  | raises {v : Value} {k k' : Stack} {f : Fault} (before : m.jobs = [⟨.ok v, k⟩])
      (after : m.step.jobs = [⟨.error f, k'⟩]) : Stops m (some f)
  | blocks {v : Value} {f : Frame} {k : Stack} (on : Endpoint)
      (before : m.jobs = [⟨.ok v, f :: k⟩]) (quiet : m.step.quiet = true)
      (waits : (m.step.queue on.read).waiting = [.received on :: k]) : Stops m none

/-- The notes are those of a run in which the process had its last turn, and the beginnings without
an end are those of the evaluations that were under way. -/
def CutShort (m₀ : Machine) (n : Nat) (f? : Option Fault) (w : List Note) : Prop :=
  ∃ i < n, (Machine.step^[i] m₀).Stops f? ∧ m₀.underWay i ≠ [] ∧
    Pending ((m₀.underWay i).map (·.1.caption)) w

lemma CutShort.later {f? : Option Fault} {w : List Note} (h : CutShort m₀ n f? w) :
    CutShort m₀ (n + 1) f? w := by
  obtain ⟨i, hi, h⟩ := h
  exact ⟨i, Nat.lt_succ_of_lt hi, h⟩

/-- The process goes on with the frames `k`. They tell the beginnings without an end, and every
step that was counted is for an expression that was entered or is on top of the stack. -/
structure Proceeds (policy : Policy) (m₀ : Machine) (n : Nat) (b : Machine) (k : Stack) :
    Prop where
  resting : b.Resting policy
  ready : k.Ready
  pending : Pending (k.marks.map (·.1)) b.brackets
  steps : b.entered + k.evals = b.steps
  underWay : (m₀.underWay n).map mark =
    ((Machine.step^[n] m₀).begins?.map mark).toList ++ k.marks

/-- The notes and steps when a fault was raised, by an evaluation or before there was any. -/
structure Broken (m₀ : Machine) (n : Nat) (f : Fault) (b : Machine) : Prop where
  cut : b.brackets = [] ∨ CutShort m₀ n (some f) b.brackets
  steps : b.entered + f.isLimit.toNat = b.steps

/-- Where the run of a process that is alone can be. -/
inductive Phase (policy : Policy) (m₀ : Machine) (n : Nat) : Prop
  | going {b : Machine} {k : Stack} {v : Value} (hm : Machine.step^[n] m₀ = b.resume k (.ok v))
      (h : Proceeds policy m₀ n b k)
  | paused {b : Machine} {k : Stack} (hm : Machine.step^[n] m₀ = { b with parked := [k] })
      (h : Proceeds policy m₀ n b k)
  | failing {b : Machine} {k : Stack} {f : Fault}
      (hm : Machine.step^[n] m₀ = b.resume k (.error f)) (hb : b.Resting policy) (hk : k.Ready)
      (h : Broken m₀ n f b)
  | waiting (hq : (Machine.step^[n] m₀).quiet = true)
      (ho : (Machine.step^[n] m₀).outcome? 0 = none)
      (hc : CutShort m₀ n none (Machine.step^[n] m₀).brackets)
      (hs : (Machine.step^[n] m₀).entered = (Machine.step^[n] m₀).steps)
  | fulfilled {v : Value} (hq : (Machine.step^[n] m₀).quiet = true)
      (ho : (Machine.step^[n] m₀).outcome? 0 = some (.ok v))
      (hw : Bracketed (Machine.step^[n] m₀).brackets)
      (hs : (Machine.step^[n] m₀).entered = (Machine.step^[n] m₀).steps)
  | failed {f : Fault} (hq : (Machine.step^[n] m₀).quiet = true)
      (ho : (Machine.step^[n] m₀).outcome? 0 = some (.error f))
      (h : Broken m₀ n f (Machine.step^[n] m₀))

lemma CutShort.not_bracketed {f? : Option Fault} {w : List Note} (h : CutShort m₀ n f? w) :
    ¬ Bracketed w ∧ w.countP Note.isEnter ≠ 0 := by
  obtain ⟨i, -, -, hne, hp⟩ := h
  have hcaptions : (m₀.underWay i).map (·.1.caption) ≠ [] := fun hnil =>
    hne (List.map_eq_nil_iff.mp hnil)
  have hlength := List.length_pos_iff.mpr hcaptions
  have hcount := hp.count
  exact ⟨fun hw => hcaptions (hp.bracketed_iff.mp hw), by omega⟩

namespace Phase

/-- A step is counted for an expression that is to be evaluated. -/
lemma check {e : Expr} {env : Env} (hm : Machine.step^[n] m₀ = b.check (.eval e env :: k))
    (hb : b.Resting policy) (hk : k.Housed) (hp : Pending (k.marks.map (·.1)) b.brackets)
    (hs : b.entered = b.steps)
    (hw : (m₀.underWay n).map mark =
      ((Machine.step^[n] m₀).begins?.map mark).toList ++ k.marks)
    (hc : ∀ f l, (Machine.step^[n] m₀).jobs = [⟨.error f, l⟩] →
      b.brackets = [] ∨ CutShort m₀ n (some f) b.brackets) : Phase policy m₀ n := by
  have hcounted : ({ b with steps := b.steps + 1 } : Machine).Resting policy := { hb with }
  have hproceeds : Proceeds policy m₀ n { b with steps := b.steps + 1 } (.eval e env :: k) := by
    refine ⟨hcounted, .eval e env hk, hp, ?_, hw⟩
    rw [hk.evals_eval]
    exact congrArg (· + 1) hs
  simp only [Machine.check] at hm
  split at hm
  · refine .failing hm hcounted (.eval e env hk)
      ⟨hc _ (.eval e env :: k) ?_, congrArg (· + 1) hs⟩
    rw [hm, hcounted.jobs_resume]
  · split at hm
    · rw [hb.parked] at hm
      exact .paused hm hproceeds
    · exact .going hm hproceeds

lemma handed {v : Value} (hnext : Machine.step^[n + 1] m₀ = b.resume k (.ok v))
    (hb : b.Resting policy) (hk : k.Ready) (hp : Pending (k.marks.map (·.1)) b.brackets)
    (hs : b.entered + k.evals = b.steps)
    (hw : ((m₀.underWay n).map mark).filter (·.2 < k.length) = k.marks) :
    Phase policy m₀ (n + 1) := by
  refine .going hnext ⟨hb, hk, hp, hs, map_underWay_succ ?_⟩
  rw [hnext, height_resume hb]
  exact hw

end Phase

/-- The process is inside the evaluations that the frames `l` tell of, and has done all it does
before it goes on. -/
structure Inside (policy : Policy) (m₀ : Machine) (n : Nat) (b : Machine) (l : Stack) : Prop where
  resting : b.Resting policy
  housed : l.Housed
  marked : l.marks ≠ []
  pending : Pending (l.marks.map (·.1)) b.brackets
  steps : b.entered = b.steps
  underWay : (m₀.underWay n).map mark = l.marks

namespace Inside

variable {l : Stack}

/-- If it stops here, it leaves these evaluations open. -/
lemma cutShort (h : Inside policy m₀ n b l) {f? : Option Fault}
    (hstops : (Machine.step^[n] m₀).Stops f?) : CutShort m₀ (n + 1) f? b.brackets := by
  refine ⟨n, Nat.lt_succ_self n, hstops, fun hnil => h.marked ?_, ?_⟩
  · rw [← h.underWay, hnil, List.map_nil]
  · have hp := h.pending
    rw [← h.underWay, List.map_map] at hp
    exact hp

/-- What is under way stays so when frames are put on top. -/
lemma filter_underWay (h : Inside policy m₀ n b l) (hk : l.length ≤ k.length) :
    ((m₀.underWay n).map mark).filter (·.2 < k.length) = l.marks := by
  rw [h.underWay]
  exact Stack.filter_marks hk

lemma hand (h : Inside policy m₀ n b l) {gs : Stack} (hg : ∀ g ∈ gs, g = .pass ∨ g.IsPart)
    {v : Value} (hnext : Machine.step^[n + 1] m₀ = b.resume (gs ++ l) (.ok v)) :
    Phase policy m₀ (n + 1) := by
  have hhoused := h.housed.append hg h.marked
  have hmarks := Stack.marks_append hg l
  refine .handed hnext h.resting (.housed hhoused) (hmarks ▸ h.pending) ?_ ?_
  · rw [hhoused.evals]
    exact h.steps
  · rw [hmarks]
    exact h.filter_underWay (by simp)

lemma receive (h : Inside policy m₀ n b l) {f : Frame} {v : Value} {on : Endpoint}
    (hbefore : (Machine.step^[n] m₀).jobs = [⟨.ok v, f :: l⟩])
    (hnext : Machine.step^[n + 1] m₀ = b.recv on.read (.received on :: l)) :
    Phase policy m₀ (n + 1) := by
  have hb := h.resting
  cases hq : (b.queue on.read).buffer with
  | cons w rest =>
    rw [recv_of_cons _ hq, hb.waiting] at hnext
    have hset : Inside policy m₀ n (b.setQueue on.read ⟨rest, []⟩) l :=
      { h with resting := hb.setQueue on.read rest }
    have hpart : ∀ g ∈ [Frame.received on], g = .pass ∨ g.IsPart := by simp [Frame.IsPart]
    exact hset.hand hpart hnext
  | nil =>
    rw [recv_of_nil _ hq, hb.waiting] at hnext
    have hquiet : (Machine.step^[n + 1] m₀).quiet = true := by
      rw [hnext]
      simp [quiet, setQueue, hb.jobs, hb.parked]
    have hblocks : (Machine.step^[n] m₀).Stops none := by
      refine .blocks on hbefore ?_ ?_
      · rw [← Function.iterate_succ_apply' Machine.step]
        exact hquiet
      · rw [← Function.iterate_succ_apply' Machine.step, hnext, queue_setQueue_self]
        rfl
    refine .waiting hquiet ?_ ?_ ?_
    · rw [hnext]
      simp [outcome?, setQueue, hb.events]
    · rw [hnext]
      exact h.cutShort hblocks
    · rw [hnext]
      exact h.steps

lemma sequel (h : Inside policy m₀ n b (under ++ k)) (hk : k.Housed) {f : Frame} {v : Value}
    {q : Sequel} (hq : q.Above under) (hbefore : (Machine.step^[n] m₀).jobs = [⟨.ok v, f :: k⟩])
    (hnext : Machine.step^[n + 1] m₀ = q.apply k b) : Phase policy m₀ (n + 1) := by
  have hraise : ∀ f l, (Machine.step^[n + 1] m₀).jobs = [⟨.error f, l⟩] →
      CutShort m₀ (n + 1) (some f) b.brackets := by
    intro f l hjobs
    rw [Function.iterate_succ_apply'] at hjobs
    exact h.cutShort (.raises hbefore hjobs)
  cases hq with
  | @fault f hf =>
    refine .failing hnext h.resting (.housed hk) ⟨.inr (hraise f k ?_), ?_⟩
    · rw [hnext]
      exact h.resting.jobs_resume ..
    · rw [hf]
      exact h.steps
  | hand gs hg v =>
    rw [Sequel.apply, List.append_assoc] at hnext
    exact h.hand hg hnext
  | count gs e env hg =>
    rw [Sequel.apply, List.cons_append, List.append_assoc] at hnext
    have hmarks := Stack.marks_append hg (under ++ k)
    refine .check hnext h.resting (h.housed.append hg h.marked) (hmarks ▸ h.pending) h.steps
      (map_underWay_succ ?_) fun f l hjobs => .inr (hraise f l hjobs)
    rw [hnext, height_check h.resting, hmarks]
    exact h.filter_underWay (by simp only [List.length_cons, List.length_append]; omega)
  | receive on hnil =>
    subst hnil
    exact h.receive hbefore hnext

end Inside

/-- The process has a turn inside an evaluation, or begins one. -/
lemma Phase.turn {f : Frame} {v : Value} {t : Turn} {notes : List Note}
    (ht : policy.tracing = true) (hm : Machine.step^[n] m₀ = b.resume (f :: k) (.ok v))
    (hnext : Machine.step^[n + 1] m₀ = t.apply k b) (hb : b.Resting policy)
    (htells : t.Tells notes under) (hk : k.Housed) (hu : Stack.Housed (under ++ k))
    (hne : Stack.marks (under ++ k) ≠ [])
    (hp : Pending ((Stack.marks (under ++ k)).map (·.1)) (b.brackets ++ notes))
    (hs : (b.brackets ++ notes).countP Note.isEnter = b.steps)
    (hw : (m₀.underWay n).map mark = Stack.marks (under ++ k)) : Phase policy m₀ (n + 1) := by
  have hbrackets := brackets_deeds hb ht t.deeds
  rw [htells.notes] at hbrackets
  have hsteps := steps_deeds b t.deeds
  rw [Deed.sum_checks, htells.forks, Nat.add_zero] at hsteps
  have hinside : Inside policy m₀ n (t.deeds.foldl Deed.apply b) (under ++ k) := by
    refine ⟨hb.deeds htells.forks, hu, hne, ?_, ?_, hw⟩
    · rw [hbrackets]
      exact hp
    · rw [entered, hbrackets, hsteps]
      exact hs
  exact hinside.sequel hk htells.above (by rw [hm, hb.jobs_resume]) hnext

/-- An evaluation has its value, and it ends unless the value has no text. -/
lemma Phase.leave {c : String} {v : Value} (ht : policy.tracing = true)
    (hm : Machine.step^[n] m₀ = b.resume (.leave c :: k) (.ok v))
    (hnext : Machine.step^[n + 1] m₀ =
      (Turn.noting true v (.note (.leave c v)) (.hand [] v)).apply k b)
    (hk : k.Housed) (h : Inside policy m₀ n b (.leave c :: k)) : Phase policy m₀ (n + 1) := by
  have hb := h.resting
  unfold Turn.noting at hnext
  split at hnext
  · have hnoted : Machine.step^[n + 1] m₀ = (b.trace (.leave c v)).resume k (.ok v) := hnext
    have hlog : (b.trace (.leave c v)).brackets = b.brackets ++ [.leave c v] :=
      brackets_deeds hb ht [.note (.leave c v)]
    refine handed hnoted (hb.trace _) (.housed hk) (hlog ▸ h.pending.leave v) ?_ ?_
    · rw [hk.evals, entered, hlog, List.countP_append, steps_trace]
      exact h.steps
    · rw [h.underWay, Stack.marks, List.filter_cons_of_neg (by simp)]
      exact Stack.filter_marks (le_refl k.length)
  · have hfault : Machine.step^[n + 1] m₀ = b.resume k (.error (.misuse .noText)) := hnext
    have hbefore : (Machine.step^[n] m₀).jobs = [⟨.ok v, .leave c :: k⟩] := by
      rw [hm, hb.jobs_resume]
    have hafter : (Machine.step^[n] m₀).step.jobs = [⟨.error (.misuse .noText), k⟩] := by
      rw [← Function.iterate_succ_apply' Machine.step, hfault, hb.jobs_resume]
    exact .failing hfault hb (.housed hk) ⟨.inr (h.cutShort (.raises hbefore hafter)), h.steps⟩

/-! ### Steps -/

lemma Resting.report (hb : b.Resting policy) (o : Outcome) :
    (b.report 0 o).quiet = true ∧ (b.report 0 o).outcome? 0 = some o := by
  constructor
  · simp [quiet, Machine.report, hb.jobs, hb.parked]
  · simp [outcome?, Machine.report, hb.events]

lemma begins?_of_housed (hb : b.Resting policy) (hk : k.Housed) (v : Value) :
    (b.resume k (.ok v)).begins? = none := by
  rw [begins?, hb.jobs_resume]
  cases hk with
  | part hf => cases ‹Frame› <;> first | rfl | exact hf.elim
  | _ => rfl

lemma step_paused (hb : b.Resting policy) (k : Stack) :
    ({ b with parked := [k] } : Machine).step = b.resume k (.ok .unit) := by
  rw [step_of_parked (m := { b with parked := [k] }) hb.jobs rfl]
  obtain ⟨-, hj, hp, -⟩ := hb
  cases b
  cases hj
  cases hp
  rfl

lemma Broken.later {f : Fault} (h : Broken m₀ n f b) : Broken m₀ (n + 1) f b :=
  ⟨h.cut.imp_right CutShort.later, h.steps⟩

namespace Phase

lemma accept {v : Value} (ht : policy.tracing = true)
    (hobeys : (Machine.step^[n] m₀).Obeys .captioned)
    (hm : Machine.step^[n] m₀ = b.resume k (.ok v)) (h : Proceeds policy m₀ n b k) :
    Phase policy m₀ (n + 1) := by
  obtain ⟨hb, hk, hp, hs, hw⟩ := h
  have hnext : Machine.step^[n + 1] m₀ = b.perform ⟨.ok v, k⟩ := by
    rw [Function.iterate_succ_apply', hm, step_resume hb]
  have hturn : ∀ (f : Frame) (l : Stack), ¬ f.IsScripted → ¬ f.IsBottom →
      b.perform ⟨.ok v, f :: l⟩ = (f.turn true b.allocated v).apply l b := by
    intro f l hscripted hbottom
    have haccept := accept_eq_turn (m := b) hscripted hbottom v l
    rw [hb.policy, ht] at haccept
    exact haccept
  -- an evaluation begins only on top of the stack
  cases hk with
  | @eval k e env hk =>
    have hjob : ⟨.ok v, .eval e env :: k⟩ ∈ (Machine.step^[n] m₀).jobs := by
      rw [hm, hb.jobs_resume]
      exact List.mem_singleton_self _
    -- the expression has a caption and is no fork
    have hnode := ((hobeys.jobs _ hjob).2 _ (List.mem_cons_self ..)).resolve_right id
    have hbegins : (b.resume (.eval e env :: k) (.ok v)).begins? = some (e, k.length) := by
      rw [begins?, hb.jobs_resume]
    rw [hm, hbegins] at hw
    refine turn ht hm (hnext.trans (hturn _ k id id)) hb
      (Expr.tells_turn hnode.1.here.1 hnode.1.here.2 _ _) hk (.leave _ hk) (by simp [Stack.marks])
      (hp.enter _) ?_ hw
    rw [hk.evals_eval] at hs
    rw [List.countP_append]
    exact hs
  | housed hk =>
    rw [hm, begins?_of_housed hb hk, Option.map_none, Option.toList_none, List.nil_append] at hw
    rw [hk.evals, Nat.add_zero] at hs
    cases hk with
    | report =>
      have hreport : Machine.step^[n + 1] m₀ = b.report 0 (.ok v) := hnext
      obtain ⟨hquiet, houtcome⟩ := hb.report (.ok v)
      rw [← hreport] at hquiet houtcome
      refine .fulfilled hquiet houtcome ?_ ?_
      · rw [hreport]
        exact hp.bracketed_iff.mpr rfl
      · rw [hreport]
        exact hs
    | @pass k hk =>
      refine handed hnext hb (.housed hk) hp (by rw [hk.evals]; exact hs) ?_
      rw [hw]
      exact Stack.filter_marks (k := k) le_rfl
    | @leave k c hk =>
      exact leave ht hm (hnext.trans (hturn _ k id id)) hk
        ⟨hb, .leave c hk, by simp [Stack.marks], hp, hs, hw⟩
    | @part f k hf hne hk =>
      have hmarks := Stack.marks_cons hf.ne_leave k
      rw [hmarks] at hp hw
      refine turn ht hm (hnext.trans (hturn f k hf.not_isScripted hf.not_isBottom)) hb
        (Frame.tells_turn hf _ _) hk hk hne ?_ ?_ hw
      · rwa [List.append_nil]
      · rwa [List.append_nil]

lemma refuse {f : Fault} (hm : Machine.step^[n] m₀ = b.resume k (.error f))
    (hb : b.Resting policy) (hk : k.Ready) (h : Broken m₀ n f b) : Phase policy m₀ (n + 1) := by
  have hnext : Machine.step^[n + 1] m₀ = b.perform ⟨.error f, k⟩ := by
    rw [Function.iterate_succ_apply', hm, step_resume hb]
  have hrefuse : ∀ (g : Frame) (l : Stack), ¬ g.IsScripted → ¬ g.IsBottom →
      b.perform ⟨.error f, g :: l⟩ = b.resume l (.error f) :=
    fun g l hs hg => refuse_eq_resume hs hg f l
  cases hk with
  | @eval k e env hk => exact .failing (hnext.trans (hrefuse _ k id id)) hb (.housed hk) h.later
  | housed hk =>
    cases hk with
    | report =>
      have hreport : Machine.step^[n + 1] m₀ = b.report 0 (.error f) := hnext
      obtain ⟨hquiet, houtcome⟩ := hb.report (.error f)
      rw [← hreport] at hquiet houtcome
      refine .failed hquiet houtcome ?_
      rw [hreport]
      exact ⟨h.later.cut, h.steps⟩
    | @pass k hk => exact .failing (hnext.trans (hrefuse _ k id id)) hb (.housed hk) h.later
    | @leave k c hk => exact .failing (hnext.trans (hrefuse _ k id id)) hb (.housed hk) h.later
    | @part g k hg _ hk =>
      exact .failing (hnext.trans (hrefuse g k hg.not_isScripted hg.not_isBottom)) hb (.housed hk)
        h.later

/-- **A step leads from phase to phase.** -/
theorem step (ht : policy.tracing = true) (hobeys : (Machine.step^[n] m₀).Obeys .captioned)
    (h : Phase policy m₀ n) : Phase policy m₀ (n + 1) := by
  have hrest : (Machine.step^[n] m₀).quiet = true →
      Machine.step^[n + 1] m₀ = Machine.step^[n] m₀ := by
    intro hq
    rw [Function.iterate_succ_apply', step_of_quiet hq]
  -- at rest nothing changes, and the last turn stays the last
  cases h with
  | going hm h => exact accept ht hobeys hm h
  | @paused b k hm h =>
    obtain ⟨hb, hk, hp, hs, hw⟩ := h
    have hnext : Machine.step^[n + 1] m₀ = b.resume k (.ok .unit) := by
      rw [Function.iterate_succ_apply', hm, step_paused hb]
    have hbegins : (Machine.step^[n] m₀).begins? = none := by
      rw [hm, begins?, hb.jobs]
    refine handed hnext hb hk hp hs ?_
    rw [hw, hbegins]
    exact Stack.filter_marks le_rfl
  | failing hm hb hk h => exact refuse hm hb hk h
  | waiting hq ho hc hs =>
    have hsame := hrest hq
    exact .waiting (hsame ▸ hq) (hsame ▸ ho) (hsame ▸ hc.later) (hsame ▸ hs)
  | fulfilled hq ho hw hs =>
    have hsame := hrest hq
    exact .fulfilled (hsame ▸ hq) (hsame ▸ ho) (hsame ▸ hw) (hsame ▸ hs)
  | failed hq ho h =>
    have hsame := hrest hq
    exact .failed (hsame ▸ hq) (hsame ▸ ho) (hsame ▸ h.later)

end Phase

def overran (m : Machine) : Bool :=
  match m.outcome? 0 with
  | some (.error f) => f.isLimit
  | _ => false

namespace Phase

lemma exists_bracketed (h : Phase policy m₀ n) :
    ∃ rest, Bracketed ((Machine.step^[n] m₀).brackets ++ rest) := by
  have hcut : ∀ {f? w}, CutShort m₀ n f? w → ∃ rest, Bracketed (w ++ rest) :=
    fun ⟨_, _, _, _, hp⟩ => hp.exists_bracketed
  have hbroken : ∀ {f b}, Broken m₀ n f b → ∃ rest, Bracketed (b.brackets ++ rest) := by
    intro f b h
    rcases h.cut with hnil | hc
    · rw [hnil]
      exact ⟨[], .nil⟩
    · exact hcut hc
  cases h with
  | going hm h | paused hm h =>
    rw [hm]
    exact h.pending.exists_bracketed
  | failing hm _ _ h =>
    obtain ⟨rest, hrest⟩ := hbroken h
    exact ⟨rest, hm ▸ hrest⟩
  | waiting _ _ hc => exact hcut hc
  | fulfilled _ _ hw => exact (Pending.nil hw).exists_bracketed
  | failed _ _ h => exact hbroken h

end Phase

/-! ### Beginnings -/

lemma resting_fresh (policy : Policy) : ({ policy } : Machine).Resting policy :=
  ⟨rfl, rfl, rfl, rfl, fun _ => rfl⟩

namespace Phase

lemma start_fault {f : Fault} (hm : m₀ = ({ policy } : Machine).resume k (.error f))
    (hk : k.Housed) (hf : f.isLimit = false) : Phase policy m₀ 0 :=
  .failing hm (resting_fresh policy) (.housed hk) ⟨.inl rfl, by rw [hf]; rfl⟩

lemma startProgram (p : Program) (hk : k.Housed) (hmarks : k.marks = [])
    (hm : m₀ = ({ policy } : Machine).startProgram p k) : Phase policy m₀ 0 := by
  have hb := resting_fresh policy
  have hp : Pending (k.marks.map (·.1)) ({ policy } : Machine).brackets := by
    rw [hmarks]
    exact .nil .nil
  have hw : (m₀.underWay 0).map mark = (m₀.begins?.map mark).toList ++ k.marks := by
    rw [hmarks, underWay, List.append_nil]
    cases m₀.begins? <;> rfl
  unfold Machine.startProgram at hm
  split at hm
  · next g _ =>
    unfold Global.call at hm
    split at hm
    · exact start_fault hm hk rfl
    · exact .check hm hb (.pass hk) hp rfl hw fun _ _ _ => .inl rfl
    · refine .going hm ⟨hb, .housed (.pass (.pass hk)), hp, ?_, hw⟩
      rw [hk.pass.pass.evals]
      rfl
  · exact start_fault hm hk rfl

end Phase

end Machine

namespace Source

variable {s : Source} {policy : Policy}

lemma phase_start (s : Source) (policy : Policy) : Machine.Phase policy (s.start policy) 0 := by
  cases s with
  | program p => exact .startProgram p .report rfl rfl
  | unlisted => exact .start_fault rfl .report rfl
  | document doc =>
    simp only [start, Machine.startDocument]
    split
    · next r _ => exact .start_fault rfl .report (by cases r <;> rfl)
    · next v _ =>
      split
      · exact .startProgram v.program (.pass .report) rfl rfl
      · exact .startProgram v.program (.pass (.pass .report)) rfl rfl

lemma obeys_captioned (hfree : ∀ p, s.program? = some p → p.ForkFree)
    (hcaption : ∀ p, s = .program p → p.Captioned) : (s.start policy).Obeys .captioned := by
  refine s.obeys_start policy Discipline.lawful_captioned (fun _ _ => trivial) fun p hp g hg => ?_
  refine (hfree p hp g hg).and ?_
  cases s with
  | program q =>
    cases hp
    exact hcaption p rfl g hg
  | unlisted => cases hp
  | document doc =>
    cases hv : validate doc with
    | error r => simp [program?, hv, Except.toOption] at hp
    | ok v =>
      obtain rfl : v.program = p := by simpa [program?, hv, Except.toOption] using hp
      refine (validate_proper hv hg).body.imp fun e he => ?_
      obtain ⟨c, hc⟩ := he.caption
      rw [hc]
      rfl

lemma phase (ht : policy.tracing = true) (hfree : ∀ p, s.program? = some p → p.ForkFree)
    (hcaption : ∀ p, s = .program p → p.Captioned) (n : Nat) :
    Machine.Phase policy (s.start policy) n := by
  induction n with
  | zero => exact s.phase_start policy
  | succ n ih =>
    exact ih.step ht ((obeys_captioned hfree hcaption).iterate Discipline.lawful_captioned n)

/-- **Traces are well bracketed.** A program without forks is run with tracing on, under any limit
on steps and with any pauses. At every moment the beginnings and ends that it noted are the first
part of a bracketed sequence. When nothing is left to do they are bracketed exactly if the main
process was fulfilled or no expression was entered. Otherwise there was a last turn, in which the
fault was raised or the receive had to wait, and the beginnings without an end are those of the
evaluations that were under way then. As many expressions were entered as steps were counted, but
for the one step that was too many. -/
theorem traces_are_well_bracketed (s : Source) (policy : Policy) (ht : policy.tracing = true)
    (hfree : ∀ p, s.program? = some p → p.ForkFree)
    (hcaption : ∀ p, s = .program p → p.Captioned) (n : Nat) :
    let m₀ := s.start policy
    let m := Machine.step^[n] m₀
    (∃ rest, Bracketed (m.brackets ++ rest)) ∧
    (m.quiet = true →
      (Bracketed m.brackets ↔ (∃ v, m.outcome? 0 = some (.ok v)) ∨ m.entered = 0) ∧
      (¬ Bracketed m.brackets → ∃ i < n, ∃ f?, (Machine.step^[i] m₀).Stops f? ∧
        m.outcome? 0 = f?.map .error ∧
        Pending ((m₀.underWay i).map (·.1.caption)) m.brackets) ∧
      m.entered + m.overran.toNat = m.steps) := by
  intro m₀ m
  have hphase := phase ht hfree hcaption n
  refine ⟨hphase.exists_bracketed, fun hquiet => ?_⟩
  have hlast : ∀ {f?}, Machine.CutShort m₀ n f? m.brackets → m.outcome? 0 = f?.map .error →
      ∃ i < n, ∃ f?, (Machine.step^[i] m₀).Stops f? ∧ m.outcome? 0 = f?.map .error ∧
        Pending ((m₀.underWay i).map (·.1.caption)) m.brackets :=
    fun ⟨i, hi, hstops, _, hp⟩ ho => ⟨i, hi, _, hstops, ho, hp⟩
  have hnone : m.brackets = [] → Bracketed m.brackets ∧ m.entered = 0 := by
    intro hnil
    rw [Machine.entered, hnil]
    exact ⟨.nil, rfl⟩
  -- at rest the process is blocked, or it has ended in one of two ways
  cases hphase with
  | @going b k v hm =>
    have : (b.resume k (.ok v)).quiet = true := hm ▸ hquiet
    simp [Machine.quiet, Machine.resume] at this
  | @paused b k hm =>
    have : ({ b with parked := [k] } : Machine).quiet = true := hm ▸ hquiet
    simp [Machine.quiet] at this
  | @failing b k f hm =>
    have : (b.resume k (.error f)).quiet = true := hm ▸ hquiet
    simp [Machine.quiet, Machine.resume] at this
  | waiting _ ho hc hs =>
    refine ⟨⟨fun hw => absurd hw hc.not_bracketed.1, ?_⟩, fun _ => hlast hc ho, ?_⟩
    · rintro (⟨v, hv⟩ | hzero)
      · exact absurd (ho.symm.trans hv) (by simp)
      · exact absurd hzero hc.not_bracketed.2
    · have hover : m.overran = false := by simp only [Machine.overran, m, m₀, ho]
      rw [hover]
      exact hs
  | @fulfilled v _ ho hw hs =>
    refine ⟨⟨fun _ => .inl ⟨v, ho⟩, fun _ => hw⟩, fun hn => absurd hw hn, ?_⟩
    have hover : m.overran = false := by simp only [Machine.overran, m, m₀, ho]
    rw [hover]
    exact hs
  | @failed f _ ho h =>
    have hover : m.overran = f.isLimit := by simp only [Machine.overran, m, m₀, ho]
    have hsteps : m.entered + m.overran.toNat = m.steps := by
      rw [hover]
      exact h.steps
    -- a fault before the first evaluation leaves nothing that could be cut short
    rcases h.cut with hnil | hc
    · obtain ⟨hw, hzero⟩ := hnone hnil
      exact ⟨⟨fun _ => .inr hzero, fun _ => hw⟩, fun hn => absurd hw hn, hsteps⟩
    · refine ⟨⟨fun hw => absurd hw hc.not_bracketed.1, ?_⟩, fun _ => hlast hc ho, hsteps⟩
      rintro (⟨v, hv⟩ | hzero)
      · exact absurd (ho.symm.trans hv) (by simp)
      · exact absurd hzero hc.not_bracketed.2

end Source

/-- A program that waits for a value on a channel that nobody else has. -/
def lonelyReceive : Program := ⟨[.global ⟨.text "main", .ok [], .fst (.recv (.fst .channel))⟩]⟩

/-- It enters four expressions and leaves two of them. -/
theorem lonelyReceive_cut_short :
    let m₀ := (Source.program lonelyReceive).start { tracing := true }
    let m := Machine.step^[8] m₀
    lonelyReceive.ForkFree ∧ lonelyReceive.Captioned ∧ m.quiet = true ∧ m.entered = 4 ∧
      ¬ Bracketed m.brackets ∧ m.steps = 4 ∧
      ∃ i < 8, ∃ f?, (Machine.step^[i] m₀).Stops f? ∧ m.outcome? 0 = f?.map .error ∧
        Pending ((m₀.underWay i).map (·.1.caption)) m.brackets := by
  have hbody : ∀ g, Declaration.global g ∈ lonelyReceive.declarations →
      g.body = .fst (.recv (.fst .channel)) := by
    intro g hg
    cases List.mem_singleton.mp hg
    rfl
  have hfree : lonelyReceive.ForkFree := fun g hg => by
    rw [hbody g hg]
    exact .of_checks (n := 5) (by decide)
  have hcaption : lonelyReceive.Captioned := fun g hg => by
    rw [hbody g hg]
    exact .of_checks (n := 5) (by decide)
  obtain ⟨hiff, hlast, hsteps⟩ := (Source.traces_are_well_bracketed (.program lonelyReceive)
    { tracing := true } rfl (fun _ hp => Option.some.inj hp ▸ hfree)
    (fun _ hp => Source.program.inj hp ▸ hcaption) 8).2 (by decide)
  have hopen := mt hiff.mp fun h => h.elim (fun ⟨_, hv⟩ => nomatch hv) (by decide)
  exact ⟨hfree, hcaption, by decide, by decide, hopen, hsteps.symm, hlast hopen⟩

end Parley
