import Parley.Proofs.Arrival

/-!
Every endpoint is an end of a channel that was allocated. Queues are allocated two at a time, so
the ends of the channel with number `k` read from and send on the queues `2 k` and `2 k + 1`. An
endpoint is looked for wherever a value can be: on its way to a process, in what a frame or a
function is closed over, in a queue, in the notes and in what has been reported.
-/

namespace Parley

/-! ### Where an endpoint occurs -/

/-- An endpoint occurs in a value: it is a channel or in a sender, or it occurs in a component of
a pair or in what a function is closed over. -/
inductive Value.Holds (e : Endpoint) : Value → Prop
  | channel : Holds e (.channel e)
  | sender : Holds e (.sender e)
  | first {a b : Value} (h : Holds e a) : Holds e (.pair a b)
  | second {a b : Value} (h : Holds e b) : Holds e (.pair a b)
  | captured {param : Param} {more : List Param} {body : Expr} {env : List (Atom × Value)}
      {b : Atom × Value} (hb : b ∈ env) (h : Holds e b.2) :
      Holds e (.function param more body env)

def Env.Holds (e : Endpoint) (env : Env) : Prop := ∃ b ∈ env, b.2.Holds e

def Frame.Holds (e : Endpoint) : Frame → Prop
  | .eval _ env | .leftOperand _ _ env | .letBody _ _ env | .letPairBody _ _ _ env
  | .pairSecond _ _ env | .callee _ env | .branch _ _ env => Env.Holds e env
  | .pairUp v | .call v | .steps _ (.result v) => v.Holds e
  | .received on => on = e
  | .recursionIndex r | .recursionRound r _ _ => Env.Holds e r.env
  | _ => False

def Stack.Holds (e : Endpoint) (k : Stack) : Prop := ∃ f ∈ k, f.Holds e

/-- A fault keeps the text of a value and not the value. -/
def Outcome.Holds (e : Endpoint) : Outcome → Prop
  | .ok v => v.Holds e
  | .error _ => False

def Note.Holds (e : Endpoint) : Note → Prop
  | .leave _ v | .finished _ v => v.Holds e
  | .sent v on | .received v on => v.Holds e ∨ on = e
  | _ => False

inductive Machine.Holds (e : Endpoint) (m : Machine) : Prop
  | outcome {j : Job} (hj : j ∈ m.jobs) (h : Outcome.Holds e j.outcome)
  | job {j : Job} (hj : j ∈ m.jobs) (h : Stack.Holds e j.stack)
  | parked {k : Stack} (hk : k ∈ m.parked) (h : k.Holds e)
  | buffer {q : QueueId} {v : Value} (hv : v ∈ (m.queue q).buffer) (h : v.Holds e)
  | waiting {q : QueueId} {k : Stack} (hk : k ∈ (m.queue q).waiting) (h : k.Holds e)
  | note {t : Note} (ht : t ∈ m.log) (h : t.Holds e)
  | event {r : Event} (hr : r ∈ m.events) (h : Outcome.Holds e r.outcome)

section Ends

variable {D : Discipline} {n : Nat} {e : Endpoint}

/-- What obeys a discipline holds only endpoints that the discipline allows. -/
lemma Value.Obeys.ends {v : Value} (hv : v.Obeys D n) (h : v.Holds e) : D.ends n e := by
  induction hv with
  | unit | label | int => cases h
  | pair _ _ iha ihb =>
    cases h with
    | first h => exact iha h
    | second h => exact ihb h
  | function _ _ _ _ ih =>
    cases h with
    | @captured _ _ _ _ b hb h =>
      refine ih b hb (fun g hg => ?_) h
      rw [hg] at h
      cases h
  | sender hon => cases h; exact hon
  | channel he => cases h; exact he

lemma Env.Obeys.ends {env : Env} (henv : Env.Obeys D n env) (h : Env.Holds e env) :
    D.ends n e := by
  obtain ⟨b, hb, h⟩ := h
  refine (henv.values b hb fun g hg => ?_).ends h
  rw [hg] at h
  cases h

lemma Frame.Obeys.ends {f : Frame} (hf : f.Obeys D n) (h : f.Holds e) : D.ends n e := by
  cases f with
  | eval | leftOperand | letBody | letPairBody | pairSecond | callee => exact hf.2.ends h
  | branch | recursionIndex | recursionRound => exact hf.2.2.ends h
  | pairUp | call => exact Value.Obeys.ends hf h
  | received on => cases h; exact hf
  | steps => exact hf.elim
  | _ => exact h.elim

lemma Stack.Obeys.ends {k : Stack} (hk : k.Obeys D n) (h : k.Holds e) : D.ends n e := by
  obtain ⟨f, hf, h⟩ := h
  rcases hk f hf with hobeys | hbottom
  · exact hobeys.ends h
  · cases f <;> first | exact hbottom.elim | exact h.elim

lemma Outcome.Obeys.ends {o : Outcome} (ho : Outcome.Obeys D n o) (h : Outcome.Holds e o) :
    D.ends n e := by
  cases o with
  | ok v => exact Value.Obeys.ends ho h
  | error f => exact h.elim

lemma Note.Obeys.ends {t : Note} (ht : t.Obeys D n) (h : t.Holds e) : D.ends n e := by
  cases t with
  | leave | finished => exact Value.Obeys.ends ht h
  | sent | received =>
    rcases h with h | rfl
    · exact ht.1.ends h
    · exact ht.2
  | enter | failed => exact h.elim

/-- **Every endpoint in a machine is allowed by the discipline that the machine keeps to.** -/
theorem Machine.Obeys.ends {m : Machine} (hm : m.Obeys D) (h : m.Holds e) :
    D.ends m.allocated e := by
  cases h with
  | outcome hj h => exact (hm.jobs _ hj).1.ends h
  | job hj h => exact (hm.jobs _ hj).2.ends h
  | parked hk h => exact (hm.parked _ hk).ends h
  | buffer hv h => exact (hm.buffer _ _ hv).ends h
  | waiting hk h => exact (hm.waiting _ _ hk).ends h
  | note ht h => exact (hm.log _ ht).ends h
  | event hr h => exact (hm.events _ hr).ends h

end Ends

/-! ### What is allocated -/

def Frame.opens : Frame → Bool
  | .eval .channel _ => true
  | _ => false

/-- Only the evaluation of the expression for it allocates a channel, and it allocates one. -/
lemma Frame.opens_turn (tracing : Bool) (n : Nat) (f : Frame) (v : Value) :
    (f.turn tracing n v).deeds.countP Deed.opens = f.opens.toNat := by
  rw [Turn.countP_deeds fun _ => rfl, acts_turn]
  cases f with
  | eval e env => cases e <;> rfl
  | call arg =>
    cases v with
    | sender on =>
      simp only [act?]
      split <;> rfl
    | _ => rfl
  | _ => rfl

namespace Machine

variable {D : Discipline} {m m' : Machine} {k : Stack}

def opens (m : Machine) : Bool :=
  match m.jobs with
  | ⟨.ok _, f :: _⟩ :: _ => f.opens
  | _ => false

def opened (m : Machine) (n : Nat) : Nat :=
  (List.range n).countP fun i => (Machine.step^[i] m).opens

lemma opened_succ (m : Machine) (n : Nat) :
    m.opened (n + 1) = m.opened n + (Machine.step^[n] m).opens.toNat := by
  unfold opened
  rw [List.range_succ, List.countP_append]
  cases h : (Machine.step^[n] m).opens <;> simp [h]

lemma allocated_deed (m : Machine) (d : Deed) :
    (d.apply m).allocated = m.allocated + 2 * d.opens.toNat := by
  cases d with
  | note t => exact allocated_trace ..
  | send on v => exact (allocated_send ..).trans (allocated_trace ..)
  | fork e env => exact allocated_fork ..
  | channel => rfl

lemma allocated_deeds (m : Machine) (ds : List Deed) :
    (ds.foldl Deed.apply m).allocated = m.allocated + 2 * ds.countP Deed.opens := by
  induction ds generalizing m with
  | nil => rfl
  | cons d ds ih =>
    have hd := allocated_deed m d
    have hcount : (d :: ds).countP Deed.opens = ds.countP Deed.opens + d.opens.toNat := by
      rw [List.countP_cons]
      cases d.opens <;> rfl
    rw [List.foldl_cons, ih, hd, hcount]
    omega

lemma allocated_turn (m : Machine) (t : Turn) (k : Stack) :
    (t.apply k m).allocated = m.allocated + 2 * t.deeds.countP Deed.opens := by
  rw [← allocated_deeds]
  unfold Turn.apply
  cases t.sequel with
  | hand fs o => rfl
  | count fs => exact allocated_check ..
  | receive on =>
    simp only [Sequel.apply, recv]
    split <;> rfl

lemma allocated_settle (hm : m.awaiting = []) (task : Atom) (serial : Nat) (o : Outcome) :
    (m.settle task serial o).allocated = m.allocated := by
  rw [settle_of_nobody hm]
  cases o with
  | ok v =>
    simp only
    split
    · exact allocated_trace ..
    · rfl
  | error f => rfl

/-- A move allocates two queues for an expression that asks for a channel, and no others. -/
lemma Moves.allocated (h : Moves m m') (hm : m.awaiting = []) :
    m'.allocated = m.allocated + 2 * m.opens.toNat := by
  cases h with
  | rest h =>
    simp only [quiet, Bool.and_eq_true, List.isEmpty_iff] at h
    simp [opens, h.1]
  | release hj hp => simp [opens, hj]
  | drop hj => simp [opens, hj]
  | @turn f v k rest hj hf =>
    have hopens : m.opens = f.opens := by simp only [opens, hj]
    rw [allocated_turn, Frame.opens_turn, hopens]
  | fault hj hf => simp [opens, hj, resume]
  | @settle task serial o k rest hj =>
    have hopens : m.opens = false := by
      unfold opens
      rw [hj]
      cases o <;> rfl
    rw [allocated_settle (m := { m with jobs := rest }) hm, hopens]
    rfl
  | @report tag o k rest hj =>
    have hopens : m.opens = false := by
      unfold opens
      rw [hj]
      cases o <;> rfl
    rw [hopens]
    rfl

/-- **A run allocates two queues for each channel that is asked for.** -/
theorem allocated_iterate (hD : D.Lawful) (hm : m.Obeys D) (n : Nat) :
    (Machine.step^[n] m).allocated = m.allocated + 2 * m.opened n := by
  induction n with
  | zero => rfl
  | succ n ih =>
    have hobeys := hm.iterate hD n
    have hmove := (step_moves hobeys).allocated hobeys.awaiting
    rw [Function.iterate_succ_apply', hmove, ih, opened_succ]
    omega

end Machine

/-! ### Runs -/

def Endpoint.IsEndOf (k : Nat) (e : Endpoint) : Prop :=
  e = ⟨.allocated (2 * k), .allocated (2 * k + 1)⟩ ∨
    e = ⟨.allocated (2 * k + 1), .allocated (2 * k)⟩

/-- The discipline of any program: once so many pairs of queues are allocated, an endpoint is an
end of one of them. -/
def Discipline.paired : Discipline :=
  { any with ends := fun n e => ∀ pairs, n = 2 * pairs → ∃ k < pairs, e.IsEndOf k }

lemma Discipline.lawful_paired : paired.Lawful where
  small _ _ := trivial
  named _ := trivial
  body _ := .of_forall (fun _ => trivial) _
  params _ _ _ _ := trivial
  fresh n := by
    have hlast : ∀ pairs, n + 2 = 2 * pairs → n = 2 * (pairs - 1) ∧ pairs - 1 < pairs := by omega
    refine ⟨fun pairs hn => ?_, fun pairs hn => ?_⟩
    · obtain ⟨rfl, hlt⟩ := hlast pairs hn
      exact ⟨pairs - 1, hlt, .inl rfl⟩
    · obtain ⟨rfl, hlt⟩ := hlast pairs hn
      exact ⟨pairs - 1, hlt, .inr rfl⟩
  grow h pairs hn := by
    obtain ⟨k, hk, he⟩ := h (pairs - 1) (by omega)
    exact ⟨k, by omega, he⟩

lemma Discipline.open_paired : paired.Open := ⟨lawful_paired, fun _ _ => trivial, fun _ hf => hf⟩

lemma Source.allocated_start (s : Source) (policy : Policy) : (s.start policy).allocated = 0 := by
  obtain ⟨q, hq, hstart⟩ := s.opens
  rw [hstart]
  cases hq with
  | hand => rfl
  | count => exact Machine.allocated_check ..

/-- **Endpoints are the ends of allocated channels.** At every moment of a run twice as many queues
are allocated as channels have been asked for, and an endpoint that occurs anywhere has the two
queues of one of these channels, one to receive from and the other to send on. -/
theorem Source.endpoints_belong_to_channels (s : Source) (policy : Policy) (n : Nat) :
    let m := Machine.step^[n] (s.start policy)
    m.allocated = 2 * (s.start policy).opened n ∧
    ∀ e, m.Holds e → ∃ k, 2 * k + 1 < m.allocated ∧
      (e = ⟨.allocated (2 * k), .allocated (2 * k + 1)⟩ ∨
        e = ⟨.allocated (2 * k + 1), .allocated (2 * k)⟩) := by
  intro m
  have hobeys := s.obeys_open policy Discipline.open_paired
  have hcount : m.allocated = 2 * (s.start policy).opened n := by
    have hrun := Machine.allocated_iterate Discipline.lawful_paired hobeys n
    rw [s.allocated_start policy, Nat.zero_add] at hrun
    exact hrun
  refine ⟨hcount, fun e he => ?_⟩
  have hends := (hobeys.iterate Discipline.lawful_paired n).ends he
  obtain ⟨k, hk, hend⟩ := hends _ hcount
  exact ⟨k, by omega, hend⟩

end Parley
