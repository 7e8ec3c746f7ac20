import Parley.Proofs.Translation

/-!
Processes without a schedule. A network has its processes under names that do not depend on who
runs when: a process is known by its descent, and a channel by the process that opened it and by
how many it had opened before. At any moment some processes can move, and each can move in one
way only; nothing says which moves first.

Moves of two processes commute unless both send on one queue or both receive from one. So if a
network can come to rest and every queue is used by one process at each of its ends, then it
comes to rest in the same way whoever moves first.
-/

namespace Parley

/-- The descent of a process: none for the main process, and for any other its number among those
that its parent has forked, followed by the descent of the parent. -/
abbrev Lineage := List Nat

/-- The number of the first queue of the channel that a process opens after `c` others. -/
def channelName (p : Lineage) (c : Nat) : Nat := 2 * Encodable.encode (p, c)

lemma channelName_inj {p q : Lineage} {c d i j : Nat} (hi : i < 2) (hj : j < 2)
    (h : channelName p c + i = channelName q d + j) : p = q ∧ c = d ∧ i = j := by
  unfold channelName at h
  have hcode : Encodable.encode (p, c) = Encodable.encode (q, d) := by omega
  obtain ⟨rfl, rfl⟩ := Prod.mk.inj (Encodable.encode_injective hcode)
  exact ⟨rfl, rfl, by omega⟩

inductive Stance
  | unborn
  | going (o : Outcome) (k : Stack)
  /-- Has asked for a value. -/
  | asking (on : Endpoint) (k : Stack)
  | ended (o : Outcome)

/-- A process, with the numbers of processes it has forked and of channels it has opened. -/
structure Member where
  stance : Stance := .unborn
  children : Nat := 0
  channels : Nat := 0

inductive Side
  | write | read
  deriving DecidableEq

inductive Mark
  | step
  | failure
  | use (side : Side) (q : QueueId) (p : Lineage)
  deriving DecidableEq

/-- Processes by descent, what was sent on queues and not received, and all that is remembered. -/
structure Net where
  member : Lineage → Member
  lane : QueueId → List Value
  marks : Multiset Mark

/-! ### Moves -/

namespace Sequel

def stance (k : Stack) : Sequel → Stance
  | .hand fs (.ok v) => .going (.ok v) (fs ++ k)
  | .hand _ (.error f) => .going (.error f) []
  | .count fs => .going (.ok .unit) (fs ++ k)
  | .receive on => .asking on k

def marks (p : Lineage) : Sequel → Multiset Mark
  | .hand _ _ => 0
  | .count _ => {.step}
  | .receive on => {.use .read on.read p}

end Sequel

namespace Deed

/-- A process that is forked has its first step counted at once. -/
def marks (p : Lineage) : Deed → Multiset Mark
  | .fork _ _ => {.step}
  | .send on _ => {.use .write on.write p}
  | _ => 0

def child? : Deed → Option Stack
  | .fork e env => some [.eval e env]
  | _ => none

def put (q : QueueId) : Deed → List Value
  | .send on v => if on.write = q then [v] else []
  | _ => []

end Deed

structure Effect where
  stance : Stance
  act : Option Deed := none
  /-- The queue from which a value is received. -/
  take : Option QueueId := none
  marks : Multiset Mark := 0

namespace Effect

def child? (e : Effect) : Option Stack := e.act.bind Deed.child?

def put (e : Effect) (q : QueueId) : List Value := (e.act.map (Deed.put q)).getD []

def opens (e : Effect) : Bool := (e.act.map Deed.opens).getD false

end Effect

def Frame.effect (p : Lineage) (channels : Nat) (f : Frame) (v : Value) (k : Stack) : Effect :=
  let act := f.act? false v
  let gist := (f.turn false (channelName p channels) v).gist
  { stance := gist.stance k, act, marks := (act.map (Deed.marks p)).getD 0 + gist.marks p }

namespace Net

/-- The end of a process. Only tasks are remembered to have failed. -/
def ending (p : Lineage) (o : Outcome) : Effect :=
  { stance := .ended o
    marks := match p, o with
      | _ :: _, .error _ => {.failure}
      | _, _ => 0 }

def effect? (N : Net) (p : Lineage) : Option Effect :=
  match (N.member p).stance with
  | .going (.ok v) (f :: k) => some (f.effect p (N.member p).channels v k)
  | .going (.ok v) [] => some (ending p (.ok v))
  | .going (.error f) _ => some (ending p (.error f))
  | .asking on k => (N.lane on.read).head?.map fun v =>
    { stance := .going (.ok (.pair v (.channel on))) k, take := some on.read }
  | _ => none

def commit (N : Net) (p : Lineage) (e : Effect) : Net where
  member :=
    let me := N.member p
    let moved := Function.update N.member p
      ⟨e.stance, me.children + e.child?.toList.length, me.channels + e.opens.toNat⟩
    let l := me.children :: p
    match e.child? with
    | some k => Function.update moved l { N.member l with stance := .going (.ok .unit) k }
    | none => moved
  lane q := (if e.take = some q then (N.lane q).tail else N.lane q) ++ e.put q
  marks := N.marks + e.marks

def Step (N N' : Net) : Prop := ∃ p e, N.effect? p = some e ∧ N' = N.commit p e

abbrev Steps : Net → Net → Prop := Relation.ReflTransGen Step

def Rests (N : Net) : Prop := ∀ p, N.effect? p = none

/-- At each end a queue is used by one process only. -/
def PointToPoint (N : Net) : Prop :=
  ∀ side q p p', .use side q p ∈ N.marks → .use side q p' ∈ N.marks → p = p'

variable {N N' T : Net} {p q : Lineage} {e d : Effect}

/-! ### Single moves -/

lemma member_commit_self (N : Net) (p : Lineage) (e : Effect) : (N.commit p e).member p =
    ⟨e.stance, (N.member p).children + e.child?.toList.length,
      (N.member p).channels + e.opens.toNat⟩ := by
  have hne : p ≠ (N.member p).children :: p := by simp
  simp only [commit]
  cases e.child? with
  | none => exact Function.update_self ..
  | some k => exact (Function.update_of_ne hne ..).trans (Function.update_self ..)

lemma member_commit_eq (N : Net) (e : Effect) {l : Lineage} (hl : l ≠ p) :
    (N.commit p e).member l = match e.child? with
      | some k => if l = (N.member p).children :: p then
          { N.member l with stance := .going (.ok .unit) k } else N.member l
      | none => N.member l := by
  simp only [commit]
  cases e.child? with
  | none => exact Function.update_of_ne hl ..
  | some k =>
    simp only [Function.update_apply, if_neg hl]
    split
    · next h => rw [h]
    · rfl

lemma member_commit_of_ne {l : Lineage} (hl : l ≠ p) (hc : l ≠ (N.member p).children :: p) :
    (N.commit p e).member l = N.member l := by
  rw [member_commit_eq N e hl]
  cases e.child? with
  | none => rfl
  | some k => exact if_neg hc

/-- What a process can do depends on itself and on what it receives. -/
lemma effect?_congr (hm : N'.member p = N.member p)
    (hl : ∀ on k, (N.member p).stance = .asking on k →
      (N'.lane on.read).head? = (N.lane on.read).head?) : N'.effect? p = N.effect? p := by
  unfold effect?
  rw [hm]
  cases hs : (N.member p).stance with
  | asking on k => simp only [hl on k hs]
  | going o k => cases o <;> cases k <;> rfl
  | _ => rfl

lemma born_of_effect? (h : N.effect? p = some e) : (N.member p).stance ≠ .unborn := by
  intro hu
  simp [effect?, hu] at h

lemma stance_of_effect? (h : N.effect? p = some e) : e.stance ≠ .unborn := by
  unfold effect? at h
  split at h
  · next v f k _ =>
    cases h
    simp only [Frame.effect]
    cases (f.turn false _ v).gist with
    | hand fs o => cases o <;> exact Stance.noConfusion
    | _ => exact Stance.noConfusion
  · cases h; exact Stance.noConfusion
  · cases h; exact Stance.noConfusion
  · obtain ⟨v, -, rfl⟩ := Option.map_eq_some_iff.mp h
    exact Stance.noConfusion
  · cases h

lemma not_ended_of_effect? (h : N.effect? p = some e) (o : Outcome) :
    (N.member p).stance ≠ .ended o := by
  intro hended
  simp [effect?, hended] at h

/-- Whom a process will fork next is not born yet, and whoever has asked for a value is remembered
as a user of the queue. -/
structure Sound (N : Net) : Prop where
  fresh : ∀ p i, (N.member p).children ≤ i → (N.member (i :: p)).stance = .unborn
  asked : ∀ p on k, (N.member p).stance = .asking on k → .use .read on.read p ∈ N.marks

/-- A move of another process leaves a process as it is. -/
lemma Sound.member_commit (hN : N.Sound) (hq : (N.member q).stance ≠ .unborn) (hne : q ≠ p) :
    (N.commit p e).member q = N.member q := by
  refine member_commit_of_ne hne fun hchild => hq ?_
  rw [hchild]
  exact hN.fresh p _ le_rfl

/-- A process has asked for a value after a move only if it is remembered as a user. -/
lemma asked_of_effect? (h : N.effect? p = some e) {on : Endpoint} {k : Stack}
    (he : e.stance = .asking on k) : .use .read on.read p ∈ e.marks := by
  unfold effect? at h
  split at h
  · next v f k' _ =>
    cases h
    simp only [Frame.effect] at he ⊢
    generalize (f.turn false _ v).gist = gist at he ⊢
    refine Multiset.mem_add.mpr (.inr ?_)
    cases gist with
    | hand fs o => cases o <;> cases he
    | count fs => cases he
    | receive on' =>
      cases he
      exact Multiset.mem_singleton_self _
  · cases h; cases he
  · cases h; cases he
  · obtain ⟨v, -, rfl⟩ := Option.map_eq_some_iff.mp h
    cases he
  · cases h

/-- Whoever is not the mover is as before, or it is forked by the move. -/
lemma member_commit_cases (N : Net) (p : Lineage) (e : Effect) {l : Lineage} (hl : l ≠ p) :
    (N.commit p e).member l = N.member l ∨ ∃ k, e.child? = some k ∧
      l = (N.member p).children :: p ∧
      (N.commit p e).member l = { N.member l with stance := .going (.ok .unit) k } := by
  rw [member_commit_eq N e hl]
  cases e.child? with
  | none => exact .inl rfl
  | some k =>
    by_cases hchild : l = (N.member p).children :: p
    · exact .inr ⟨k, rfl, hchild, if_pos hchild⟩
    · exact .inl (if_neg hchild)

lemma Sound.commit (hN : N.Sound) (h : N.effect? p = some e) : (N.commit p e).Sound := by
  have hborn := born_of_effect? h
  refine ⟨fun l i hi => ?_, fun l on k hl => ?_⟩
  · -- nobody has fewer children than before
    have hle : (N.member l).children ≤ i := by
      by_cases hlp : l = p
      · subst hlp
        rw [member_commit_self] at hi
        exact (Nat.le_add_right ..).trans hi
      · rcases member_commit_cases N p e hlp with heq | ⟨k, -, -, heq⟩ <;> rwa [heq] at hi
    have hunborn := hN.fresh l i hle
    have hne : i :: l ≠ p := fun heq => hborn (heq ▸ hunborn)
    rcases member_commit_cases N p e hne with heq | ⟨k, hk, hchild, -⟩
    · rw [heq]
      exact hunborn
    · obtain ⟨rfl, rfl⟩ := List.cons.inj hchild
      rw [member_commit_self, hk] at hi
      exact absurd hi (by simp)
  · have hmarks : (N.commit p e).marks = N.marks + e.marks := rfl
    rw [hmarks]
    by_cases hlp : l = p
    · subst hlp
      rw [member_commit_self] at hl
      exact Multiset.mem_add.mpr (.inr (asked_of_effect? h hl))
    · refine Multiset.mem_add.mpr (.inl (hN.asked l on k ?_))
      rcases member_commit_cases N p e hlp with heq | ⟨k, -, -, heq⟩
      · rwa [heq] at hl
      · rw [heq] at hl
        cases hl

lemma Sound.step (hN : N.Sound) (h : N.Step N') : N'.Sound := by
  obtain ⟨p, e, he, rfl⟩ := h
  exact hN.commit he

lemma take_of_effect? (h : N.effect? p = some e) {x : QueueId} (hx : e.take = some x) :
    (∃ on k, (N.member p).stance = .asking on k ∧ on.read = x) ∧ N.lane x ≠ [] := by
  unfold effect? at h
  split at h
  · cases h; cases hx
  · cases h; cases hx
  · cases h; cases hx
  · next on k hs =>
    obtain ⟨v, hv, rfl⟩ := Option.map_eq_some_iff.mp h
    cases hx
    refine ⟨⟨on, k, hs, rfl⟩, fun hnil => ?_⟩
    rw [hnil] at hv
    cases hv
  · cases h

lemma use_of_put (h : N.effect? p = some e) {x : QueueId} (hx : e.put x ≠ []) :
    .use .write x p ∈ e.marks := by
  unfold effect? at h
  split at h
  · next v f k _ =>
    cases h
    simp only [Frame.effect, Effect.put] at hx ⊢
    cases hact : f.act? false v with
    | none => simp [hact] at hx
    | some act =>
      simp only [hact, Option.map_some, Option.getD_some] at hx ⊢
      refine Multiset.mem_add.mpr (.inl ?_)
      cases act with
      | send on w =>
        simp only [Deed.put] at hx
        split at hx
        · next hq =>
          rw [← hq]
          exact Multiset.mem_singleton_self _
        · exact absurd rfl hx
      | _ => exact absurd rfl hx
  · cases h; exact absurd rfl hx
  · cases h; exact absurd rfl hx
  · obtain ⟨v, -, rfl⟩ := Option.map_eq_some_iff.mp h
    exact absurd rfl hx
  · cases h

/-! ### Two moves -/

/-- A process can still make its move after that of another that does not receive from the same
queue. -/
lemma Sound.effect?_commit (hN : N.Sound) (hpq : p ≠ q) (hd : N.effect? q = some d)
    (htake : ∀ x, e.take = some x → d.take ≠ some x) : (N.commit p e).effect? q = some d := by
  rw [← hd]
  refine effect?_congr (hN.member_commit (born_of_effect? hd) hpq.symm) fun on k hs => ?_
  cases hlane : N.lane on.read with
  | nil => simp [effect?, hs, hlane] at hd
  | cons v rest =>
    have hd' : d.take = some on.read := by
      simp only [effect?, hs, hlane, List.head?_cons, Option.map_some] at hd
      cases hd
      rfl
    have hkeep : e.take ≠ some on.read := fun h => htake _ h hd'
    have hlane' : (N.commit p e).lane on.read = v :: (rest ++ e.put on.read) := by
      simp only [Net.commit, if_neg hkeep, hlane, List.cons_append]
    rw [hlane']
    rfl

/-- **Moves of two processes commute**, unless both send on one queue or both receive from one. -/
theorem Sound.commit_comm (hN : N.Sound) (hpq : p ≠ q) (he : N.effect? p = some e)
    (hd : N.effect? q = some d) (hput : ∀ x, e.put x = [] ∨ d.put x = [])
    (htake : ∀ x, e.take = some x → d.take ≠ some x) :
    (N.commit p e).commit q d = (N.commit q d).commit p e := by
  have hp := hN.member_commit (e := d) (born_of_effect? he) hpq
  have hq := hN.member_commit (e := e) (born_of_effect? hd) hpq.symm
  have hchildp : (N.member p).children :: p ≠ q := fun h =>
    born_of_effect? hd (h ▸ hN.fresh p _ le_rfl)
  have hchildq : (N.member q).children :: q ≠ p := fun h =>
    born_of_effect? he (h ▸ hN.fresh q _ le_rfl)
  have hchildren : (N.member p).children :: p ≠ (N.member q).children :: q := by simp [hpq]
  have hne : p ≠ (N.member q).children :: q := Ne.symm hchildq
  have hmembers : ((N.commit p e).commit q d).member = ((N.commit q d).commit p e).member := by
    funext l
    by_cases hlp : l = p
    · subst hlp
      have hkeep : ((N.commit l e).commit q d).member l = (N.commit l e).member l :=
        member_commit_of_ne hpq (by rwa [hq])
      rw [hkeep, member_commit_self, member_commit_self, hp]
    · by_cases hlq : l = q
      · subst hlq
        have hkeep : ((N.commit l d).commit p e).member l = (N.commit l d).member l :=
          member_commit_of_ne hlp (by rw [hp]; exact Ne.symm hchildp)
        rw [hkeep, member_commit_self, member_commit_self, hq]
      · rw [member_commit_eq (N.commit p e) d hlq, member_commit_eq (N.commit q d) e hlp,
          member_commit_eq N e hlp, member_commit_eq N d hlq, hp, hq]
        cases e.child? with
        | none => rfl
        | some k =>
          cases d.child? with
          | none => rfl
          | some k' =>
            by_cases hchild : l = (N.member p).children :: p
            · subst hchild
              simp only [if_neg hchildren, if_true]
            · simp only [if_neg hchild]
  have hlanes : ((N.commit p e).commit q d).lane = ((N.commit q d).commit p e).lane := by
    funext x
    have hl : ∀ {M : Net} {r : Lineage} {c : Effect}, (M.commit r c).lane x =
        (if c.take = some x then (M.lane x).tail else M.lane x) ++ c.put x := rfl
    rw [hl, hl (M := N), hl (M := N.commit q d), hl (M := N)]
    -- what is received is there before anything more is sent
    have htail : ∀ {r : Lineage} {c : Effect} (l : List Value), N.effect? r = some c →
        c.take = some x → (N.lane x ++ l).tail = (N.lane x).tail ++ l := by
      intro r c l hc hx
      have hne := (take_of_effect? hc hx).2
      cases hlane : N.lane x with
      | nil => exact absurd hlane hne
      | cons v rest => rfl
    by_cases hex : e.take = some x
    · rw [if_pos hex, if_neg (htake x hex), if_neg (htake x hex), if_pos hex, htail _ he hex]
      rcases hput x with h | h <;> simp [h]
    · rw [if_neg hex, if_neg hex]
      by_cases hdx : d.take = some x
      · rw [if_pos hdx, if_pos hdx, htail _ hd hdx]
        rcases hput x with h | h <;> simp [h]
      · rw [if_neg hdx, if_neg hdx]
        rcases hput x with h | h <;> simp [h]
  have hmarks : N.marks + e.marks + d.marks = N.marks + d.marks + e.marks := add_right_comm ..
  calc (N.commit p e).commit q d
      = ⟨((N.commit p e).commit q d).member, ((N.commit p e).commit q d).lane,
          N.marks + e.marks + d.marks⟩ := rfl
    _ = ⟨((N.commit q d).commit p e).member, ((N.commit q d).commit p e).lane,
          N.marks + d.marks + e.marks⟩ := by rw [hmembers, hlanes, hmarks]
    _ = (N.commit q d).commit p e := rfl

/-! ### Coming to rest -/

lemma Steps.marks_le (h : N.Steps T) : N.marks ≤ T.marks := by
  induction h with
  | refl => exact le_rfl
  | tail _ hstep ih =>
    obtain ⟨p, e, -, rfl⟩ := hstep
    exact ih.trans (Multiset.le_add_right ..)

lemma Steps.sound (h : N.Steps T) (hN : N.Sound) : T.Sound := by
  induction h with
  | refl => exact hN
  | tail _ hstep ih => exact ih.step hstep

lemma Rests.eq_of_steps (hN : N.Rests) (h : N.Steps T) : T = N := by
  cases h.cases_head with
  | inl heq => exact heq.symm
  | inr h =>
    obtain ⟨M, ⟨p, e, he, -⟩, -⟩ := h
    rw [hN p] at he
    cases he

/-- Before a network is at rest every process makes the move that it can make, so it is remembered
in the end what the move uses. -/
lemma Steps.marks_of_effect? (h : N.Steps T) (hN : N.Sound) (hT : T.Rests)
    (he : N.effect? p = some e) : ∀ x ∈ e.marks, x ∈ T.marks := by
  induction h using Relation.ReflTransGen.head_induction_on with
  | refl =>
    rw [hT p] at he
    cases he
  | @head N N' hstep hrest ih =>
    obtain ⟨q, d, hd, rfl⟩ := hstep
    intro x hx
    by_cases hqp : q = p
    · subst hqp
      rw [he] at hd
      cases hd
      exact Multiset.mem_of_le (Steps.marks_le hrest) (Multiset.mem_add.mpr (.inr hx))
    · have hmember : (N.commit q d).member p = N.member p :=
        hN.member_commit (born_of_effect? he) (Ne.symm hqp)
      cases hs : (N.member p).stance with
      | unborn => exact absurd hs (born_of_effect? he)
      | ended o => simp [effect?, hs] at he
      | asking on k =>
        -- to receive is no further use of the queue
        simp only [effect?, hs] at he
        obtain ⟨v, -, rfl⟩ := Option.map_eq_some_iff.mp he
        exact absurd hx (Multiset.notMem_zero x)
      | going o k =>
        refine ih (hN.commit hd) ?_ x hx
        rw [← he]
        exact effect?_congr hmember fun on k hasks => by simp [hs] at hasks

/-- **A network that can come to rest cannot miss it**: if every queue has one user at each of its
ends, then after a move of any process the network still comes to rest in the same way. -/
theorem Steps.strip (h : N.Steps T) (hN : N.Sound) (hT : T.Rests) (huse : T.PointToPoint)
    (hstep : N.Step N') : N'.Steps T := by
  induction h using Relation.ReflTransGen.head_induction_on generalizing N' with
  | refl =>
    obtain ⟨p, e, he, -⟩ := hstep
    rw [hT p] at he
    cases he
  | @head N M hfirst hrest ih =>
    have hall : N.Steps T := .head hfirst hrest
    obtain ⟨p, e, he, rfl⟩ := hstep
    obtain ⟨q, d, hd, rfl⟩ := hfirst
    -- the same process can only make the same move; moves of two commute
    by_cases hpq : p = q
    · subst hpq
      rw [he] at hd
      cases hd
      exact hrest
    -- who sends on a queue or receives from it is remembered in the end
    · have hput : ∀ x, e.put x = [] ∨ d.put x = [] := by
        intro x
        by_contra hboth
        rw [not_or] at hboth
        have hp := hall.marks_of_effect? hN hT he _ (use_of_put he hboth.1)
        have hq := hall.marks_of_effect? hN hT hd _ (use_of_put hd hboth.2)
        exact hpq (huse _ _ _ _ hp hq)
      have huser : ∀ {r : Lineage} {c : Effect} {x : QueueId}, N.effect? r = some c →
          c.take = some x → .use .read x r ∈ T.marks := by
        intro r c x hc hx
        obtain ⟨⟨on, k, hs, rfl⟩, -⟩ := take_of_effect? hc hx
        exact Multiset.mem_of_le hall.marks_le (hN.asked r on k hs)
      have htake : ∀ x, e.take = some x → d.take ≠ some x := fun x hex hdx =>
        hpq (huse _ _ _ _ (huser he hex) (huser hd hdx))
      have htake' : ∀ x, d.take = some x → e.take ≠ some x := fun x hdx hex => htake x hex hdx
      have hq : (N.commit p e).effect? q = some d := hN.effect?_commit hpq hd htake
      have hp : (N.commit q d).effect? p = some e := hN.effect?_commit (Ne.symm hpq) he htake'
      have hcomm := hN.commit_comm hpq he hd hput htake
      have hlast : ((N.commit q d).commit p e).Steps T := ih (hN.commit hd) ⟨p, e, hp, rfl⟩
      exact .head ⟨q, d, hq, hcomm.symm⟩ hlast

/-- However far a network has come, it still comes to rest in the same way. -/
theorem Steps.onward (h : N.Steps T) (hN : N.Sound) (hT : T.Rests) (huse : T.PointToPoint)
    (h' : N.Steps N') : N'.Steps T := by
  induction h' with
  | refl => exact h
  | tail hsome hstep ih => exact ih.strip (Steps.sound hsome hN) hT huse hstep

end Net

end Parley
