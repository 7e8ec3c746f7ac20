import Parley.Machine.Operation
import Parley.Proofs.Conduct
import Mathlib.Data.List.Nodup

/-!
Queues as seen from outside. Whatever is asked of the queues of a machine, and however the
machine works in between, each queue pairs the values sent on it with the draws on it, in the
order in which either came: the k-th draw obtains the k-th value. A draw is a receive, or an
attempt to receive that found something.
-/

namespace Parley

/-! ### One queue -/

/-- A queue holds what was sent and not drawn, and what was drawn and not sent waits on it;
`f` gives the receiver behind a draw. -/
structure Queue.Pairs {α ρ δ : Type} (f : δ → Option ρ) (c : Queue α ρ) (sent : List α)
    (draws : List δ) : Prop where
  buffer : c.buffer = sent.drop draws.length
  waiting : c.waiting.map some = (draws.drop sent.length).map f

namespace Queue.Pairs

variable {α ρ δ : Type} {f : δ → Option ρ} {c : Queue α ρ} {sent : List α} {draws : List δ}
  {a : α} {r : ρ} {d : δ}

lemma length_buffer (h : c.Pairs f sent draws) : c.buffer.length = sent.length - draws.length := by
  rw [h.buffer, List.length_drop]

lemma length_waiting (h : c.Pairs f sent draws) :
    c.waiting.length = draws.length - sent.length := by
  have hlen := congrArg List.length h.waiting
  rwa [List.length_map, List.length_map, List.length_drop] at hlen

/-- What was sent and what was drawn determine a queue. -/
lemma unique {c' : Queue α ρ} (h : c.Pairs f sent draws) (h' : c'.Pairs f sent draws) :
    c = c' := by
  have hb : c.buffer = c'.buffer := h.buffer.trans h'.buffer.symm
  have hw : c.waiting = c'.waiting :=
    (List.map_inj_right fun _ _ => Option.some.inj).mp (h.waiting.trans h'.waiting.symm)
  cases c
  cases c'
  simp_all

lemma store (h : c.Pairs f sent draws) (hw : c.waiting = []) (a : α) :
    Pairs f ⟨c.buffer ++ [a], []⟩ (sent ++ [a]) draws := by
  have hle : draws.length ≤ sent.length := by
    have hlen := h.length_waiting
    rw [hw, List.length_nil] at hlen
    omega
  refine ⟨?_, ?_⟩
  · rw [h.buffer, List.drop_append_of_le_length hle]
  · rw [List.drop_eq_nil_of_le (by simp; omega)]
    rfl

lemma hand {rest : List ρ} (h : c.Pairs f sent draws) (hw : c.waiting = r :: rest) (a : α) :
    Pairs f ⟨c.buffer, rest⟩ (sent ++ [a]) draws ∧
      ∃ d, draws[sent.length]? = some d ∧ f d = some r := by
  have hlen := h.length_waiting
  rw [hw, List.length_cons] at hlen
  have hlt : sent.length < draws.length := by omega
  have hdrop := h.waiting
  rw [hw, List.drop_eq_getElem_cons hlt, List.map_cons, List.map_cons] at hdrop
  obtain ⟨hhead, htail⟩ := List.cons.inj hdrop
  refine ⟨⟨?_, ?_⟩, draws[sent.length], List.getElem?_eq_getElem hlt, hhead.symm⟩
  · rw [h.buffer, List.drop_eq_nil_of_le (by omega), List.drop_eq_nil_of_le (by simp; omega)]
  · rw [List.length_append, List.length_singleton]
    exact htail

lemma wait (h : c.Pairs f sent draws) (hb : c.buffer = []) (hd : f d = some r) :
    Pairs f ⟨[], c.waiting ++ [r]⟩ sent (draws ++ [d]) ∧ sent.length ≤ draws.length := by
  have hlen := h.length_buffer
  rw [hb, List.length_nil] at hlen
  have hle : sent.length ≤ draws.length := by omega
  refine ⟨⟨?_, ?_⟩, hle⟩
  · rw [List.drop_eq_nil_of_le (by simp; omega)]
  · rw [List.drop_append_of_le_length hle, List.map_append, List.map_append, h.waiting]
    simp [hd]

lemma take {rest : List α} (h : c.Pairs f sent draws) (hb : c.buffer = a :: rest) (d : δ) :
    Pairs f ⟨rest, c.waiting⟩ sent (draws ++ [d]) ∧ sent[draws.length]? = some a := by
  have hlen := h.length_buffer
  rw [hb, List.length_cons] at hlen
  have hlt : draws.length < sent.length := by omega
  have hdrop := h.buffer
  rw [hb, List.drop_eq_getElem_cons hlt] at hdrop
  obtain ⟨hhead, htail⟩ := List.cons.inj hdrop
  have hnil : c.waiting = [] := by
    have hw := h.length_waiting
    exact List.length_eq_zero_iff.mp (by omega)
  refine ⟨⟨?_, ?_⟩, hhead ▸ List.getElem?_eq_getElem hlt⟩
  · rw [List.length_append, List.length_singleton]
    exact htail
  · rw [hnil, List.drop_eq_nil_of_le (by simp; omega)]
    rfl

end Queue.Pairs

/-! ### Acts and their record -/

/-- What is done to the queues of a machine; `work` is a step of the machine itself. -/
inductive Act
  | newQueue
  | newChannel
  | send (q : QueueId) (v : Value)
  | recv (q : QueueId)
  | tryRecv (q : QueueId)
  | work

def Act.IsOn (q : QueueId) : Act → Prop
  | .send on _ | .recv on | .tryRecv on => on = q
  | .newQueue | .newChannel | .work => False

structure Record where
  number : Nat
  act : Act
  reply : Reply

structure Traffic where
  machine : Machine
  record : List Record := []

/-- A draw on the values of a queue: a receive by its number, or a value taken at once. -/
inductive Draw
  | receipt (number : Nat)
  | taken (v : Value)

namespace Record

def sent? (q : QueueId) (r : Record) : Option Value :=
  match r.act with
  | .send on v => if on = q then some v else none
  | _ => none

def draw? (q : QueueId) (r : Record) : Option Draw :=
  match r.act, r.reply with
  | .recv on, _ => if on = q then some (.receipt r.number) else none
  | .tryRecv on, .value (some v) => if on = q then some (.taken v) else none
  | _, _ => none

def handed (r : Record) : List QueueId :=
  match r.reply with
  | .queue q => [q]
  | .channel e => [e.read, e.write]
  | _ => []

/-- An act that is not on a queue sends nothing on it and draws nothing from it. -/
lemma apart {q : QueueId} {x : Record} (h : ¬ x.act.IsOn q) :
    x.sent? q = none ∧ x.draw? q = none := by
  obtain ⟨number, act, reply⟩ := x
  refine ⟨?_, ?_⟩
  · cases act with
    | send on v => exact if_neg h
    | _ => rfl
  · unfold draw?
    split
    · next on he =>
      cases he
      exact if_neg h
    · next on v he _ =>
      cases he
      exact if_neg h
    · rfl

end Record

/-- The outcome that a job brings to the request with a number. -/
def Job.answer? (number : Nat) : Job → Option Outcome
  | ⟨o, [.report tag]⟩ => if tag = number then some o else none
  | _ => none

/-- All outcomes of the request with a number, those on their way included. -/
def Machine.answers (m : Machine) (number : Nat) : List Outcome :=
  (m.events.toList.filter fun e => e.tag = number).map (·.outcome) ++
    m.jobs.filterMap (Job.answer? number)

def Draw.obtained (m : Machine) : Draw → List Outcome
  | .receipt n => m.answers n
  | .taken v => [.ok v]

def Draw.stack? : Draw → Option Stack
  | .receipt n => some [.report n]
  | .taken _ => none

namespace Traffic

def sent (t : Traffic) (q : QueueId) : List Value := t.record.filterMap (Record.sent? q)

def draws (t : Traffic) (q : QueueId) : List Draw := t.record.filterMap (Record.draw? q)

def handed (t : Traffic) : List QueueId := t.record.flatMap Record.handed

/-- The request that an act makes, as the one with a number. -/
def request? (number : Nat) : Act → Option Operation
  | .newQueue => some .newQueue
  | .newChannel => some .newChannel
  | .send q v => some (.send q v)
  | .recv q => some (.recv q number)
  | .tryRecv q => some (.tryRecv q)
  | .work => none

def next (t : Traffic) (a : Act) : Traffic :=
  let number := t.record.length
  match request? number a with
  | some op =>
    let (m, reply) := t.machine.operate op
    ⟨m, t.record ++ [⟨number, a, reply⟩]⟩
  | none => ⟨t.machine.step, t.record ++ [⟨number, a, .nothing⟩]⟩

def run (policy : Policy) (acts : List Act) : Traffic := acts.foldl next ⟨{ policy }, []⟩

lemma run_concat (policy : Policy) (acts : List Act) (a : Act) :
    run policy (acts ++ [a]) = (run policy acts).next a := by
  simp [run, List.foldl_append]

/-! ### What acts keep -/

variable {t : Traffic} {q r : QueueId}

lemma sent_of_record {t' : Traffic} {x : Record} (h : t'.record = t.record ++ [x])
    (q : QueueId) : t'.sent q = t.sent q ++ (x.sent? q).toList := by
  unfold sent
  rw [h, List.filterMap_append]
  cases hx : x.sent? q <;> simp [hx]

lemma draws_of_record {t' : Traffic} {x : Record} (h : t'.record = t.record ++ [x])
    (q : QueueId) : t'.draws q = t.draws q ++ (x.draw? q).toList := by
  unfold draws
  rw [h, List.filterMap_append]
  cases hx : x.draw? q <;> simp [hx]

lemma handed_of_record {t' : Traffic} {x : Record} (h : t'.record = t.record ++ [x]) :
    t'.handed = t.handed ++ x.handed := by
  simp [handed, h]

lemma unchanged_of_record {t' : Traffic} {x : Record} (h : t'.record = t.record ++ [x])
    (hx : x.sent? q = none ∧ x.draw? q = none) : t'.sent q = t.sent q ∧ t'.draws q = t.draws q := by
  rw [sent_of_record h, draws_of_record h, hx.1, hx.2]
  exact ⟨List.append_nil _, List.append_nil _⟩

lemma eq_number_of_draw? {x : Record} {n : Nat} (h : x.draw? q = some (.receipt n)) :
    n = x.number := by
  unfold Record.draw? at h
  split at h
  · split at h <;> simp_all
  · split at h <;> simp_all
  · cases h

lemma sent_send (t : Traffic) (q : QueueId) (v : Value) :
    (t.next (.send q v)).sent q = t.sent q ++ [v] := by
  rw [sent_of_record rfl]
  simp [Record.sent?]

lemma draws_send (t : Traffic) (q : QueueId) (v : Value) :
    (t.next (.send q v)).draws q = t.draws q :=
  (draws_of_record rfl q).trans (List.append_nil _)

lemma sent_recv (t : Traffic) (q : QueueId) : (t.next (.recv q)).sent q = t.sent q :=
  (sent_of_record rfl q).trans (List.append_nil _)

lemma draws_recv (t : Traffic) (q : QueueId) :
    (t.next (.recv q)).draws q = t.draws q ++ [.receipt t.record.length] := by
  rw [draws_of_record rfl]
  simp [Record.draw?]

lemma answers_resume (m : Machine) (v : Value) (n i : Nat) :
    (m.resume [.report n] (.ok v)).answers i = m.answers i ++ if n = i then [.ok v] else [] := by
  unfold Machine.answers Machine.resume
  rw [List.filterMap_append, ← List.append_assoc]
  by_cases h : n = i <;> simp [Job.answer?, h]

lemma obtained_resume {m : Machine} {v : Value} {n : Nat} {d : Draw} (h : d ≠ .receipt n) :
    d.obtained (m.resume [.report n] (.ok v)) = d.obtained m := by
  cases d with
  | taken w => rfl
  | receipt i =>
    have hne : n ≠ i := fun he => h (he ▸ rfl)
    exact (answers_resume m v n i).trans (by rw [if_neg hne, List.append_nil]; rfl)

lemma getElem?_concat {α : Type} {l : List α} {a : α} {k : Nat} (h : k ≠ l.length) :
    (l ++ [a])[k]? = l[k]? := by
  rcases Nat.lt_or_gt_of_ne h with hlt | hgt
  · exact List.getElem?_append_left hlt
  · rw [List.getElem?_eq_none (by simp; omega), List.getElem?_eq_none (by omega)]

/-- A receipt is one there was before, or that of the latest act. -/
lemma receipt_of_record {t' : Traffic} {x : Record} (hrec : t'.record = t.record ++ [x])
    {k n : Nat} (hk : (t'.draws q)[k]? = some (.receipt n)) :
    (t.draws q)[k]? = some (.receipt n) ∨
      x.draw? q = some (.receipt n) ∧ k = (t.draws q).length ∧ n = x.number := by
  rw [draws_of_record hrec] at hk
  cases hdraw : x.draw? q with
  | none =>
    rw [hdraw, Option.toList_none, List.append_nil] at hk
    exact .inl hk
  | some d =>
    rw [hdraw, Option.toList_some] at hk
    by_cases hlast : k = (t.draws q).length
    · subst hlast
      rw [List.getElem?_concat_length] at hk
      cases hk
      exact .inr ⟨rfl, rfl, eq_number_of_draw? hdraw⟩
    · rw [getElem?_concat hlast] at hk
      exact .inl hk

/-- A machine as it is under acts: all that is on its way are answers, every queue pairs what
was sent with what was drawn, and every draw has what it is due. -/
structure Sound (t : Traffic) : Prop where
  jobs : ∀ j ∈ t.machine.jobs, ∃ v n, j = ⟨.ok v, [.report n]⟩
  parked : t.machine.parked = []
  pairs : ∀ q, (t.machine.queue q).Pairs Draw.stack? (t.sent q) (t.draws q)
  obtained : ∀ (q : QueueId) (k : Nat) (d : Draw), (t.draws q)[k]? = some d →
    d.obtained t.machine = (t.sent q)[k]?.toList.map .ok
  numbered : ∀ (q : QueueId) (k n : Nat), (t.draws q)[k]? = some (.receipt n) →
    n < t.record.length
  unasked : ∀ n, t.record.length ≤ n → t.machine.answers n = []
  single : ∀ (q r : QueueId) (k l n : Nat), (t.draws q)[k]? = some (.receipt n) →
    (t.draws r)[l]? = some (.receipt n) → q = r ∧ k = l
  handed : t.handed = (List.range t.machine.allocated).map .allocated

lemma sound_fresh (policy : Policy) : (Traffic.mk { policy } []).Sound where
  jobs := by simp
  parked := rfl
  pairs q := ⟨rfl, rfl⟩
  obtained q k d h := by simp [draws] at h
  numbered q k n h := by simp [draws] at h
  unasked n _ := rfl
  single q r k l n h := by simp [draws] at h
  handed := rfl

namespace Sound

/-- An act on no queue, after which every queue and every answer is as before. -/
lemma same {t' : Traffic} {x : Record} (h : t.Sound) (hrec : t'.record = t.record ++ [x])
    (hx : ∀ q, x.sent? q = none ∧ x.draw? q = none)
    (hj : ∀ j ∈ t'.machine.jobs, ∃ v n, j = ⟨.ok v, [.report n]⟩)
    (hp : t'.machine.parked = []) (hq : ∀ q, t'.machine.queue q = t.machine.queue q)
    (ha : ∀ n, t'.machine.answers n = t.machine.answers n)
    (hh : t.handed ++ x.handed = (List.range t'.machine.allocated).map .allocated) :
    t'.Sound := by
  have hs : ∀ q, t'.sent q = t.sent q := fun q => (unchanged_of_record hrec (hx q)).1
  have hd : ∀ q, t'.draws q = t.draws q := fun q => (unchanged_of_record hrec (hx q)).2
  have hl : t'.record.length = t.record.length + 1 := by rw [hrec]; simp
  refine ⟨hj, hp, fun q => ?_, fun q k d hk => ?_, fun q k n hk => ?_, fun n hn => ?_,
    fun q r k l n hk hl => ?_, ?_⟩
  · rw [hq, hs, hd]
    exact h.pairs q
  · rw [hs, ← h.obtained q k d (hd q ▸ hk)]
    cases d with
    | receipt n => exact ha n
    | taken v => rfl
  · have := h.numbered q k n (hd q ▸ hk)
    omega
  · rw [ha]
    exact h.unasked n (by omega)
  · exact h.single q r k l n (hd q ▸ hk) (hd r ▸ hl)
  · rw [handed_of_record hrec]
    exact hh

lemma newQueue (h : t.Sound) : (t.next .newQueue).Sound := by
  have halloc : (t.next .newQueue).machine.allocated = t.machine.allocated + 1 := rfl
  refine h.same rfl (fun _ => ⟨rfl, rfl⟩) h.jobs h.parked (fun _ => rfl) (fun _ => rfl) ?_
  rw [halloc, h.handed, List.range_succ, List.map_append]
  rfl

lemma newChannel (h : t.Sound) : (t.next .newChannel).Sound := by
  have halloc : (t.next .newChannel).machine.allocated = t.machine.allocated + 2 := rfl
  refine h.same rfl (fun _ => ⟨rfl, rfl⟩) h.jobs h.parked (fun _ => rfl) (fun _ => rfl) ?_
  rw [halloc, h.handed, List.range_succ, List.range_succ, List.map_append, List.map_append,
    List.append_assoc]
  rfl

/-- A step of the machine reports an answer that was on its way. -/
lemma work (h : t.Sound) : (t.next .work).Sound := by
  have hhanded : ∀ n, n = t.machine.allocated →
      t.handed ++ [] = (List.range n).map .allocated := by
    rintro n rfl
    rw [List.append_nil, h.handed]
  cases hj : t.machine.jobs with
  | nil =>
    have hm : (t.next .work).machine = t.machine :=
      Machine.step_of_quiet (by simp [Machine.quiet, hj, h.parked])
    refine h.same rfl (fun _ => ⟨rfl, rfl⟩) ?_ ?_ ?_ ?_ (hhanded _ ?_)
    all_goals rw [hm]
    · exact h.jobs
    · exact h.parked
    · exact fun _ => rfl
    · exact fun _ => rfl
  | cons j rest =>
    obtain ⟨v, n, rfl⟩ := h.jobs j (hj ▸ List.mem_cons_self ..)
    have hm : (t.next .work).machine =
        ({ t.machine with jobs := rest } : Machine).report n (.ok v) := Machine.step_of_jobs hj
    refine h.same rfl (fun _ => ⟨rfl, rfl⟩) ?_ ?_ ?_ (fun i => ?_) (hhanded _ ?_)
    all_goals rw [hm]
    · exact fun i hi => h.jobs i (hj ▸ List.mem_cons_of_mem _ hi)
    · exact h.parked
    · exact fun _ => rfl
    · unfold Machine.answers
      rw [hj]
      -- an answer on its way becomes one that has been given
      by_cases hi : n = i <;> simp [Machine.report, Job.answer?, hi]
    · rfl

/-- An act on one queue: the others are left alone, and answers go to draws on this one. -/
lemma onQueue {t' : Traffic} {x : Record} (h : t.Sound) (hrec : t'.record = t.record ++ [x])
    (hnum : x.number = t.record.length) (hx : x.handed = []) (q : QueueId)
    (hother : ∀ r, r ≠ q → ¬ x.act.IsOn r)
    (hj : ∀ j ∈ t'.machine.jobs, ∃ v n, j = ⟨.ok v, [.report n]⟩)
    (hp : t'.machine.parked = []) (halloc : t'.machine.allocated = t.machine.allocated)
    (hq : ∀ r, r ≠ q → t'.machine.queue r = t.machine.queue r)
    (hpairs : (t'.machine.queue q).Pairs Draw.stack? (t'.sent q) (t'.draws q))
    (hob : ∀ (k : Nat) (d : Draw), (t'.draws q)[k]? = some d →
      d.obtained t'.machine = (t'.sent q)[k]?.toList.map .ok)
    (hans : ∀ n, (∀ k : Nat, (t'.draws q)[k]? ≠ some (.receipt n)) →
      t'.machine.answers n = t.machine.answers n) : t'.Sound := by
  have hl : t'.record.length = t.record.length + 1 := by rw [hrec]; simp
  have hne : ∀ r, r ≠ q → t'.sent r = t.sent r ∧ t'.draws r = t.draws r :=
    fun r hr => unchanged_of_record hrec (Record.apart (hother r hr))
  -- a receipt on the record is an old one, or the one that is made now
  have hold : ∀ (r : QueueId) (k n : Nat), (t'.draws r)[k]? = some (.receipt n) →
      (t.draws r)[k]? = some (.receipt n) ∨
        r = q ∧ k = (t.draws q).length ∧ n = t.record.length := by
    intro r k n hk
    rcases receipt_of_record hrec hk with hk | ⟨hdraw, hk, hn⟩
    · exact .inl hk
    · by_cases hr : r = q
      · subst hr
        exact .inr ⟨rfl, hk, hn.trans hnum⟩
      · rw [(Record.apart (hother r hr)).2] at hdraw
        cases hdraw
  have hnumbered : ∀ (r : QueueId) (k n : Nat), (t'.draws r)[k]? = some (.receipt n) →
      n < t'.record.length := by
    intro r k n hk
    rcases hold r k n hk with hk | ⟨-, -, rfl⟩
    -- an old receipt has a smaller number
    · have := h.numbered r k n hk
      omega
    · omega
  have hsingle : ∀ (r s : QueueId) (k l n : Nat), (t'.draws r)[k]? = some (.receipt n) →
      (t'.draws s)[l]? = some (.receipt n) → r = s ∧ k = l := by
    intro r s k l n hk hl
    rcases hold r k n hk with hk | ⟨hr, hk, hn⟩ <;> rcases hold s l n hl with hl | ⟨hs, hl, hn'⟩
    · exact h.single r s k l n hk hl
    · have := h.numbered r k n hk
      omega
    · have := h.numbered s l n hl
      omega
    · exact ⟨hr.trans hs.symm, hk.trans hl.symm⟩
  refine ⟨hj, hp, fun r => ?_, fun r k d hk => ?_, hnumbered, fun n hn => ?_, hsingle, ?_⟩
  · by_cases hr : r = q
    · exact hr ▸ hpairs
    · obtain ⟨hsent, hdraws⟩ := hne r hr
      rw [hq r hr, hsent, hdraws]
      exact h.pairs r
  · by_cases hr : r = q
    · subst hr
      exact hob k d hk
    · obtain ⟨hsent, hdraws⟩ := hne r hr
      rw [hsent, ← h.obtained r k d (hdraws ▸ hk)]
      cases d with
      | taken v => rfl
      | receipt n => exact hans n fun l hl => hr (hsingle r q k l n hk hl).1
  · rw [hans n fun k hk => by have := hnumbered q k n hk; omega]
    exact h.unasked n (by omega)
  · rw [handed_of_record hrec, hx, List.append_nil, halloc]
    exact h.handed

lemma jobs_resume (h : t.Sound) (v : Value) (n : Nat) :
    ∀ j ∈ t.machine.jobs ++ [⟨.ok v, [.report n]⟩], ∃ w i, j = (⟨.ok w, [.report i]⟩ : Job) := by
  intro j hj
  rcases List.mem_append.mp hj with hj | hj
  · exact h.jobs j hj
  · exact ⟨v, n, List.mem_singleton.mp hj⟩

/-- A value that nobody waits for is stored: every draw has had its value before. -/
lemma send_of_nil (h : t.Sound) {v : Value} (hw : (t.machine.queue q).waiting = []) :
    (t.next (.send q v)).Sound := by
  have hm : (t.next (.send q v)).machine = _ := Machine.send_of_nil v hw
  have hlen := (h.pairs q).length_waiting
  rw [hw, List.length_nil] at hlen
  refine h.onQueue rfl rfl rfl q (fun r hr => hr.symm) ?_ ?_ ?_ (fun r hr => ?_) ?_
    (fun k d hk => ?_) fun n _ => ?_
  all_goals rw [hm]
  · exact h.jobs
  · exact h.parked
  · rfl
  · exact Machine.queue_setQueue_of_ne _ _ hr
  · rw [Machine.queue_setQueue_self, sent_send, draws_send]
    exact (h.pairs q).store hw v
  · rw [draws_send] at hk
    have hlt := (List.getElem?_eq_some_iff.mp hk).1
    rw [sent_send, List.getElem?_append_left (by omega)]
    exact h.obtained q k d hk
  · rfl

/-- A value that is waited for goes to the draw whose turn it is. -/
lemma send_of_cons (h : t.Sound) {v : Value} {k : Stack} {rest : List Stack}
    (hw : (t.machine.queue q).waiting = k :: rest) : (t.next (.send q v)).Sound := by
  have hm : (t.next (.send q v)).machine = _ := Machine.send_of_cons v hw
  obtain ⟨hpairs, d, hd, hk⟩ := (h.pairs q).hand hw v
  cases d with
  | taken w => cases hk
  | receipt n =>
    cases hk
    refine h.onQueue rfl rfl rfl q (fun r hr => hr.symm) ?_ ?_ ?_ (fun r hr => ?_) ?_
      (fun l d hl => ?_) fun i hi => ?_
    all_goals rw [hm]
    · exact h.jobs_resume v n
    · exact h.parked
    · rfl
    · exact Machine.queue_setQueue_of_ne _ _ hr
    · rw [sent_send, draws_send]
      exact Machine.queue_setQueue_self t.machine .. ▸ hpairs
    · rw [draws_send] at hl
      -- this draw is the one whose turn it was, or it has what it had
      by_cases hlast : l = (t.sent q).length
      · subst hlast
        rw [hd] at hl
        cases hl
        have hnone := h.obtained q _ _ hd
        rw [List.getElem?_eq_none (Nat.le_refl _)] at hnone
        rw [sent_send, List.getElem?_concat_length]
        exact (answers_resume _ v n n).trans (by rw [if_pos rfl]; exact congrArg (· ++ _) hnone)
      · have hne : d ≠ .receipt n := by
          rintro rfl
          exact hlast (h.single q q l _ n hl hd).2
        rw [obtained_resume hne, sent_send, getElem?_concat hlast]
        exact h.obtained q l d hl
    · have hne : n ≠ i := fun he => hi (t.sent q).length (he ▸ draws_send t q v ▸ hd)
      rw [answers_resume, if_neg hne, List.append_nil]
      rfl

/-- A draw that takes the oldest value of a buffer has it at once. -/
lemma obtained_take {t' : Traffic} {x : Record} {v : Value} {rest : List Value} {d : Draw}
    (h : t.Sound) (hrec : t'.record = t.record ++ [x]) (hs : x.sent? q = none)
    (hd : x.draw? q = some d) (hb : (t.machine.queue q).buffer = v :: rest)
    (hnew : d.obtained t'.machine = [.ok v])
    (hold : ∀ (k : Nat) (e : Draw), (t.draws q)[k]? = some e →
      e.obtained t'.machine = e.obtained t.machine) (k : Nat) (e : Draw)
    (hk : (t'.draws q)[k]? = some e) :
    e.obtained t'.machine = (t'.sent q)[k]?.toList.map .ok := by
  rw [draws_of_record hrec, hd] at hk
  rw [sent_of_record hrec, hs, Option.toList_none, List.append_nil]
  by_cases hlast : k = (t.draws q).length
  · subst hlast
    rw [Option.toList_some, List.getElem?_concat_length] at hk
    cases hk
    rw [((h.pairs q).take hb d).2]
    exact hnew
  · rw [Option.toList_some, getElem?_concat hlast] at hk
    rw [hold k e hk]
    exact h.obtained q k e hk

/-- A draw on an empty buffer waits: nothing that was sent is left. -/
lemma recv_of_nil (h : t.Sound) (hb : (t.machine.queue q).buffer = []) :
    (t.next (.recv q)).Sound := by
  have hm : (t.next (.recv q)).machine = _ := Machine.recv_of_nil [.report t.record.length] hb
  obtain ⟨hpairs, hle⟩ := (h.pairs q).wait (d := .receipt t.record.length) hb rfl
  refine h.onQueue rfl rfl rfl q (fun r hr => hr.symm) ?_ ?_ ?_ (fun r hr => ?_) ?_
    (fun k d hk => ?_) fun n _ => ?_
  all_goals rw [hm]
  · exact h.jobs
  · exact h.parked
  · rfl
  · exact Machine.queue_setQueue_of_ne _ _ hr
  · rw [sent_recv, draws_recv]
    exact Machine.queue_setQueue_self t.machine .. ▸ hpairs
  · rw [draws_recv] at hk
    rw [sent_recv]
    by_cases hlast : k = (t.draws q).length
    · subst hlast
      rw [List.getElem?_concat_length] at hk
      cases hk
      rw [List.getElem?_eq_none hle]
      exact h.unasked _ (Nat.le_refl _)
    · rw [getElem?_concat hlast] at hk
      rw [← h.obtained q k d hk]
      cases d <;> rfl
  · rfl

lemma recv_of_cons (h : t.Sound) {v : Value} {rest : List Value}
    (hb : (t.machine.queue q).buffer = v :: rest) : (t.next (.recv q)).Sound := by
  have hm : (t.next (.recv q)).machine = _ := Machine.recv_of_cons [.report t.record.length] hb
  have hpairs := ((h.pairs q).take hb (.receipt t.record.length)).1
  have hfresh : ∀ (k : Nat) (e : Draw), (t.draws q)[k]? = some e →
      e ≠ .receipt t.record.length := by
    rintro k e hk rfl
    exact Nat.lt_irrefl _ (h.numbered q k _ hk)
  refine h.onQueue rfl rfl rfl q (fun r hr => hr.symm) ?_ ?_ ?_ (fun r hr => ?_) ?_
    (h.obtained_take rfl rfl (if_pos rfl) hb ?_ fun k e hk => ?_) fun n hn => ?_
  all_goals rw [hm]
  · exact h.jobs_resume v _
  · exact h.parked
  · rfl
  · exact Machine.queue_setQueue_of_ne _ _ hr
  · rw [sent_recv, draws_recv]
    exact Machine.queue_setQueue_self t.machine .. ▸ hpairs
  · refine (answers_resume _ v _ _).trans ?_
    rw [if_pos rfl]
    exact congrArg (· ++ _) (h.unasked _ (Nat.le_refl _))
  · rw [obtained_resume (hfresh k e hk)]
    cases e <;> rfl
  · have hne : t.record.length ≠ n := by
      rintro rfl
      exact hn (t.draws q).length (by rw [draws_recv, List.getElem?_concat_length])
    rw [answers_resume, if_neg hne, List.append_nil]
    rfl

lemma tryRecv (h : t.Sound) (q : QueueId) : (t.next (.tryRecv q)).Sound := by
  -- what is taken at once is a draw, and nothing taken is none
  cases hb : (t.machine.queue q).buffer with
  | nil =>
    have ht : t.next (.tryRecv q) = ⟨t.machine.setQueue q (t.machine.queue q),
        t.record ++ [⟨t.record.length, .tryRecv q, .value none⟩]⟩ := by
      simp [next, request?, Machine.operate, Machine.tryRecv, Queue.tryRecv, hb]
    rw [ht]
    refine h.same rfl (fun _ => ⟨rfl, rfl⟩) h.jobs h.parked (fun r => ?_) (fun _ => rfl) ?_
    · by_cases hr : r = q
      · rw [hr]
        exact Machine.queue_setQueue_self ..
      · exact Machine.queue_setQueue_of_ne _ _ hr
    · exact (List.append_nil _).trans h.handed
  | cons v rest =>
    have ht : t.next (.tryRecv q) =
        ⟨t.machine.setQueue q ⟨rest, (t.machine.queue q).waiting⟩,
          t.record ++ [⟨t.record.length, .tryRecv q, .value (some v)⟩]⟩ := by
      simp [next, request?, Machine.operate, Machine.tryRecv, Queue.tryRecv, hb]
    have hdraw : Record.draw? q ⟨t.record.length, .tryRecv q, .value (some v)⟩ =
        some (.taken v) := if_pos rfl
    have hpairs := ((h.pairs q).take hb (.taken v)).1
    rw [ht]
    refine h.onQueue rfl rfl rfl q (fun r hr => hr.symm) h.jobs h.parked rfl (fun r hr => ?_) ?_
      (h.obtained_take rfl rfl hdraw hb rfl fun k e hk => by cases e <;> rfl) fun _ _ => rfl
    · exact Machine.queue_setQueue_of_ne _ _ hr
    · have hsent : Record.sent? q ⟨t.record.length, .tryRecv q, .value (some v)⟩ = none := rfl
      rw [sent_of_record rfl, draws_of_record rfl, hsent, hdraw, Machine.queue_setQueue_self,
        Option.toList_none, List.append_nil]
      exact hpairs

/-- **Every act keeps a machine sound.** -/
theorem next (h : t.Sound) (a : Act) : (t.next a).Sound := by
  cases a with
  | newQueue => exact h.newQueue
  | newChannel => exact h.newChannel
  | send q v =>
    cases hw : (t.machine.queue q).waiting with
    | nil => exact h.send_of_nil hw
    | cons k rest => exact h.send_of_cons hw
  | recv q =>
    cases hb : (t.machine.queue q).buffer with
    | nil => exact h.recv_of_nil hb
    | cons v rest => exact h.recv_of_cons hb
  | tryRecv q => exact h.tryRecv q
  | work => exact h.work

end Sound

lemma Sound.foldl (h : t.Sound) (acts : List Act) : (acts.foldl Traffic.next t).Sound := by
  induction acts generalizing t with
  | nil => exact h
  | cons a acts ih => exact ih (h.next a)

lemma record_next (t : Traffic) (a : Act) :
    ∃ reply, (t.next a).record = t.record ++ [⟨t.record.length, a, reply⟩] := by
  cases a <;> exact ⟨_, rfl⟩

lemma next_of_not_isOn (t : Traffic) {a : Act} (h : ¬ a.IsOn q) :
    (t.next a).sent q = t.sent q ∧ (t.next a).draws q = t.draws q := by
  obtain ⟨reply, hrec⟩ := t.record_next a
  exact unchanged_of_record hrec (Record.apart h)

/-- **Queues lose, duplicate and reorder nothing.** Whatever was done to the queues of a
machine, the k-th draw on a queue has obtained the k-th value sent on it, or nothing as long as
fewer were sent; the buffer holds the values that nobody has drawn, in order, and as many wait
as there are draws ahead of the values. What is done to other queues changes nothing of this,
and every queue that was handed out is a new one. -/
theorem draws_obtain_what_is_sent (policy : Policy) (acts : List Act) (q : QueueId) :
    let t := run policy acts
    (∀ (k : Nat) (d : Draw), (t.draws q)[k]? = some d →
      d.obtained t.machine = (t.sent q)[k]?.toList.map .ok) ∧
    (t.machine.queue q).buffer = (t.sent q).drop (t.draws q).length ∧
    (t.machine.queue q).buffer.length = (t.sent q).length - (t.draws q).length ∧
    (t.machine.queue q).waiting.length = (t.draws q).length - (t.sent q).length ∧
    (∀ a : Act, ¬ a.IsOn q →
      let later := run policy (acts ++ [a])
      later.machine.queue q = t.machine.queue q ∧ later.sent q = t.sent q ∧
        later.draws q = t.draws q ∧
        ∀ d ∈ t.draws q, d.obtained later.machine = d.obtained t.machine) ∧
    t.handed.Nodup := by
  intro t
  have ht : t.Sound := (sound_fresh policy).foldl acts
  refine ⟨ht.obtained q, (ht.pairs q).buffer, (ht.pairs q).length_buffer,
    (ht.pairs q).length_waiting, fun a ha => ?_, ?_⟩
  · have hlater := ht.next a
    obtain ⟨hs, hd⟩ := t.next_of_not_isOn ha
    have hq := hlater.pairs q
    rw [hs, hd] at hq
    rw [run_concat]
    refine ⟨hq.unique (ht.pairs q), hs, hd, fun d hm => ?_⟩
    obtain ⟨k, hk⟩ := List.mem_iff_getElem?.mp hm
    have hold := ht.obtained q k d hk
    have hnew := hlater.obtained q k d (by rw [hd]; exact hk)
    rw [hs, ← hold] at hnew
    exact hnew
  · rw [ht.handed]
    exact List.nodup_range.map fun i j hij => QueueId.allocated.inj hij

end Traffic

end Parley
