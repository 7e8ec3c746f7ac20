import Parley.Proofs.Casting

/-!
Runs as they look without a schedule. A network depicts a machine if every process of the machine
is about what the network says of it, under names that do not depend on the schedule, and if what
is on its way on every queue is the same. A step of the machine is a move of the network, or none.

Numbers of queues and of tasks depend on the schedule, so a depiction comes with the names of the
queues and with the descents of the processes, both in the order in which the run has come to them.
It holds whatever a renaming does to queues that are not allocated yet; so it is enough that a name
is given to a queue when it is allocated.
-/

namespace Parley

variable {R : Translation} {N N' : Net} {m m' : Machine} {names names' : List Nat}
  {people : List Lineage} {p : Lineage} {e : Effect}

/-! ### Renamed processes -/

def Stance.under (R : Translation) : Stance → Stance
  | .unborn => .unborn
  | .going o k => .going (Outcome.under R o) (k.under R)
  | .asking on k => .asking (on.under R) (k.under R)
  | .ended o => .ended (Outcome.under R o)

lemma Sequel.stance_under (s : Sequel) (k : Stack) :
    (s.under R).stance (k.under R) = (s.stance k).under R := by
  cases s with
  | hand fs o =>
    cases o with
    | ok v => exact congrArg (Stance.going _) (Stack.under_append fs k).symm
    | error f => rfl
  | count fs => exact congrArg (Stance.going _) (Stack.under_append fs k).symm
  | receive on => rfl

def Frame.effectUnder (ρ : Nat → Nat) (tracing : Bool) (n : Nat) (p : Lineage) (f : Frame)
    (v : Value) (k : Stack) : Effect :=
  let act := (f.act? tracing v).map (Deed.under (.ofQueues ρ))
  let gist := (f.turn tracing n v).gist
  { stance := (gist.stance k).under (.ofQueues ρ)
    act
    marks := (act.map (Deed.marks p)).getD 0 + (gist.under (.ofQueues ρ)).marks p }

/-- **A renamed process makes the renamed move**, whether the machine is traced or not. -/
theorem Frame.effect_under {also : Expr → Prop} {i n c : Nat} {f : Frame} {v : Value}
    (hf : f.Obeys (.proper also) i) (hv : v.Obeys (.proper also) i) (tracing : Bool)
    {ρ : Nat → Nat} (k : Stack) (hn : ∀ env, f = .eval .channel env →
      ρ n = channelName p c ∧ ρ (n + 1) = channelName p c + 1) :
    (f.under (.ofQueues ρ)).effect p c (v.under (.ofQueues ρ)) (k.under (.ofQueues ρ)) =
      f.effectUnder ρ tracing n p v k := by
  have hgist := Frame.gist_turn_under (Translation.lawful_ofQueues ρ) f v hn
  unfold Frame.effectUnder
  rw [Frame.gist_turn hf hv tracing n, Frame.act?_untraced hf hv tracing]
  simp only [Frame.effect]
  rw [hgist, Frame.act?_under, Sequel.stance_under]

/-- Only a frame that has evaluated the channel asks for a value. -/
lemma Frame.receive_of_gist {tracing : Bool} {n : Nat} {f : Frame} {v : Value} {on : Endpoint}
    (h : (f.turn tracing n v).gist = .receive on) : f = .receive ∧ v = .channel on := by
  have hexcept : ∀ {α : Type} {r : Except Fault α} {next : α → Turn},
      (∀ a, (next a).gist ≠ .receive on) → (Turn.ofExcept r next).gist ≠ .receive on := by
    intro α r next hnext
    cases r with
    | ok a => exact hnext a
    | error f => exact Sequel.noConfusion
  have hnoting : ∀ {w : Value} {d : Deed} {t : Turn}, t.gist ≠ .receive on →
      (Turn.noting tracing w d t).gist ≠ .receive on := by
    intro w d t ht
    unfold Turn.noting
    split
    · exact ht
    · exact Sequel.noConfusion
  cases f with
  | receive =>
    cases v with
    | channel e => cases h; exact ⟨rfl, rfl⟩
    | _ => cases h
  | eval e env =>
    exfalso
    -- an evaluation starts a part or has its value, whether or not it is noted
    have hparts : (e.partsTurn tracing n env).gist ≠ .receive on := by
      cases e with
      | int l | nat l =>
        simp only [Expr.partsTurn]
        cases l.toInt with
        | ok i => simp
        | error f => exact Sequel.noConfusion
      | var name =>
        simp only [Expr.partsTurn]
        split
        · next g _ =>
          rw [Call.gist_refer]
          cases g.call env <;> exact Sequel.noConfusion
        · simp
        · exact Sequel.noConfusion
      | unit | label | lambda | fork | channel => simp [Expr.partsTurn]
      | _ => exact Sequel.noConfusion
    revert h
    simp only [turn, Expr.turn]
    split
    · exact hparts
    · exact hparts
    · split
      · exact Sequel.noConfusion
      · exact hparts
  | call arg =>
    exfalso
    revert h
    cases v with
    | function param more body env =>
      cases param with
      | none => exact Sequel.noConfusion
      | some param => cases more <;> exact Sequel.noConfusion
    | sender on' => exact hnoting Sequel.noConfusion
    | _ => exact Sequel.noConfusion
  | leave | received => exact absurd h (hnoting Sequel.noConfusion)
  | leftOperand | letPairBody | takeFirst | takeSecond | makeSender =>
    exact absurd h (hexcept fun _ => Sequel.noConfusion)
  | rightOperand => exact absurd h (hexcept fun _ => hexcept fun _ => Sequel.noConfusion)
  | branch bs rest env =>
    refine absurd h (hexcept fun name => ?_)
    split <;> exact Sequel.noConfusion
  | recursionIndex r =>
    refine absurd h (hexcept fun i => ?_)
    split <;> exact Sequel.noConfusion
  | recursionRound r i upTo =>
    revert h
    simp only [turn]
    split <;> exact Sequel.noConfusion
  | _ => cases h

/-! ### Names of queues -/

/-- The renamings that give the first queues the names on a list, and no two queues one name. -/
structure Reads (names : List Nat) (ρ : Nat → Nat) : Prop where
  injective : Function.Injective ρ
  agrees : ∀ i x, names[i]? = some x → ρ i = x

lemma Reads.of_append {more : List Nat} {ρ : Nat → Nat} (h : Reads (names ++ more) ρ) :
    Reads names ρ := by
  refine ⟨h.injective, fun i x hx => h.agrees i x ?_⟩
  have hi : i < names.length := (List.getElem?_eq_some_iff.mp hx).1
  rw [List.getElem?_append_left hi, hx]

/-- There are such renamings, if no name is on the list twice. -/
lemma exists_reads (h : names.Nodup) : ∃ ρ, Reads names ρ := by
  -- queues that are not on the list get numbers beyond all names
  refine ⟨fun i => (names[i]?).getD (names.sum + 1 + i), fun i j hij => ?_, fun i x hx => ?_⟩
  · have hle : ∀ {i x}, names[i]? = some x → x ≤ names.sum := fun hx =>
      List.single_le_sum (by simp) _ (List.mem_of_getElem? hx)
    cases hi : names[i]? with
    | none =>
      cases hj : names[j]? with
      | none =>
        rw [hi, hj] at hij
        simp only [Option.getD_none] at hij
        omega
      | some y =>
        have := hle hj
        rw [hi, hj] at hij
        simp only [Option.getD_none, Option.getD_some] at hij
        omega
    | some x =>
      cases hj : names[j]? with
      | none =>
        have := hle hi
        rw [hi, hj] at hij
        simp only [Option.getD_none, Option.getD_some] at hij
        omega
      | some y =>
        rw [hi, hj] at hij
        obtain rfl : x = y := hij
        exact (List.getElem?_inj (List.getElem?_eq_some_iff.mp hi).1 h).mp (hi.trans hj.symm)
  · simp [hx]

def Effect.newNames (p : Lineage) (c : Nat) (e : Effect) : List Nat :=
  if e.opens then [channelName p c, channelName p c + 1] else []

/-- The names on a list are those of all channels that the processes of a network have opened. -/
structure Named (names : List Nat) (N : Net) : Prop where
  nodup : names.Nodup
  mem : ∀ x, x ∈ names ↔ ∃ p c i, c < (N.member p).channels ∧ i < 2 ∧ x = channelName p c + i

lemma Net.channels_commit (N : Net) (p : Lineage) (e : Effect) (l : Lineage) :
    ((N.commit p e).member l).channels =
      (N.member l).channels + if l = p then e.opens.toNat else 0 := by
  by_cases hl : l = p
  · subst hl
    rw [member_commit_self, if_pos rfl]
  · rw [if_neg hl]
    rcases member_commit_cases N p e hl with heq | ⟨k, -, -, heq⟩ <;> rw [heq] <;> rfl

lemma Named.commit (h : Named names N) (p : Lineage) (e : Effect) :
    Named (names ++ e.newNames p (N.member p).channels) (N.commit p e) := by
  have hnew : ∀ x, x ∈ e.newNames p (N.member p).channels ↔
      e.opens = true ∧ ∃ i < 2, x = channelName p (N.member p).channels + i := by
    intro x
    unfold Effect.newNames
    cases e.opens with
    | false => simp
    | true =>
      simp only [if_true, List.mem_cons, List.not_mem_nil, or_false, true_and]
      constructor
      · rintro (rfl | rfl)
        · exact ⟨0, by omega, rfl⟩
        · exact ⟨1, by omega, rfl⟩
      · rintro ⟨i, hi, rfl⟩
        have hcases : i = 0 ∨ i = 1 := by omega
        rcases hcases with rfl | rfl
        · exact .inl rfl
        · exact .inr rfl
  refine ⟨?_, fun x => ?_⟩
  · rw [List.nodup_append]
    refine ⟨h.nodup, ?_, fun x hx y hy heq => ?_⟩
    · unfold Effect.newNames
      split <;> simp
    · obtain ⟨q, c, i, hc, hi, rfl⟩ := (h.mem x).mp hx
      obtain ⟨-, j, hj, rfl⟩ := (hnew y).mp hy
      obtain ⟨rfl, rfl, -⟩ := channelName_inj hi hj heq
      exact absurd hc (lt_irrefl _)
  · rw [List.mem_append, h.mem, hnew]
    constructor
    · rintro (⟨q, c, i, hc, hi, rfl⟩ | ⟨hopens, i, hi, rfl⟩)
      · refine ⟨q, c, i, ?_, hi, rfl⟩
        rw [Net.channels_commit]
        omega
      · refine ⟨p, _, i, ?_, hi, rfl⟩
        rw [Net.channels_commit, if_pos rfl, hopens]
        exact Nat.lt_succ_self _
    · rintro ⟨q, c, i, hc, hi, rfl⟩
      rw [Net.channels_commit] at hc
      -- an old channel, or the one that the move opens
      by_cases hold : c < (N.member q).channels
      · exact .inl ⟨q, c, i, hold, hi, rfl⟩
      · split at hc
        · next heq =>
          subst heq
          cases hopens : e.opens with
          | false =>
            rw [hopens] at hc
            exact absurd hc hold
          | true =>
            rw [hopens] at hc
            have hlast : c = (N.member q).channels := by
              simp only [Bool.toNat_true] at hc
              omega
            subst hlast
            exact .inr ⟨rfl, i, hi, rfl⟩
        · exact absurd hc hold

/-! ### Processes -/

/-- From one machine to the next the process with number `i` goes on or ends, and a task with number
`n` may begin: what they are about then is `after` and `child`. -/
def Machine.Shifts (m m' : Machine) (i n : Nat) (after child : Option Stance) : Prop :=
  ∃ s rest, m.stances = {(i, s)} + rest ∧
    m'.stances = (after.map (Prod.mk i)).toList + ((child.map (Prod.mk n)).toList + rest)

section Shifts

variable {i n : Nat} {after child : Option Stance}

lemma Machine.Shifts.mem_iff (h : m.Shifts m' i n after child) (hm : (m.stances.map (·.1)).Nodup)
    (x : Nat × Stance) : x ∈ m'.stances ↔ (∃ s ∈ after, (i, s) = x) ∨
      (∃ s ∈ child, (n, s) = x) ∨ x ∈ m.stances ∧ x.1 ≠ i := by
  obtain ⟨s, rest, hbefore, hafter⟩ := h
  rw [hbefore, Multiset.map_add, Multiset.map_singleton, Multiset.singleton_add,
    Multiset.nodup_cons] at hm
  have hrest : x ∈ rest ↔ x ∈ m.stances ∧ x.1 ≠ i := by
    rw [hbefore, Multiset.mem_add, Multiset.mem_singleton]
    constructor
    · exact fun hx => ⟨.inr hx, fun heq => hm.1 (Multiset.mem_map.mpr ⟨x, hx, heq⟩)⟩
    · rintro ⟨rfl | hx, hne⟩
      · exact absurd rfl hne
      · exact hx
  rw [hafter]
  simp only [Multiset.mem_add, Multiset.mem_coe, Option.mem_toList, Option.mem_def,
    Option.map_eq_some_iff, hrest]

lemma Machine.Shifts.nodup (h : m.Shifts m' i n after child) (hm : (m.stances.map (·.1)).Nodup)
    (hn : ∀ x ∈ m.stances, x.1 ≠ n) : (m'.stances.map (·.1)).Nodup := by
  obtain ⟨s, rest, hbefore, hafter⟩ := h
  rw [hbefore] at hm hn
  have hin : i ≠ n := hn (i, s) (by simp)
  have hfar : n ∉ rest.map (·.1) := by
    intro hmem
    obtain ⟨x, hx, heq⟩ := Multiset.mem_map.mp hmem
    exact hn x (Multiset.mem_add.mpr (.inr hx)) heq
  rw [Multiset.map_add, Multiset.map_singleton, Multiset.singleton_add, Multiset.nodup_cons] at hm
  rw [hafter]
  cases after <;> cases child <;> simp_all [Multiset.nodup_cons, hin.symm]

end Shifts

/-- What the process of a move is about after it is `after`, or it has ended; and what a task that
it forks is about is `child`. -/
structure Effect.Seen (names : List Nat) (e : Effect) (after child : Option Stance) : Prop where
  goes : ∀ s ∈ after, ∀ ρ, Reads names ρ → e.stance = s.under (.ofQueues ρ)
  ends : after = none → ∃ o, e.stance = .ended o
  forks : child.isSome = e.child?.isSome
  child : ∀ s ∈ child, ∀ k ∈ e.child?, ∀ ρ, Reads names ρ →
    s.under (.ofQueues ρ) = .going (.ok .unit) k

/-- The network speaks of the processes of a machine: the list has their descents, in the order in
which they were started, the main process first. -/
structure Peopled (names : List Nat) (people : List Lineage) (m : Machine) (N : Net) : Prop where
  nodup : people.Nodup
  length : people.length = m.tasks.started + 1
  main : people[0]? = some []
  born : ∀ p, p ∈ people ↔ (N.member p).stance ≠ .unborn
  owners : (m.stances.map (·.1)).Nodup
  /-- Every process of the machine is about what the network says. -/
  about : ∀ x ∈ m.stances, ∃ p, people[x.1]? = some p ∧
    ∀ ρ, Reads names ρ → (N.member p).stance = x.2.under (.ofQueues ρ)
  /-- A process that is not in the machine any more has ended. -/
  gone : ∀ p ∈ people, (∃ o, (N.member p).stance = .ended o) ∨
    ∃ x ∈ m.stances, people[x.1]? = some p
  outcome : ∀ o, m.outcome? 0 = some o →
    ∀ ρ, Reads names ρ → (N.member []).stance = .ended (Outcome.under (.ofQueues ρ) o)

def Effect.newPeople (p : Lineage) (c : Nat) (e : Effect) : List Lineage :=
  e.child?.toList.map fun _ => c :: p

lemma Effect.mem_newPeople {c : Nat} {q : Lineage} :
    q ∈ e.newPeople p c ↔ e.child?.isSome = true ∧ q = c :: p := by
  unfold newPeople
  cases e.child? <;> simp

lemma Net.stance_newborn (N : Net) {k : Stack} (hk : e.child? = some k) :
    ((N.commit p e).member ((N.member p).children :: p)).stance = .going (.ok .unit) k := by
  rw [member_commit_eq N e (by simp), hk]
  simp only [if_true]

/-- Who is there after a move: whoever was, and whom the move forks. -/
lemma Net.born_commit (he : N.effect? p = some e) (q : Lineage) :
    ((N.commit p e).member q).stance ≠ .unborn ↔
      (N.member q).stance ≠ .unborn ∨ q ∈ e.newPeople p (N.member p).children := by
  rw [Effect.mem_newPeople]
  by_cases hq : q = p
  · subst hq
    rw [member_commit_self]
    exact ⟨fun _ => .inl (born_of_effect? he), fun _ => stance_of_effect? he⟩
  · by_cases hchild : e.child?.isSome = true ∧ q = (N.member p).children :: p
    · obtain ⟨hsome, rfl⟩ := hchild
      obtain ⟨k, hk⟩ := Option.isSome_iff_exists.mp hsome
      rw [stance_newborn N hk]
      exact ⟨fun _ => .inr ⟨hsome, rfl⟩, fun _ => Stance.noConfusion⟩
    · rcases member_commit_cases N p e hq with heq | ⟨k, hk, rfl, -⟩
      · rw [heq]
        exact ⟨.inl, fun h => h.resolve_right hchild⟩
      · exact absurd ⟨by rw [hk]; rfl, rfl⟩ hchild

namespace Peopled

lemma idle (h : Peopled names people m N) (hs : m'.stances = m.stances)
    (ht : m'.tasks.started = m.tasks.started) (ho : m'.outcome? 0 = m.outcome? 0) :
    Peopled names people m' N where
  nodup := h.nodup
  length := ht ▸ h.length
  main := h.main
  born := h.born
  owners := hs ▸ h.owners
  about := hs ▸ h.about
  gone := hs ▸ h.gone
  outcome := ho ▸ h.outcome

/-- A process by its number is known by its descent, and the other way round. -/
lemma index_inj (h : Peopled names people m N) {i j : Nat} (hi : people[i]? = some p)
    (hj : people[j]? = some p) : i = j :=
  (List.getElem?_inj (List.getElem?_eq_some_iff.mp hi).1 h.nodup).mp (hi.trans hj.symm)

lemma lt_length (h : Peopled names people m N) {x : Nat × Stance} (hx : x ∈ m.stances) :
    x.1 < people.length := by
  obtain ⟨p, hp, -⟩ := h.about x hx
  exact (List.getElem?_eq_some_iff.mp hp).1

section Commit

variable {i : Nat} {after child : Option Stance}

lemma getElem?_newPeople {j : Nat} {q : Lineage} (hj : people[j]? = some q) :
    (people ++ e.newPeople p (N.member p).children)[j]? = some q := by
  rw [List.getElem?_append_left (List.getElem?_eq_some_iff.mp hj).1, hj]

lemma member_of_ne (h : Peopled names people m N) (hN : N.Sound) {q : Lineage} (hq : q ∈ people)
    (hne : q ≠ p) : (N.commit p e).member q = N.member q :=
  hN.member_commit ((h.born q).mp hq) hne

/-- After a move the network says of everybody what they are about. -/
lemma about_commit (h : Peopled names people m N) (hN : N.Sound) (hi : people[i]? = some p)
    (hread : ∀ ρ, Reads names' ρ → Reads names ρ)
    (hshifts : m.Shifts m' i people.length after child) (hseen : e.Seen names' after child)
    {x : Nat × Stance} (hx : x ∈ m'.stances) :
    ∃ q, (people ++ e.newPeople p (N.member p).children)[x.1]? = some q ∧
      ∀ ρ, Reads names' ρ → ((N.commit p e).member q).stance = x.2.under (.ofQueues ρ) := by
  rcases (hshifts.mem_iff h.owners x).mp hx with ⟨s, hs, rfl⟩ | ⟨s, hs, rfl⟩ | ⟨hx, hne⟩
  · refine ⟨p, getElem?_newPeople hi, fun ρ hρ => ?_⟩
    rw [Net.member_commit_self]
    exact hseen.goes s hs ρ hρ
  · have hsome : e.child?.isSome = true := hseen.forks ▸ Option.isSome_of_mem hs
    obtain ⟨k, hk⟩ := Option.isSome_iff_exists.mp hsome
    refine ⟨(N.member p).children :: p, ?_, fun ρ hρ => ?_⟩
    · simp [Effect.newPeople, hk]
    · rw [Net.stance_newborn N hk, hseen.child s hs k hk ρ hρ]
  · obtain ⟨q, hq, hstance⟩ := h.about x hx
    have hqp : q ≠ p := fun heq => hne (h.index_inj (heq ▸ hq) hi)
    refine ⟨q, getElem?_newPeople hq, fun ρ hρ => ?_⟩
    rw [h.member_of_ne hN (List.mem_of_getElem? hq) hqp]
    exact hstance ρ (hread ρ hρ)

/-- After a move whoever is not in the machine has ended. -/
lemma gone_commit (h : Peopled names people m N) (hN : N.Sound) (hi : people[i]? = some p)
    (hshifts : m.Shifts m' i people.length after child) (hseen : e.Seen names' after child)
    {q : Lineage} (hq : q ∈ people ++ e.newPeople p (N.member p).children) :
    (∃ o, ((N.commit p e).member q).stance = .ended o) ∨
      ∃ x ∈ m'.stances, (people ++ e.newPeople p (N.member p).children)[x.1]? = some q := by
  have hmem := hshifts.mem_iff h.owners
  rcases List.mem_append.mp hq with hq | hq
  · by_cases hqp : q = p
    · subst hqp
      rw [Net.member_commit_self]
      cases hcase : after with
      | none => exact .inl (hseen.ends hcase)
      | some s => exact .inr ⟨(i, s), (hmem _).mpr (.inl ⟨s, hcase, rfl⟩), getElem?_newPeople hi⟩
    · rw [h.member_of_ne hN hq hqp]
      refine (h.gone q hq).imp_right fun ⟨x, hx, hxq⟩ => ⟨x, ?_, getElem?_newPeople hxq⟩
      refine (hmem x).mpr (.inr (.inr ⟨hx, fun heq => hqp ?_⟩))
      rw [heq, hi] at hxq
      exact (Option.some.inj hxq).symm
  · obtain ⟨hsome, rfl⟩ := Effect.mem_newPeople.mp hq
    obtain ⟨k, hk⟩ := Option.isSome_iff_exists.mp hsome
    rw [← hseen.forks] at hsome
    obtain ⟨s, hs⟩ := Option.isSome_iff_exists.mp hsome
    refine .inr ⟨(people.length, s), (hmem _).mpr (.inr (.inl ⟨s, hs, rfl⟩)), ?_⟩
    simp [Effect.newPeople, hk]

/-- **A move of a process**, in the machine and in the network. -/
theorem commit (h : Peopled names people m N) (hN : N.Sound) (he : N.effect? p = some e)
    (hi : people[i]? = some p) (hread : ∀ ρ, Reads names' ρ → Reads names ρ)
    (hshifts : m.Shifts m' i people.length after child) (hseen : e.Seen names' after child)
    (hstarted : m'.tasks.started = m.tasks.started + child.toList.length)
    (houtcome : ∀ o, m'.outcome? 0 = some o → m.outcome? 0 = some o ∨
      p = [] ∧ ∀ ρ, Reads names' ρ → e.stance = .ended (Outcome.under (.ofQueues ρ) o)) :
    Peopled names' (people ++ e.newPeople p (N.member p).children) m' (N.commit p e) where
  nodup := by
    have hfresh : (N.member p).children :: p ∉ people := fun hin =>
      (h.born _).mp hin (hN.fresh p _ le_rfl)
    rw [List.nodup_append]
    refine ⟨h.nodup, ?_, fun q hq r hr heq => hfresh ?_⟩
    · unfold Effect.newPeople
      cases e.child? <;> simp
    · rw [← (Effect.mem_newPeople.mp hr).2, ← heq]
      exact hq
  length := by
    have hcount : e.child?.toList.length = child.toList.length := by
      have hforks := hseen.forks
      cases hc : e.child? <;> cases hc' : child <;> simp_all
    rw [List.length_append, h.length, hstarted, Effect.newPeople, List.length_map, hcount]
    omega
  main := getElem?_newPeople h.main
  born q := by rw [List.mem_append, h.born, Net.born_commit he]
  owners := hshifts.nodup h.owners fun x hx => (h.lt_length hx).ne
  about x hx := h.about_commit hN hi hread hshifts hseen hx
  gone q hq := h.gone_commit hN hi hshifts hseen hq
  outcome o ho ρ hρ := by
    rcases houtcome o ho with hbefore | ⟨rfl, hstance⟩
    -- who has ended does not move
    · have hended := h.outcome o hbefore ρ (hread ρ hρ)
      have hne : [] ≠ p := fun heq => Net.not_ended_of_effect? he _ (heq ▸ hended)
      rw [h.member_of_ne hN (List.mem_of_getElem? h.main) hne]
      exact hended
    · rw [Net.member_commit_self]
      exact hstance ρ hρ

end Commit

end Peopled

/-! ### Queues and counts -/

/-- A use of a queue in a machine: at which end, which queue, and by whom. -/
abbrev Use := Side × QueueId × Frame

/-- What is on its way on a queue is what the network says. -/
def Laned (names : List Nat) (m : Machine) (N : Net) : Prop :=
  ∀ ρ, Reads names ρ → ∀ q : QueueId,
    N.lane (q.under (.ofQueues ρ)) = (m.content q).map (Value.under (.ofQueues ρ))

/-- What the network remembers has happened: so many steps, so many failures, and only the uses of
queues on the list. -/
structure Counted (names : List Nat) (people : List Lineage) (uses : List Use) (failed : Nat)
    (m : Machine) (N : Net) : Prop where
  steps : N.marks.count .step = m.steps
  failed : N.marks.count .failure = failed
  uses : ∀ side x p, .use side x p ∈ N.marks → ∃ q b, (side, q, b) ∈ uses ∧
    people[b.owner]? = some p ∧ ∀ ρ, Reads names ρ → q.under (.ofQueues ρ) = x

lemma QueueId.under_injective {ρ : Nat → Nat} (hρ : Function.Injective ρ) :
    Function.Injective (QueueId.under (.ofQueues ρ)) := by
  intro q r h
  cases q with
  | allocated i =>
    cases r with
    | allocated j => exact congrArg allocated (hρ (QueueId.allocated.inj h))
    | outside => cases h
  | outside =>
    cases r with
    | allocated => cases h
    | outside => exact h

lemma Counted.commit {uses uses' : List Use} {failed failed' : Nat} {people' : List Lineage}
    (h : Counted names people uses failed m N)
    (hread : ∀ ρ, Reads names' ρ → Reads names ρ)
    (hold : ∀ (i : Nat) (q : Lineage), people[i]? = some q → people'[i]? = some q)
    (hsteps : m'.steps = m.steps + e.marks.count .step)
    (hfailed : failed' = failed + e.marks.count .failure) (hsub : uses ⊆ uses')
    (huses : ∀ side x q, .use side x q ∈ e.marks → q = p ∧ ∃ r b, (side, r, b) ∈ uses' ∧
      people[b.owner]? = some p ∧ ∀ ρ, Reads names' ρ → r.under (.ofQueues ρ) = x) :
    Counted names' people' uses' failed' m' (N.commit p e) := by
  have hmarks : (N.commit p e).marks = N.marks + e.marks := rfl
  refine ⟨?_, ?_, fun side x q hin => ?_⟩
  · rw [hmarks, Multiset.count_add, h.steps, hsteps]
  · rw [hmarks, Multiset.count_add, h.failed, hfailed]
  · rw [hmarks] at hin
    rcases Multiset.mem_add.mp hin with hin | hin
    · obtain ⟨r, b, huse, hb, hx⟩ := h.uses side x q hin
      exact ⟨r, b, hsub huse, hold _ _ hb, fun ρ hρ => hx ρ (hread ρ hρ)⟩
    · obtain ⟨rfl, r, b, huse, hb, hx⟩ := huses side x q hin
      exact ⟨r, b, huse, hold _ _ hb, hx⟩

section Deeds

variable (d : Deed)

lemma Deed.child?_under : (d.under R).child? = d.child?.map (Stack.under R) := by cases d <;> rfl

lemma Deed.opens_under : (d.under R).opens = d.opens := by cases d <;> rfl

lemma Deed.put_under {ρ : Nat → Nat} (hρ : Function.Injective ρ) (q : QueueId) :
    (d.under (.ofQueues ρ)).put (q.under (.ofQueues ρ)) =
      (d.put q).map (Value.under (.ofQueues ρ)) := by
  cases d with
  | send on v =>
    have hiff : (on.under (.ofQueues ρ)).write = q.under (.ofQueues ρ) ↔ on.write = q :=
      (QueueId.under_injective hρ).eq_iff
    simp only [under, put, hiff]
    split <;> rfl
  | _ => rfl

lemma Deed.count_marks_step : (d.marks p).count .step = d.checks := by
  cases d <;> simp [marks, checks]

lemma Deed.count_marks_failure : (d.marks p).count .failure = 0 := by
  cases d <;> simp [marks]

end Deeds

lemma Sequel.count_marks_step (s : Sequel) : (s.marks p).count .step = s.checks := by
  cases s <;> simp [marks, checks]

lemma Sequel.count_marks_failure (s : Sequel) : (s.marks p).count .failure = 0 := by
  cases s <;> simp [marks]

lemma Sequel.checks_core (s : Sequel) : s.core.checks = s.checks := by cases s <;> rfl

lemma Sequel.checks_under (s : Sequel) : (s.under R).checks = s.checks := by cases s <;> rfl

/-- The queue that the next move uses: a send counts when the sender is applied, and a receive when
it is asked for. -/
def Machine.using? (m : Machine) : Option Use :=
  match m.jobs with
  | ⟨.ok (.sender on), .call _ :: k⟩ :: _ => some (.write, on.write, Stack.bottom k)
  | ⟨.ok (.channel on), .receive :: k⟩ :: _ => some (.read, on.read, Stack.bottom k)
  | _ => none

lemma Frame.send_of_act? {tracing : Bool} {f : Frame} {v w : Value} {on : Endpoint}
    (h : f.act? tracing v = some (.send on w)) : f = .call w ∧ v = .sender on := by
  cases f with
  | eval e env => cases e <;> cases h
  | call arg =>
    cases v with
    | sender on' =>
      simp only [act?] at h
      split at h <;> cases h
      exact ⟨rfl, rfl⟩
    | _ => cases h
  | _ => cases h

section Moves

variable {tracing : Bool} {n : Nat} {f : Frame} {v : Value} {k : Stack} {ρ : Nat → Nat}

lemma Frame.child?_effectUnder : (f.effectUnder ρ tracing n p v k).child? =
    ((f.act? tracing v).bind Deed.child?).map (Stack.under (.ofQueues ρ)) := by
  unfold Effect.child? effectUnder
  cases f.act? tracing v with
  | none => rfl
  | some d => exact d.child?_under

lemma Frame.opens_effectUnder : (f.effectUnder ρ tracing n p v k).opens =
    ((f.act? tracing v).map Deed.opens).getD false := by
  unfold Effect.opens effectUnder
  cases f.act? tracing v with
  | none => rfl
  | some d => exact d.opens_under

lemma Frame.put_effectUnder (hρ : Function.Injective ρ) (q : QueueId) :
    (f.effectUnder ρ tracing n p v k).put (q.under (.ofQueues ρ)) =
      (((f.act? tracing v).map (Deed.put q)).getD []).map (Value.under (.ofQueues ρ)) := by
  unfold Effect.put effectUnder
  cases f.act? tracing v with
  | none => rfl
  | some d => exact d.put_under hρ q

lemma Frame.steps_effectUnder : (f.effectUnder ρ tracing n p v k).marks.count .step =
    ((f.act? tracing v).map Deed.checks).getD 0 + (f.turn tracing n v).sequel.checks := by
  have hgist : (f.turn tracing n v).gist.checks = (f.turn tracing n v).sequel.checks :=
    Sequel.checks_core _
  simp only [effectUnder, Multiset.count_add, Sequel.count_marks_step, Sequel.checks_under, hgist]
  congr 1
  cases f.act? tracing v with
  | none => rfl
  | some d =>
    simp only [Option.map_some, Option.getD_some, Deed.count_marks_step]
    cases d <;> rfl

lemma Frame.failures_effectUnder :
    (f.effectUnder ρ tracing n p v k).marks.count .failure = 0 := by
  simp only [effectUnder, Multiset.count_add, Sequel.count_marks_failure]
  cases f.act? tracing v with
  | none => rfl
  | some d => simp only [Option.map_some, Option.getD_some, Deed.count_marks_failure]

lemma Frame.uses_effectUnder {rest : List Job} (hj : m.jobs = ⟨.ok v, f :: k⟩ :: rest)
    {side : Side} {x : QueueId} {q : Lineage} {l : Stack}
    (h : .use side x q ∈ (f.effectUnder ρ tracing n p v l).marks) :
    q = p ∧ ∃ r, m.using? = some (side, r, k.bottom) ∧ r.under (.ofQueues ρ) = x := by
  simp only [effectUnder] at h
  rcases Multiset.mem_add.mp h with h | h
  · cases hact : f.act? tracing v with
    | none => simp [hact] at h
    | some d =>
      cases d with
      | send on w =>
        obtain ⟨rfl, rfl⟩ := Frame.send_of_act? hact
        simp only [hact, Option.map_some, Option.getD_some, Deed.under, Deed.marks,
          Multiset.mem_singleton] at h
        cases h
        exact ⟨rfl, on.write, by simp only [Machine.using?, hj], rfl⟩
      | _ => simp [hact, Deed.under, Deed.marks] at h
  · cases hgist : (f.turn tracing n v).gist with
    | receive on =>
      obtain ⟨rfl, rfl⟩ := Frame.receive_of_gist hgist
      rw [hgist] at h
      cases Multiset.mem_singleton.mp h
      exact ⟨rfl, on.read, by simp only [Machine.using?, hj], rfl⟩
    | _ => simp [hgist, Sequel.under, Sequel.marks] at h

/-- The move of a process that is handed a value. Which one it is does not depend on the names of
queues that are not allocated yet. -/
lemma Net.effect?_of_going {also : Expr → Prop} {i : Nat} (hf : f.Obeys (.proper also) i)
    (hv : v.Obeys (.proper also) i) (tracing : Bool) (hnames : names.Nodup)
    (hlength : names.length = n)
    (hstance : ∀ ρ, Reads names ρ →
      (N.member p).stance = (Stance.going (.ok v) (f :: k)).under (.ofQueues ρ)) :
    ∃ e, N.effect? p = some e ∧ ∀ ρ, Reads (names ++ e.newNames p (N.member p).channels) ρ →
      e = f.effectUnder ρ tracing n p v k := by
  have heffect : ∀ ρ, Reads names ρ → N.effect? p = some ((f.under (.ofQueues ρ)).effect p
      (N.member p).channels (v.under (.ofQueues ρ)) (k.under (.ofQueues ρ))) := by
    intro ρ hρ
    have hs := hstance ρ hρ
    simp only [Stance.under, Outcome.under, Translation.result, Stack.under, List.map_cons] at hs
    simp only [effect?, hs]
    rfl
  obtain ⟨ρ₀, hρ₀⟩ := exists_reads hnames
  refine ⟨_, heffect ρ₀ hρ₀, fun ρ hρ => ?_⟩
  have hsame := heffect ρ hρ.of_append
  rw [heffect ρ₀ hρ₀] at hsame
  have hsame := Option.some.inj hsame
  rw [hsame] at hρ ⊢
  refine Frame.effect_under hf hv tracing k fun env henv => ?_
  -- the channel that is opened has its names on the list
  subst henv hlength
  have hopens : (((Frame.eval .channel env).under (.ofQueues ρ)).effect p (N.member p).channels
      (v.under (.ofQueues ρ)) (k.under (.ofQueues ρ))).opens = true := rfl
  unfold Effect.newNames at hρ
  rw [if_pos hopens] at hρ
  refine ⟨hρ.agrees _ _ ?_, hρ.agrees _ _ ?_⟩
  · rw [List.getElem?_append_right le_rfl, Nat.sub_self]
    rfl
  · rw [List.getElem?_append_right (by omega), Nat.add_sub_cancel_left]
    rfl

end Moves

/-! ### Depictions -/

/-- What holds throughout a run of a valid program without a limit. -/
structure Machine.Regular (also : Expr → Prop) (m : Machine) : Prop where
  inOrder : m.InOrder
  tidy : m.Tidy
  free : m.IsFree
  obeys : m.Obeys (Discipline.proper also).tolerant

lemma Machine.Regular.step {also : Expr → Prop} (h : m.Regular also)
    (hD : (Discipline.proper also).Lawful) : m.step.Regular also where
  inOrder := h.inOrder.iterate 1
  tidy := h.tidy.step h.obeys
  free := h.free.of_policy_eq ((Machine.step_moves h.obeys).policy h.obeys.awaiting)
  obeys := h.obeys.step hD.tolerant

structure Depicts (names : List Nat) (people : List Lineage) (uses : List Use) (failed : Nat)
    (m : Machine) (N : Net) : Prop where
  sound : N.Sound
  named : Named names N
  length : names.length = m.allocated
  peopled : Peopled names people m N
  laned : Laned names m N
  counted : Counted names people uses failed m N

namespace Depicts

variable {uses : List Use} {failed : Nat}

lemma idle (h : Depicts names people uses failed m N) (hs : m'.stances = m.stances)
    (hc : ∀ q, m'.content q = m.content q) (ha : m'.allocated = m.allocated)
    (ht : m'.tasks.started = m.tasks.started) (hsteps : m'.steps = m.steps)
    (ho : m'.outcome? 0 = m.outcome? 0) (more : List Use) :
    Depicts names people (uses ++ more) failed m' N where
  sound := h.sound
  named := h.named
  length := ha ▸ h.length
  peopled := h.peopled.idle hs ht ho
  laned ρ hρ q := hc q ▸ h.laned ρ hρ q
  counted := by
    refine ⟨hsteps ▸ h.counted.steps, h.counted.failed, fun side x p hin => ?_⟩
    obtain ⟨r, b, huse, hrest⟩ := h.counted.uses side x p hin
    exact ⟨r, b, List.mem_append_left _ huse, hrest⟩

/-- The process whose turn it is has a descent, and the network says what it is about. -/
lemma head (h : Depicts names people uses failed m N) {j : Job} {rest : List Job} {i : Nat}
    {s : Stance} (hj : m.jobs = j :: rest) (hentry : j.entry = (i, s)) :
    m.stances = {(i, s)} + ({ m with jobs := rest } : Machine).stances ∧
      ∃ p, people[i]? = some p ∧
        ∀ ρ, Reads names ρ → (N.member p).stance = s.under (.ofQueues ρ) := by
  have hbefore := Machine.stances_take hj
  rw [hentry] at hbefore
  refine ⟨hbefore, h.peopled.about (i, s) ?_⟩
  rw [hbefore]
  exact Multiset.mem_add.mpr (.inl (Multiset.mem_singleton_self _))

/-- **A turn is a move of the network**, unless it only hands on what it is handed. -/
theorem turn {also : Expr → Prop} {f : Frame} {v : Value} {k : Stack} {rest : List Job}
    (h : Depicts names people uses failed m N) (hm : m.Regular also)
    (hj : m.jobs = ⟨.ok v, f :: k⟩ :: rest) (hf : ¬ f.IsBottom) (hsolid : f.isSolid = true)
    (hreceived : ∀ on, f ≠ .received on) :
    ∃ names' people' N', N.Step N' ∧ Depicts names' people' (uses ++ m.using?.toList) failed
      ((f.turn m.policy.tracing m.allocated v).apply k { m with jobs := rest }) N' := by
  obtain ⟨hv, hfo⟩ := hm.obeys.head hj hf
  obtain ⟨hg, howner⟩ := hm.inOrder.below hj hf
  have hk : k.IsDry := hm.tidy.below hj
  have hentry : Job.entry ⟨.ok v, f :: k⟩ = (k.owner, .going (.ok v) (f :: k.core)) := by
    have hdry : Stack.IsDry (f :: k) := hk.cons hreceived
    have hcore : Stack.core (f :: k) = f :: k.core := List.filter_cons_of_pos hsolid
    refine Prod.ext howner ?_
    exact (Job.stance_of_isDry hdry v).trans (by rw [hcore])
  obtain ⟨hbefore, p, hp, hstance⟩ := h.head hj hentry
  obtain ⟨e, he, heq⟩ := Net.effect?_of_going hfo hv m.policy.tracing h.named.nodup h.length hstance
  have hnamed := h.named.commit p e
  obtain ⟨ρ₁, hρ₁⟩ := exists_reads hnamed.nodup
  have hread : ∀ ρ, Reads (names ++ e.newNames p (N.member p).channels) ρ → Reads names ρ :=
    fun ρ hρ => hρ.of_append
  -- the machine acts, and then it goes on with the process
  have hd := f.acts_turn m.policy.tracing m.allocated v
  have htame := (f.takes m.policy.tracing m.allocated v).isTame
  have hrest := hm.tidy.take hj
  have hopens : e.opens = ((f.act? m.policy.tracing v).map Deed.opens).getD false := by
    rw [heq ρ₁ hρ₁, Frame.opens_effectUnder]
  refine ⟨_, people ++ e.newPeople p (N.member p).children, N.commit p e, ⟨p, e, he, rfl⟩,
    h.sound.commit he, hnamed, ?_, ?_, ?_, ?_⟩
  · rw [List.length_append, h.length, Machine.allocated_of_acts _ _ k hd, ← hopens]
    unfold Effect.newNames
    cases e.opens <;> rfl
  · have hseen : e.Seen (names ++ e.newNames p (N.member p).channels)
        (some ((f.turn m.policy.tracing m.allocated v).gist.stance k.core))
        (((f.act? m.policy.tracing v).bind Deed.child?).map (.going (.ok .unit))) := by
      refine ⟨fun s hs ρ hρ => ?_, nofun, ?_, fun s hs l hl ρ hρ => ?_⟩
      · cases hs
        rw [heq ρ hρ]
        rfl
      · rw [Option.isSome_map, heq ρ₁ hρ₁, Frame.child?_effectUnder, Option.isSome_map]
      · rw [heq ρ hρ, Frame.child?_effectUnder] at hl
        obtain ⟨l', hl', rfl⟩ := Option.map_eq_some_iff.mp hs
        rw [hl'] at hl
        cases hl
        rfl
    refine h.peopled.commit h.sound he hp hread ⟨_, _, hbefore, ?_⟩ hseen ?_ fun o ho => ?_
    · rw [Machine.stances_turn hrest hm.free htame hk hg hd, h.peopled.length]
      cases f.act? m.policy.tracing v with
      | none => rfl
      | some d => cases d <;> rfl
    · rw [Machine.started_of_acts _ _ k hd, Option.toList_map, List.length_map]
    · rw [Machine.Keeps.outcome?_eq (.turn ..)] at ho
      exact .inl ho
  · intro ρ hρ q
    have htake : e.take = none := by
      rw [heq ρ hρ]
      rfl
    have hput : (f.effectUnder ρ m.policy.tracing m.allocated p v k.core).put
        (q.under (.ofQueues ρ)) = _ := Frame.put_effectUnder hρ.injective q
    rw [← heq ρ hρ] at hput
    have hcontent := Machine.content_take hj q
    have harriving : Job.arriving? q ⟨.ok v, f :: k⟩ = none :=
      Stack.arriving?_of_isDry (hk.cons hreceived) q _
    rw [harriving, Option.toList_none, List.nil_append] at hcontent
    rw [Machine.content_turn hrest htame hk hd, ← hcontent, List.map_append, ← hput,
      ← h.laned ρ hρ.of_append q]
    simp only [Net.commit, htake]
    rfl
  · refine h.counted.commit hread (fun i q hq => ?_) ?_ ?_ (List.subset_append_left ..) ?_
    · rw [List.getElem?_append_left (List.getElem?_eq_some_iff.mp hq).1, hq]
    · rw [Machine.steps_of_acts _ _ k hd, heq ρ₁ hρ₁, Frame.steps_effectUnder]
    · rw [heq ρ₁ hρ₁, Frame.failures_effectUnder]
      rfl
    · intro side x q hin
      have huse : ∀ ρ, Reads (names ++ e.newNames p (N.member p).channels) ρ → q = p ∧
          ∃ r, m.using? = some (side, r, k.bottom) ∧ r.under (.ofQueues ρ) = x :=
        fun ρ hρ => Frame.uses_effectUnder hj (heq ρ hρ ▸ hin)
      obtain ⟨rfl, r, hr, -⟩ := huse ρ₁ hρ₁
      refine ⟨rfl, r, k.bottom, List.mem_append_right _ (Option.mem_toList.mpr hr), hp, ?_⟩
      intro ρ hρ
      obtain ⟨-, r', hr', heq'⟩ := huse ρ hρ
      rw [hr] at hr'
      cases hr'
      exact heq'

/-- A move that does no deed: a value is received, or the process ends. -/
lemma shift {i : Nat} {s : Stance} {rest : Multiset (Nat × Stance)} {failed' : Nat}
    (h : Depicts names people uses failed m N) (after : Option Stance)
    (he : N.effect? p = some e) (hact : e.act = none) (hp : people[i]? = some p)
    (hbefore : m.stances = {(i, s)} + rest)
    (hafter : m'.stances = (after.map (Prod.mk i)).toList + rest)
    (hgoes : ∀ s' ∈ after, ∀ ρ, Reads names ρ → e.stance = s'.under (.ofQueues ρ))
    (hends : after = none → ∃ o, e.stance = .ended o)
    (houtcome : ∀ o, m'.outcome? 0 = some o → m.outcome? 0 = some o ∨
      p = [] ∧ ∀ ρ, Reads names ρ → e.stance = .ended (Outcome.under (.ofQueues ρ) o))
    (hstarted : m'.tasks.started = m.tasks.started) (hallocated : m'.allocated = m.allocated)
    (hsteps : m'.steps = m.steps) (hmarks : ∀ a ∈ e.marks, a = .failure)
    (hfailed : failed' = failed + e.marks.count .failure)
    (hlane : ∀ ρ, Reads names ρ → ∀ q : QueueId,
      (if e.take = some (q.under (.ofQueues ρ)) then (N.lane (q.under (.ofQueues ρ))).tail
        else N.lane (q.under (.ofQueues ρ))) = (m'.content q).map (Value.under (.ofQueues ρ)))
    (more : List Use) :
    Depicts names people (uses ++ more) failed' m' (N.commit p e) := by
  have hchild : e.child? = none := by rw [Effect.child?, hact]; rfl
  have hnames : names ++ e.newNames p (N.member p).channels = names := by
    simp [Effect.newNames, Effect.opens, hact]
  have hpeople : people ++ e.newPeople p (N.member p).children = people := by
    simp [Effect.newPeople, hchild]
  have hnone : ∀ a, a ≠ .failure → a ∉ e.marks := fun a ha hin => ha (hmarks a hin)
  refine ⟨h.sound.commit he, hnames ▸ h.named.commit p e, h.length.trans hallocated.symm, ?_,
    fun ρ hρ q => ?_, ?_⟩
  · rw [← hpeople]
    have hseen : e.Seen names after none :=
      ⟨hgoes, hends, by rw [hchild]; rfl, nofun⟩
    refine h.peopled.commit h.sound he hp (fun ρ hρ => hρ) ⟨s, rest, hbefore, ?_⟩ hseen hstarted
      houtcome
    rw [hafter]
    simp
  · have hput : e.put (q.under (.ofQueues ρ)) = [] := by rw [Effect.put, hact]; rfl
    rw [← hlane ρ hρ q]
    simp only [Net.commit, hput, List.append_nil]
  · refine h.counted.commit (fun ρ hρ => hρ) (fun i q hq => hq) ?_ hfailed
      (List.subset_append_left ..) fun side x q hin => absurd hin (hnone _ Mark.noConfusion)
    rw [Multiset.count_eq_zero_of_notMem (hnone .step Mark.noConfusion)]
    exact hsteps

/-- **Who is handed a value from a queue receives it.** -/
theorem receive {also : Expr → Prop} {on : Endpoint} {v : Value} {k : Stack} {rest : List Job}
    (h : Depicts names people uses failed m N) (hm : m.Regular also)
    (hj : m.jobs = ⟨.ok v, .received on :: k⟩ :: rest) (more : List Use) :
    ∃ N', N.Step N' ∧ Depicts names people (uses ++ more) failed
      (((Frame.received on).turn m.policy.tracing m.allocated v).apply k
        { m with jobs := rest }) N' := by
  obtain ⟨hv, hfo⟩ := hm.obeys.head hj id
  obtain ⟨hg, howner⟩ := hm.inOrder.below hj id
  have hk : k.IsDry := hm.tidy.below hj
  have hentry : Job.entry ⟨.ok v, .received on :: k⟩ = (k.owner, .asking on k.core) :=
    Prod.ext howner rfl
  obtain ⟨hbefore, p, hp, hstance⟩ := h.head hj hentry
  have hcontent : ∀ q, m.content q = (if on.read = q then [v] else []) ++
      ({ m with jobs := rest } : Machine).content q := by
    intro q
    rw [Machine.content_take hj q, Stack.arriving?_of_awaits ⟨on, k, rfl, rfl⟩]
    split <;> rfl
  -- the value is the first on its way, under whatever names
  have heffect : ∀ ρ, Reads names ρ → N.effect? p = some
      { stance := (Stance.going (.ok (.pair v (.channel on))) k.core).under (.ofQueues ρ)
        take := some (on.read.under (.ofQueues ρ)) } := by
    intro ρ hρ
    have hs := hstance ρ hρ
    have hlane := h.laned ρ hρ on.read
    rw [hcontent, if_pos rfl] at hlane
    simp only [Stance.under] at hs
    have hread : (on.under (.ofQueues ρ)).read = on.read.under (.ofQueues ρ) := rfl
    simp only [Net.effect?, hs, hread, hlane]
    rfl
  obtain ⟨ρ₀, hρ₀⟩ := exists_reads h.named.nodup
  have hgist : ((Frame.received on).turn m.policy.tracing m.allocated v).gist =
      .hand [] (.ok (.pair v (.channel on))) := Frame.gist_turn hfo hv _ _
  have hd := (Frame.received on).acts_turn m.policy.tracing m.allocated v
  have htame := ((Frame.received on).takes m.policy.tracing m.allocated v).isTame
  have hrest := hm.tidy.take hj
  refine ⟨_, ⟨p, _, heffect ρ₀ hρ₀, rfl⟩, ?_⟩
  refine h.shift (some (.going (.ok (.pair v (.channel on))) k.core)) (heffect ρ₀ hρ₀) rfl hp
    hbefore ?_ ?_ ?_ ?_ ?_ ?_ ?_ ?_ rfl ?_ more
  · rw [Machine.stances_turn hrest hm.free htame hk hg hd, hgist]
    exact congrArg _ (zero_add _)
  · intro s' hs' ρ hρ
    cases hs'
    have hsame := (heffect ρ₀ hρ₀).symm.trans (heffect ρ hρ)
    exact congrArg Effect.stance (Option.some.inj hsame)
  · intro hnone
    cases hnone
  · intro o ho
    rw [Machine.Keeps.outcome?_eq (.turn ..)] at ho
    exact .inl ho
  · rw [Machine.started_of_acts _ _ k hd]
    rfl
  · rw [Machine.allocated_of_acts _ _ k hd]
    rfl
  · have hchecks :
        ((Frame.received on).turn m.policy.tracing m.allocated v).sequel.core.checks = 0 :=
      congrArg Sequel.checks hgist
    rw [Machine.steps_of_acts _ _ k hd, ← Sequel.checks_core, hchecks]
    rfl
  · intro a ha
    exact absurd ha (Multiset.notMem_zero a)
  · intro ρ hρ q
    have hsame := (heffect ρ₀ hρ₀).symm.trans (heffect ρ hρ)
    have htake := congrArg Effect.take (Option.some.inj hsame)
    simp only at htake
    rw [htake, Machine.content_turn hrest htame hk hd, h.laned ρ hρ q, hcontent]
    have hiff : some (on.read.under (.ofQueues ρ)) = some (q.under (.ofQueues ρ)) ↔
        on.read = q := by
      rw [Option.some_inj, (QueueId.under_injective hρ.injective).eq_iff]
    simp only [hiff]
    split <;> simp [Frame.act?]

lemma handOn {also : Expr → Prop} {f : Frame} {v : Value} {k : Stack} {rest : List Job}
    (h : Depicts names people uses failed m N) (hm : m.Regular also)
    (hj : m.jobs = ⟨.ok v, f :: k⟩ :: rest) (hf : ¬ f.IsBottom) (hsolid : f.isSolid = false)
    (more : List Use) :
    Depicts names people (uses ++ more) failed
      ((f.turn m.policy.tracing m.allocated v).apply k { m with jobs := rest }) N := by
  obtain ⟨hv, hfo⟩ := hm.obeys.head hj hf
  obtain ⟨hg, howner⟩ := hm.inOrder.below hj hf
  have hk : k.IsDry := hm.tidy.below hj
  have hplain : (∀ on, f ≠ .received on) ∧ f.act? m.policy.tracing v = none ∧
      (f.turn m.policy.tracing m.allocated v).gist = .hand [] (.ok v) := by
    rw [Frame.gist_turn hfo hv]
    cases f with
    | pass | leave => exact ⟨by simp, rfl, rfl⟩
    | settle | report => exact absurd trivial hf
    | _ => cases hsolid
  obtain ⟨hreceived, hact, hgist⟩ := hplain
  have hd := f.acts_turn m.policy.tracing m.allocated v
  have htame := (f.takes m.policy.tracing m.allocated v).isTame
  have hrest := hm.tidy.take hj
  rw [hact] at hd
  refine h.idle ?_ (fun q => ?_) ?_ ?_ ?_ ?_ more
  · have hentry : Job.entry ⟨.ok v, f :: k⟩ = (k.owner, .going (.ok v) k.core) := by
      have hcore : Stack.core (f :: k) = k.core := List.filter_cons_of_neg (by simp [hsolid])
      refine Prod.ext howner ?_
      exact (Job.stance_of_isDry (hk.cons hreceived) v).trans (by rw [hcore])
    rw [Machine.stances_turn hrest hm.free htame hk hg hd, hgist, Machine.stances_take hj, hentry]
    exact congrArg _ (zero_add _)
  · rw [Machine.content_turn hrest htame hk hd, Machine.content_take hj,
      Stack.arriving?_of_isDry (hk.cons hreceived)]
    exact List.append_nil _
  · rw [Machine.allocated_of_acts _ _ k hd]
    rfl
  · rw [Machine.started_of_acts _ _ k hd]
    rfl
  · have hchecks : (f.turn m.policy.tracing m.allocated v).sequel.core.checks = 0 :=
      congrArg Sequel.checks hgist
    rw [Machine.steps_of_acts _ _ k hd, ← Sequel.checks_core, hchecks]
    rfl
  · exact (Machine.Keeps.turn ..).outcome?_eq 0

/-- **The end of a process.** -/
lemma ends {o : Outcome} {b : Frame} {rest : List Job}
    (h : Depicts names people uses failed m N) (hj : m.jobs = ⟨o, [b]⟩ :: rest)
    (hb : b.IsBottom) (hjobs : m'.jobs = rest) (hparked : m'.parked = m.parked)
    (hqueues : m'.queues = m.queues) (hallocated : m'.allocated = m.allocated)
    (hsteps : m'.steps = m.steps) (hstarted : m'.tasks.started = m.tasks.started)
    (houtcome : ∀ o', m'.outcome? 0 = some o' → m.outcome? 0 = some o' ∨ b.owner = 0 ∧ o' = o)
    (more : List Use) :
    ∃ N', N.Step N' ∧ Depicts names people (uses ++ more)
      (failed + m.failing?.toList.length) m' N' := by
  have hentry : Job.entry ⟨o, [b]⟩ = (b.owner, .going o []) := by
    refine Prod.ext rfl ?_
    cases b with
    | settle | report => cases o <;> rfl
    | _ => exact hb.elim
  obtain ⟨hbefore, p, hp, hstance⟩ := h.head hj hentry
  have heffect : ∀ ρ, Reads names ρ →
      N.effect? p = some (Net.ending p (Outcome.under (.ofQueues ρ) o)) := by
    intro ρ hρ
    have hs := hstance ρ hρ
    simp only [Stance.under] at hs
    simp only [Net.effect?, hs]
    cases o <;> rfl
  obtain ⟨ρ₀, hρ₀⟩ := exists_reads h.named.nodup
  have hsame : ∀ ρ, Reads names ρ → (Net.ending p (Outcome.under (.ofQueues ρ₀) o)).stance =
      .ended (Outcome.under (.ofQueues ρ) o) := fun ρ hρ =>
    congrArg Effect.stance (Option.some.inj ((heffect ρ₀ hρ₀).symm.trans (heffect ρ hρ)))
  refine ⟨_, ⟨p, _, heffect ρ₀ hρ₀, rfl⟩, ?_⟩
  refine h.shift none (heffect ρ₀ hρ₀) rfl hp hbefore ?_ ?_ ?_ ?_ hstarted hallocated hsteps ?_ ?_
    ?_ more
  · have hsame : m'.stances = ({ m with jobs := rest } : Machine).stances :=
      Machine.stances_congr hjobs hparked hqueues
    rw [hsame]
    exact (zero_add _).symm
  · intro s' hs'
    cases hs'
  · exact fun _ => ⟨_, rfl⟩
  · intro o' ho'
    rcases houtcome o' ho' with hbefore | ⟨hmain, rfl⟩
    · exact .inl hbefore
    · rw [hmain, h.peopled.main] at hp
      exact .inr ⟨(Option.some.inj hp).symm, hsame⟩
  · intro a ha
    unfold Net.ending at ha
    simp only at ha
    split at ha <;> simp_all
  · -- a task is not the main process
    congr 1
    cases b with
    | settle task serial =>
      cases p with
      | nil => exact absurd (h.peopled.index_inj hp h.peopled.main) (Nat.succ_ne_zero serial)
      | cons c l =>
        cases o <;>
          simp [Machine.failing?, hj, Net.ending, Outcome.under, Translation.result]
    | report tag =>
      obtain rfl : p = [] := Option.some.inj (hp.symm.trans h.peopled.main)
      cases o <;> simp [Machine.failing?, hj, Net.ending]
    | _ => exact hb.elim
  · intro ρ hρ q
    have hcontent : m'.content q = m.content q := by
      have hdry : Stack.IsDry [b] := by
        cases b with
        | settle | report => simp [Stack.IsDry]
        | _ => exact hb.elim
      rw [Machine.content_take hj, Stack.arriving?_of_isDry hdry,
        Machine.content_congr (m := { m with jobs := rest }) hjobs hqueues]
      rfl
    rw [hcontent, ← h.laned ρ hρ q]
    rfl

lemma fault {f : Frame} {x : Fault} {k : Stack} {rest : List Job}
    (h : Depicts names people uses failed m N) (hm : m.InOrder)
    (hj : m.jobs = ⟨.error x, f :: k⟩ :: rest) (hf : ¬ f.IsBottom) (more : List Use) :
    Depicts names people (uses ++ more) failed
      (({ m with jobs := rest } : Machine).resume k (.error x)) N := by
  have hstances : (({ m with jobs := rest } : Machine).resume k (.error x)).stances =
      m.stances := by
    have hentry : Job.entry ⟨.error x, f :: k⟩ = Job.entry ⟨.error x, k⟩ :=
      Prod.ext (hm.below hj hf).2 rfl
    rw [Machine.stances_resume, Machine.stances_take hj, hentry]
  refine h.idle hstances (fun q => ?_) rfl rfl rfl rfl more
  have hnone : ∀ k, Job.arriving? q ⟨.error x, k⟩ = none := fun _ => rfl
  rw [Machine.content_resume, Machine.content_take hj, hnone, hnone, Option.toList_none,
    List.append_nil, List.nil_append]
  rfl

/-- **A step of the machine is a move of the network, or none.** -/
theorem step {also : Expr → Prop} (h : Depicts names people uses failed m N) (hm : m.Regular also) :
    ∃ names' people' N', Relation.ReflGen Net.Step N N' ∧ Depicts names' people'
      (uses ++ m.using?.toList) (failed + m.failing?.toList.length) m.step N' := by
  have hmoves := Machine.step_moves hm.obeys
  generalize m.step = m' at hmoves ⊢
  cases hmoves with
  | rest hq =>
    have hjobs : m.jobs = [] := List.isEmpty_iff.mp (Bool.and_eq_true_iff.mp hq).1
    have hnone : m.failing? = none := by simp only [Machine.failing?, hjobs]
    rw [hnone]
    exact ⟨_, _, N, .refl, h.idle rfl (fun _ => rfl) rfl rfl rfl rfl _⟩
  | @release k rest hj hp =>
    have hnone : m.failing? = none := by simp only [Machine.failing?, hj]
    have hdry : k.IsDry := hm.tidy.parked k (hp ▸ List.mem_cons_self ..)
    rw [hnone]
    refine ⟨_, _, N, .refl, h.idle (Machine.stances_release hj hp) (fun q => ?_) rfl rfl rfl rfl _⟩
    unfold Machine.content
    rw [hj, List.filterMap_cons_none (Stack.arriving?_of_isDry hdry q _)]
    rfl
  | drop hj =>
    obtain ⟨fs, b, heq, -⟩ := hm.inOrder.grounded hj
    exact absurd heq.symm (by simp)
  | @turn f v k rest hj hf =>
    have hnone : m.failing? = none := by simp only [Machine.failing?, hj]
    rw [hnone]
    -- a frame that only hands on is no move of the network
    by_cases hsolid : f.isSolid = true
    · by_cases hreceived : ∃ on, f = .received on
      · obtain ⟨on, rfl⟩ := hreceived
        obtain ⟨N', hstep, hd⟩ := h.receive hm hj m.using?.toList
        exact ⟨_, _, N', .single hstep, hd⟩
      · obtain ⟨names', people', N', hstep, hd⟩ := h.turn hm hj hf hsolid
          fun on heq => hreceived ⟨on, heq⟩
        exact ⟨names', people', N', .single hstep, hd⟩
    · refine ⟨names, people, N, .refl, ?_⟩
      exact h.handOn hm hj hf (Bool.eq_false_iff.mpr hsolid) _
  | @fault f x k rest hj hf =>
    have hnone : m.failing? = none := by
      -- a task has failed when its fault gets to the bottom, not on the way
      unfold Machine.failing?
      rw [hj]
      cases f with
      | settle | report => exact absurd trivial hf
      | _ => rfl
    rw [hnone]
    exact ⟨_, _, N, .refl, h.fault hm.inOrder hj hf _⟩
  | @settle task serial o k rest hj =>
    obtain ⟨rfl, -⟩ := hm.inOrder.running_of_settle hj
    have hnobody : ({ m with jobs := rest } : Machine).awaiting = [] := hm.obeys.awaiting
    obtain ⟨-, hjobs, hparked, hqueues, hsteps⟩ := Machine.settle_same hnobody task serial o
    have houtcome := (Machine.Keeps.settle hnobody task serial o).outcome?_eq 0
    obtain ⟨N', hstep, hd⟩ := h.ends hj trivial hjobs hparked hqueues
      (Machine.allocated_settle hnobody task serial o) hsteps
      (Machine.started_settle hnobody task serial o) (fun o' ho' => .inl (houtcome.symm.trans ho'))
      m.using?.toList
    exact ⟨_, _, N', .single hstep, hd⟩
  | @report tag o k rest hj =>
    obtain ⟨rfl, hmain⟩ := hm.inOrder.main_of_report hj
    rcases (hm.inOrder.grounded hj).cases with ⟨-, rfl⟩ | ⟨hf, -⟩
    · have houtcome : (({ m with jobs := rest } : Machine).report 0 o).outcome? 0 = some o := by
        have hnone : ({ m with jobs := rest } : Machine).outcome? 0 = none := hmain
        rw [Machine.outcome?_report, hnone]
        rfl
      have hjobs : (({ m with jobs := rest } : Machine).report 0 o).jobs = rest := rfl
      obtain ⟨N', hstep, hd⟩ := h.ends hj trivial hjobs rfl rfl rfl rfl rfl
        (fun o' ho' => .inr ⟨rfl, Option.some.inj (ho'.symm.trans houtcome)⟩) m.using?.toList
      exact ⟨_, _, N', .single hstep, hd⟩
    · exact absurd trivial hf

end Depicts

end Parley
