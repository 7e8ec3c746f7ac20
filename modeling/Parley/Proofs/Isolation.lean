import Parley.Proofs.Confluence
import Parley.Proofs.Observation

/-!
Forked processes reach the main process only through channels. In a program that opens no channel
the main process does the same as if nothing were forked: its moves are mirrored, one by one, by the
program in which every fork is the unit value. What the tasks do makes no difference, and nobody is
ever suspended.
-/

namespace Parley

/-! ### Programs without forks -/

mutual

/-- The expression with the unit value in place of every fork. -/
def Expr.unfork : Expr → Expr
  | .fork _ => .unit
  | .arith op a b => .arith op a.unfork b.unfork
  | .negate a => .negate a.unfork
  | .succ a => .succ a.unfork
  | .letIn x a b => .letIn x a.unfork b.unfork
  | .letPair x y a b => .letPair x y a.unfork b.unfork
  | .pair x a b => .pair x a.unfork b.unfork
  | .fst a => .fst a.unfork
  | .snd a => .snd a.unfork
  | .lambda x a => .lambda x a.unfork
  | .app a b => .app a.unfork b.unfork
  | .send a => .send a.unfork
  | .recv a => .recv a.unfork
  | .caseOf a bs rest => .caseOf a.unfork (Expr.unforkBranches bs) rest
  | .natRec a b x y c => .natRec a.unfork b.unfork x y c.unfork
  | .unit => .unit
  | .var x => .var x
  | .label x => .label x
  | .int n => .int n
  | .nat n => .nat n
  | .channel => .channel
  | .unknown kind shown => .unknown kind shown
  | .missing g => .missing g

def Expr.unforkBranches : List (Atom × Expr) → List (Atom × Expr)
  | [] => []
  | (x, b) :: rest => (x, b.unfork) :: Expr.unforkBranches rest

end

def Translation.unfork : Translation := ⟨Expr.unfork, id⟩

def Program.unforked (p : Program) : Program := p.under .unfork

lemma Expr.unforkBranches_eq_map (bs : List (Atom × Expr)) :
    unforkBranches bs = bs.map fun b => (b.1, b.2.unfork) := by
  induction bs with
  | nil => rfl
  | cons b rest ih => rw [unforkBranches, ih, List.map_cons]

lemma Expr.unfork_node (e : Expr) (he : ∀ a, e ≠ .fork a) : e.unfork = e.mapParts unfork := by
  cases e with
  | fork a => exact absurd rfl (he a)
  | caseOf a bs rest => rw [unfork, unforkBranches_eq_map, mapParts]
  | _ => rfl

lemma Translation.lawful_unfork : Translation.unfork.Lawful where
  node := Expr.unfork_node
  fork _ := .inr rfl

lemma Expr.parts_mapParts (φ : Expr → Expr) (e : Expr) :
    (e.mapParts φ).parts = e.parts.map φ := by
  cases e with
  | caseOf a bs rest => simp [mapParts, parts]
  | _ => rfl

/-- What holds of all nodes holds of those that are left without the forks. -/
lemma Expr.Every.unfork {P : Expr → Prop} {e : Expr} (h : e.Every P) (hunit : P .unit)
    (hnode : ∀ e, P e → P (e.mapParts Expr.unfork)) : e.unfork.Every P := by
  induction h with
  | @mk e here _ ih =>
    by_cases hfork : ∃ a, e = .fork a
    · obtain ⟨a, rfl⟩ := hfork
      exact ⟨hunit, fun a ha => absurd ha List.not_mem_nil⟩
    · rw [unfork_node e fun a ha => hfork ⟨a, ha⟩]
      refine ⟨hnode e here, fun b hb => ?_⟩
      rw [parts_mapParts] at hb
      obtain ⟨a, ha, rfl⟩ := List.mem_map.mp hb
      exact ih a ha

lemma Expr.Proper.mapParts {φ : Expr → Expr} {e : Expr} (h : e.Proper) : (e.mapParts φ).Proper := by
  cases e with
  | caseOf a bs rest =>
    refine ⟨h.1, fun b hb => ?_⟩
    obtain ⟨b', hb', rfl⟩ := List.mem_map.mp hb
    exact h.2 b' hb'
  | _ => exact h

def Expr.isChannel : Expr → Bool
  | .channel => true
  | _ => false

abbrev Discipline.secluded : Discipline := .proper (·.isChannel = false)

lemma Discipline.lawful_secluded : secluded.Lawful := lawful_proper fun _ _ => rfl

def Program.ChannelFree (p : Program) : Prop :=
  ∀ g, .global g ∈ p.declarations → g.body.Every (·.isChannel = false)

/-- A program is valid, or might be, and opens no channel. -/
def Program.Secluded (p : Program) : Prop :=
  ∀ g, .global g ∈ p.declarations → Discipline.secluded.global g.name g

lemma Program.Secluded.unforked {p : Program} (hp : p.Secluded) : p.unforked.Secluded := by
  intro g hg
  obtain ⟨d, hd, heq⟩ := List.mem_map.mp hg
  cases d with
  | type name => cases heq
  | global g' =>
    cases heq
    obtain ⟨hproper, hfree⟩ := hp g' hd
    refine ⟨⟨hproper.name, hproper.params, ?_⟩, ?_⟩
    · exact hproper.body.unfork trivial fun e he => he.mapParts
    · refine hfree.unfork rfl fun e he => ?_
      cases e with
      | channel => exact he
      | _ => rfl

/-! ### Nobody is suspended -/

namespace Machine

variable {m m' : Machine}

/-- Whoever is in a machine has a stack that keeps to the discipline. -/
lemma Obeys.entry {D : Discipline} (hm : m.Obeys D) {x : Nat × Stance} (hx : x ∈ m.stances) :
    ∃ j : Job, j.entry = x ∧ Stack.Obeys D m.allocated j.stack := by
  rcases Multiset.mem_add.mp hx with hx | hx
  · obtain ⟨j, hj, rfl⟩ := List.mem_map.mp hx
    exact ⟨j, rfl, (hm.jobs j hj).2⟩
  · obtain ⟨k, hk, rfl⟩ := Multiset.mem_map.mp hx
    refine ⟨⟨.ok .unit, k⟩, rfl, ?_⟩
    rcases Multiset.mem_add.mp hk with hk | hk
    · exact hm.parked k hk
    · obtain ⟨e, he, hw⟩ := List.mem_flatMap.mp (Multiset.mem_coe.mp hk)
      exact hm.waiters e he k hw

/-- What holds throughout a run of a valid program that opens no channel. -/
structure Secluded (m : Machine) : Prop where
  regular : m.Regular (·.isChannel = false)
  paired : m.Obeys .paired
  none : m.allocated = 0

namespace Secluded

lemma step (h : m.Secluded) : m.step.Secluded where
  regular := h.regular.step Discipline.lawful_secluded
  paired := h.paired.step Discipline.lawful_paired
  none := by
    have hopens : m.opens = false := by
      unfold opens
      split
      · next v f k rest hj =>
        cases f with
        | eval e env =>
          cases e with
          | channel =>
            have hnode := (h.regular.obeys.head hj id).2.1.here
            exact absurd hnode.2 (by simp [Expr.isChannel])
          | _ => rfl
        | _ => rfl
      · rfl
    rw [(step_moves h.paired).allocated h.paired.awaiting, h.none, hopens]
    rfl

/-- There are no channels, so nobody has asked for a value. -/
lemma not_asking (h : m.Secluded) {x : Nat × Stance} (hx : x ∈ m.stances) (on : Endpoint)
    (k : Stack) : x.2 ≠ .asking on k := by
  obtain ⟨j, rfl, hstack⟩ := h.paired.entry hx
  simp only [Job.entry]
  unfold Job.stance
  split
  · next on' rest =>
    have hends : Discipline.paired.ends m.allocated on' :=
      (hstack _ (List.mem_cons_self ..)).resolve_right id
    obtain ⟨i, hi, -⟩ := hends 0 h.none
    exact absurd hi (Nat.not_lt_zero i)
  · exact Stance.noConfusion
  · exact Stance.noConfusion

/-- **Nobody is suspended**, so with nothing left to do the main process has ended. -/
lemma reported (h : m.Secluded) (hq : m.quiet = true) : ∃ o, m.outcome? 0 = some o := by
  cases ho : m.outcome? 0 with
  | some o => exact ⟨o, rfl⟩
  | none =>
    obtain ⟨x, hx, -⟩ := h.regular.inOrder.main_mem ho
    obtain ⟨on, k, hask, -⟩ := h.regular.waits_of_quiet hq hx
    exact absurd hask (h.not_asking hx on k)

end Secluded

end Machine

/-! ### The main process alone -/

/-- Without forks a frame does the same deeds, forks apart. -/
lemma Frame.act?_unfork (f : Frame) (v : Value) :
    (f.under .unfork).act? false (v.under .unfork) =
      ((f.act? false v).filter fun d => !d.forks).map (Deed.under .unfork) := by
  cases f with
  | eval e env => cases e <;> rfl
  | call arg => cases v <;> rfl
  | _ => rfl

/-- **Without forks the main process makes the same move**, and forks nobody. -/
lemma Frame.effect_unfork (f : Frame) (v : Value) (k : Stack) (c : Nat) :
    let e := f.effect [] c v k
    let e' := (f.under .unfork).effect [] c (v.under .unfork) (k.under .unfork)
    e'.stance = e.stance.under .unfork ∧ e'.opens = e.opens ∧ e'.child? = none := by
  have hgist : ((f.under .unfork).turn false (channelName [] c) (v.under .unfork)).gist =
      (f.turn false (channelName [] c) v).gist.under .unfork :=
    Frame.gist_turn_under Translation.lawful_unfork f v fun _ _ => ⟨rfl, rfl⟩
  refine ⟨?_, ?_, ?_⟩
  · simp only [Frame.effect]
    rw [hgist, Sequel.stance_under]
  · simp only [Frame.effect, Effect.opens, act?_unfork]
    cases f.act? false v with
    | none => rfl
    | some d => cases d <;> rfl
  · simp only [Frame.effect, Effect.child?, act?_unfork]
    cases f.act? false v with
    | none => rfl
    | some d => cases d <;> rfl

namespace Net

variable {N N' M : Net} {p : Lineage} {e : Effect}

lemma owner_of_use (h : N.effect? p = some e) {side : Side} {x : QueueId} {q : Lineage}
    (hin : .use side x q ∈ e.marks) : q = p := by
  unfold effect? at h
  split at h
  · next v f k _ =>
    cases h
    simp only [Frame.effect] at hin
    rcases Multiset.mem_add.mp hin with hin | hin
    · cases hact : f.act? false v with
      | none => simp [hact] at hin
      | some d => cases d <;> simp_all [Deed.marks]
    · cases hgist : (f.turn false (channelName p (N.member p).channels) v).gist <;>
        simp_all [Sequel.marks]
  · cases h; simp [ending] at hin
  · cases h
    simp only [ending] at hin
    split at hin <;> simp at hin
  · obtain ⟨v, -, rfl⟩ := Option.map_eq_some_iff.mp h
    exact absurd hin (Multiset.notMem_zero _)
  · cases h

/-- The second network has the main process of the first, without its forks, and nobody else. -/
structure Mirrors (N N' : Net) : Prop where
  stance : (N'.member []).stance = (N.member []).stance.under .unfork
  channels : (N'.member []).channels = (N.member []).channels
  alone : ∀ p, p ≠ [] → (N'.member p).stance = .unborn
  uses : ∀ side q p, .use side q p ∈ N'.marks → p = []

namespace Mirrors

lemma start (q : Sequel) : Mirrors (Net.start q) (Net.start (q.under .unfork)) where
  stance := q.stance_under []
  channels := rfl
  alone p hp := by simp only [Net.start, if_neg hp]
  uses side x p hin := by
    cases q with
    | receive on =>
      cases Multiset.mem_singleton.mp hin
      rfl
    | hand fs o => exact absurd hin (Multiset.notMem_zero _)
    | count fs => cases Multiset.mem_singleton.mp hin

/-- What the main process can do, it can do without its forks. -/
lemma moves (h : Mirrors N N') (hask : ∀ on k, (N.member []).stance ≠ .asking on k)
    (he : N.effect? [] = some e) : ∃ e', N'.effect? [] = some e' ∧
      e'.stance = e.stance.under .unfork ∧ e'.opens = e.opens ∧ e'.child? = none := by
  have hstance := h.stance
  cases hs : (N.member []).stance with
  | unborn => exact absurd hs (born_of_effect? he)
  | asking on k => exact absurd hs (hask on k)
  | ended o => exact absurd hs (not_ended_of_effect? he o)
  | going o k =>
    rw [hs] at hstance
    -- a fault and the last frame end the process; else its frame takes a turn
    cases o with
    | error x =>
      simp only [effect?, hs] at he
      cases he
      have he' : N'.effect? [] = some (ending [] (.error (x.under .unfork))) := by
        simp only [effect?, hstance]
        rfl
      exact ⟨_, he', rfl, rfl, rfl⟩
    | ok v =>
      cases k with
      | nil =>
        simp only [effect?, hs] at he
        cases he
        have he' : N'.effect? [] = some (ending [] (.ok (v.under .unfork))) := by
          simp only [effect?, hstance]
          rfl
        exact ⟨_, he', rfl, rfl, rfl⟩
      | cons f k =>
        simp only [effect?, hs] at he
        cases he
        have he' : N'.effect? [] = some ((f.under .unfork).effect [] (N.member []).channels
            (v.under .unfork) (Stack.under .unfork k)) := by
          rw [← h.channels]
          simp only [effect?, hstance]
          rfl
        exact ⟨_, he', f.effect_unfork v k _⟩

/-- **A move of the first network is the same move of the second, or none.** -/
theorem step (h : Mirrors N N') (hN : N.Sound) (hborn : (N.member []).stance ≠ .unborn)
    (hask : ∀ on k, (N.member []).stance ≠ .asking on k) (hs : N.Step M) :
    ∃ M', Relation.ReflGen Step N' M' ∧ Mirrors M M' := by
  obtain ⟨p, e, he, rfl⟩ := hs
  by_cases hp : p = []
  · subst hp
    obtain ⟨e', he', hstance, hopens, hchild⟩ := h.moves hask he
    refine ⟨_, .single ⟨[], e', he', rfl⟩, ?_, ?_, fun p hp => ?_, fun side q p hin => ?_⟩
    · rw [member_commit_self, member_commit_self]
      exact hstance
    · rw [member_commit_self, member_commit_self]
      simp only [h.channels, hopens]
    · rw [member_commit_eq N' e' hp, hchild]
      exact h.alone p hp
    · rcases Multiset.mem_add.mp hin with hin | hin
      · exact h.uses side q p hin
      · exact owner_of_use he' hin
  · -- the move of a task is not seen
    have hmain : (N.commit p e).member [] = N.member [] := hN.member_commit hborn (Ne.symm hp)
    refine ⟨N', .refl, ?_, ?_, h.alone, h.uses⟩
    · rw [hmain]
      exact h.stance
    · rw [hmain]
      exact h.channels

/-- If the main process has ended, there is nothing left to do without the forks. -/
lemma rests (h : Mirrors N N') {o : Outcome} (ho : (N.member []).stance = .ended o) : N'.Rests := by
  intro p
  by_cases hp : p = []
  · subst hp
    have hended := h.stance
    rw [ho] at hended
    simp only [effect?, hended]
    rfl
  · simp only [effect?, h.alone p hp]

lemma pointToPoint (h : Mirrors N N') : N'.PointToPoint := fun side q p p' hp hp' =>
  (h.uses side q p hp).trans (h.uses side q p' hp').symm

end Mirrors

end Net

/-! ### Runs with and without forks -/

lemma Endpoint.under_unfork (e : Endpoint) : e.under .unfork = e := by
  have hqueue : ∀ q : QueueId, q.under .unfork = q := fun q => by cases q <;> rfl
  simp only [under, hqueue]

lemma Value.render_unfork (v : Value) : (v.under .unfork).render = v.render := by
  induction v using Value.render.induct with
  | case4 a b iha ihb => simp only [under, render, iha, ihb]
  | case8 e => simp only [under, Endpoint.under_unfork]
  | _ => rfl

lemma Fault.message_unfork (f : Fault) : (f.under .unfork).message = f.message := by
  cases f with
  | typeMismatch expected got context =>
    exact message_typeMismatch (Value.kind_under ..) got.render_unfork expected context
  | _ => rfl

lemma Outcome.shown_unfork (o : Outcome) : (Outcome.under .unfork o).shown = o.shown := by
  cases o with
  | ok v => exact congrArg Except.ok v.render_unfork
  | error f =>
    have hcategory : (f.under .unfork).category = f.category := by cases f <;> rfl
    have hmessage := f.message_unfork
    simp only [under, Translation.result, shown, hcategory, hmessage]

/-- Nobody has asked for a value in the network either. -/
lemma Depicts.not_asking {names : List Nat} {people : List Lineage} {uses : List Use}
    {failed : Nat} {m : Machine} {N : Net} (h : Depicts names people uses failed m N)
    (hm : m.Secluded) (on : Endpoint) (k : Stack) : (N.member []).stance ≠ .asking on k := by
  obtain ⟨ρ, hρ⟩ := exists_reads h.named.nodup
  rcases h.peopled.gone [] (List.mem_of_getElem? h.peopled.main) with ⟨o, ho⟩ | ⟨x, hx, hmain⟩
  · rw [ho]
    exact Stance.noConfusion
  · obtain ⟨p, hp, hstance⟩ := h.peopled.about x hx
    obtain rfl : [] = p := Option.some.inj (hmain.symm.trans hp)
    rw [hstance ρ hρ]
    cases hs : x.2 with
    | asking on' k' => exact absurd hs (hm.not_asking hx on' k')
    | _ => exact Stance.noConfusion

lemma Depicts.reads_id {names : List Nat} {people : List Lineage} {uses : List Use}
    {failed : Nat} {m : Machine} {N : Net} (h : Depicts names people uses failed m N)
    (hm : m.Secluded) : Reads names id := by
  have hnil : names = [] := List.length_eq_zero_iff.mp (h.length.trans hm.none)
  exact ⟨Function.injective_id, fun i x hx => by simp [hnil] at hx⟩

namespace Program.Secluded

variable {p : Program}

lemma secluded (hp : p.Secluded) (policy : Policy) (n : Nat) :
    (Machine.step^[n] ((Source.program p).start policy.unlimited)).Secluded := by
  induction n with
  | zero =>
    refine ⟨Source.Runs.program.regular Discipline.lawful_secluded hp policy 0, ?_, ?_⟩
    · exact Source.obeys_open _ _ Discipline.open_paired
    · exact Source.allocated_start ..
  | succ n ih =>
    rw [Function.iterate_succ_apply']
    exact ih.step

/-- **The main process of a run is mirrored without the forks**, whatever the tasks do. -/
theorem mirrored (hp : p.Secluded) (policy : Policy) (n : Nat) :
    let m₀ := (Source.program p).start policy.unlimited
    ∃ names people uses failed N N', Depicts names people uses failed (Machine.step^[n] m₀) N ∧
      (Net.start p.unforked.opening).Steps N' ∧ N.Mirrors N' := by
  intro m₀
  induction n with
  | zero =>
    have hopening : p.unforked.opening = p.opening.under .unfork := p.opening_under
    refine ⟨_, _, _, _, _, _, Source.Runs.program.depicts_start policy, .refl, ?_⟩
    rw [hopening]
    exact .start _
  | succ n ih =>
    obtain ⟨names, people, uses, failed, N, N', hd, hsteps, hmirrors⟩ := ih
    have hm : (Machine.step^[n] m₀).Secluded := hp.secluded policy n
    obtain ⟨names', people', M, hstep, hd'⟩ := hd.step hm.regular
    rw [Function.iterate_succ_apply']
    rcases hstep with _ | hstep
    · exact ⟨_, _, _, _, _, _, hd', hsteps, hmirrors⟩
    · have hborn := (hd.peopled.born []).mp (List.mem_of_getElem? hd.peopled.main)
      obtain ⟨M', hstep', hmirrors'⟩ := hmirrors.step hd.sound hborn (hd.not_asking hm) hstep
      exact ⟨_, _, _, _, _, _, hd', hsteps.trans hstep'.to_reflTransGen, hmirrors'⟩

/-- **The outcome of the main process is that of the program without forks.** -/
theorem outcome_unforked (hp : p.Secluded) (policy policy' : Policy) {n : Nat} {o : Outcome}
    (ho : (Machine.step^[n] ((Source.program p).start policy.unlimited)).outcome? 0 = some o) :
    ∃ n', let m' := Machine.step^[n'] ((Source.program p.unforked).start policy'.unlimited)
      m'.quiet = true ∧ m'.outcome? 0 = some (Outcome.under .unfork o) := by
  have hp' : p.unforked.Secluded := hp.unforked
  obtain ⟨names, people, uses, failed, N, T, hd, hsteps, hmirrors⟩ := hp.mirrored policy n
  have hended := hd.peopled.outcome o ho id (hd.reads_id (hp.secluded policy n))
  rw [Outcome.under_id] at hended
  obtain ⟨n', names', people', hquiet, hd'⟩ := Source.Runs.program.settles
    Discipline.lawful_secluded hp' hsteps (hmirrors.rests hended) hmirrors.pointToPoint policy'
  have hm' := hp'.secluded policy' n'
  have hended' := hmirrors.stance
  rw [hended] at hended'
  refine ⟨n', hquiet, ?_⟩
  obtain ⟨o', ho'⟩ := hm'.reported hquiet
  have hsame := hd'.peopled.outcome o' ho' id (hd'.reads_id hm')
  rw [Outcome.under_id, hended'] at hsame
  rw [ho', ← Stance.ended.inj hsame]

end Program.Secluded

/-- **Forked processes reach the main process only through channels.** In a valid program that opens
no channel, the main process settles as it does if every fork is the unit value, whatever the forked
processes do: the value shows as the same text, or the fault has the same code and wording. It does
not matter how the two runs are scheduled and traced. And if nothing is left to do, then the main
process has settled. -/
theorem forks_reach_main_through_channels {doc : Option Json} {v : Valid}
    (hv : validate doc = .ok v) (hfree : v.program.ChannelFree) (policy policy' : Policy) :
    let m₀ := (Source.program v.program).start policy.unlimited
    let m₀' := (Source.program v.program.unforked).start policy'.unlimited
    (∀ n o, (Machine.step^[n] m₀).outcome? 0 = some o →
      ∃ n' o', (Machine.step^[n'] m₀').quiet = true ∧
        (Machine.step^[n'] m₀').outcome? 0 = some o' ∧ o'.shown = o.shown) ∧
    ∀ n, (Machine.step^[n] m₀).quiet = true → ∃ o, (Machine.step^[n] m₀).outcome? 0 = some o := by
  intro m₀ m₀'
  have hp : v.program.Secluded := fun g hg => ⟨validate_proper hv hg, hfree g hg⟩
  refine ⟨fun n o ho => ?_, fun n hq => (hp.secluded policy n).reported hq⟩
  obtain ⟨n', hquiet, ho'⟩ := hp.outcome_unforked policy policy' ho
  exact ⟨n', _, hquiet, ho', o.shown_unfork⟩

/-- A document whose main process forks a task that never ends and one that divides by zero, and
yields a function that forks, and a number. -/
def Json.busy : Json :=
  let var (name : String) : Json := .object [("kind", .string "var"), ("name", .string name)]
  let literal (i : Int) : Json :=
    .object [("kind", .string "int"), ("value", .number (.integer i))]
  let operation (kind : String) (a b : Json) : Json :=
    .object [("kind", .string kind), ("left", a), ("right", b)]
  let fork (e : Json) : Json := .object [("kind", .string "fork"), ("expr", e)]
  let bind (name : String) (e body : Json) : Json :=
    .object [("kind", .string "let"), ("name", .string name), ("value", e), ("body", body)]
  let global (name : String) (body : Json) : Json :=
    .object [("kind", .string "fun"), ("name", .string name), ("params", .array []), ("body", body)]
  let result := Json.object [("kind", .string "pair"), ("name", .string "p"),
    ("first", .object [("kind", .string "lambda"), ("param", .string "x"),
      ("body", fork (var "x"))]),
    ("second", operation "plus" (literal 3) (literal 4))]
  .object [("declarations", .array [global "loop" (var "loop"),
    global "main" (bind "t" (fork (var "loop"))
      (bind "u" (fork (operation "div" (literal 1) (literal 0))) result))])]

def Program.busy : Program :=
  let var (name : String) : Expr := .var (.text name)
  let literal (i : Int) : Expr := .int (.number (.integer i))
  ⟨[.global ⟨.text "loop", .ok [], var "loop"⟩,
    .global ⟨.text "main", .ok [], .letIn (.text "t") (.fork (var "loop"))
      (.letIn (.text "u") (.fork (.arith .div (literal 1) (literal 0)))
        (.pair (.text "p") (.lambda (.text "x") (.fork (var "x")))
          (.arith .plus (literal 3) (literal 4))))⟩]⟩

/-- Its main process settles while one task runs on and the other has failed, and without the forks
it settles in the same way. -/
theorem forks_reach_main_through_channels_busy :
    ∃ v, validate (some .busy) = .ok v ∧ v.program = .busy ∧ Program.busy.ChannelFree ∧
      let m := Machine.step^[51] ((Source.program .busy).start (Policy.unlimited {}))
      m.tasks.running.map (·.1) = [.text "fork-0"] ∧
      m.tasks.failures = [(.text "fork-1", .divisionByZero)] ∧
      ∃ o, m.outcome? 0 = some o ∧ o.shown = .ok "<<closure>, 7>" ∧
        ∃ n' o', let m' := Machine.step^[n'] ((Source.program Program.busy.unforked).start
            (Policy.unlimited { tracing := true }))
          m'.quiet = true ∧ m'.outcome? 0 = some o' ∧ o'.shown = .ok "<<closure>, 7>" := by
  obtain ⟨v, hv, hp⟩ : ∃ v, validate (some .busy) = .ok v ∧ v.program = .busy := ⟨_, rfl, rfl⟩
  have hfree : Program.busy.ChannelFree := by
    intro g hg
    rcases List.mem_cons.mp hg with hg | hg
    · cases hg
      exact .of_checks (n := 1) rfl
    · cases List.mem_singleton.mp hg
      exact .of_checks (n := 6) rfl
  obtain ⟨o, ho, hshown⟩ : ∃ o, (Machine.step^[51]
      ((Source.program .busy).start (Policy.unlimited {}))).outcome? 0 = some o ∧
        o.shown = .ok "<<closure>, 7>" := ⟨_, rfl, rfl⟩
  have hagree := (forks_reach_main_through_channels hv (hp ▸ hfree) {} { tracing := true }).1 51 o
  rw [hp] at hagree
  obtain ⟨n', o', hquiet, ho', hsame⟩ := hagree ho
  exact ⟨v, hv, hp, hfree, rfl, rfl, o, ho, hshown, n', o', hquiet, ho', hsame.trans hshown⟩

end Parley
