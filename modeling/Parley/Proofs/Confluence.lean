import Parley.Proofs.Depiction

/-!
Runs of valid programs under different schedules. A run without a limit is depicted by networks
that all come from the same first one, and a machine with nothing left to do is depicted by one that
has come to rest. So if every queue is used by one process at each of its ends in one run that comes
to rest, then the other runs come to rest as well, and in the same way.
-/

namespace Parley

/-! ### How runs begin -/

def Call.opening : Call → Sequel
  | .value v => .hand [] (.ok v)
  | .body e env => .count [.eval e env]
  | .fault f => .hand [] (.error f)

def Program.opening (p : Program) : Sequel :=
  match p.main? with
  | some g => (g.call p.globals).opening
  | none => .hand [] (.error .noMainDeclaration)

def Declaration.under (R : Translation) : Declaration → Declaration
  | .global g => .global (g.under R)
  | .type name => .type name

def Program.under (R : Translation) (p : Program) : Program :=
  ⟨p.declarations.map (Declaration.under R)⟩

section Opening

variable {R : Translation}

lemma Env.under_ofEntries (entries : List (Atom × Value)) (env : Env) :
    Table.setAll (Env.under R env) (entries.map fun b => (b.1, b.2.under R)) =
      Env.under R (Table.setAll env entries) := by
  induction entries generalizing env with
  | nil => rfl
  | cons b rest ih =>
    simp only [List.map_cons, Table.setAll, List.foldl_cons] at ih ⊢
    rw [← ih, Env.under_set]

lemma Program.globals_under (p : Program) : (p.under R).globals = Env.under R p.globals := by
  have hentries : ∀ ds : List Declaration,
      ((ds.map (Declaration.under R)).filterMap fun d => match d with
        | .global g => some (g.name, Value.global g)
        | .type _ => none) =
      (ds.filterMap fun d => match d with
        | .global g => some (g.name, Value.global g)
        | .type _ => none).map fun b => (b.1, b.2.under R) := by
    intro ds
    induction ds with
    | nil => rfl
    | cons d ds ih => cases d <;> simp [Declaration.under, Global.under, Value.under, ih]
  unfold globals Env.ofDeclarations
  exact (congrArg Table.ofEntries (hentries p.declarations)).trans (Env.under_ofEntries _ [])

lemma Program.main?_under (p : Program) : (p.under R).main? = p.main?.map (Global.under R) := by
  unfold main?
  rw [globals_under, Env.find?_under]
  cases Table.find? p.globals (.text entry) with
  | none => rfl
  | some v => cases v <;> rfl

/-- **A translated program begins with what is translated.** -/
theorem Program.opening_under (p : Program) : (p.under R).opening = p.opening.under R := by
  unfold opening
  rw [main?_under, globals_under]
  cases p.main? with
  | none => rfl
  | some g =>
    simp only [Option.map_some, Global.call_under]
    cases g.call p.globals <;> rfl

lemma Program.under_ofQueues (p : Program) (ρ : Nat → Nat) : p.under (.ofQueues ρ) = p := by
  have hid : Declaration.under (.ofQueues ρ) = id := by
    funext d
    cases d <;> rfl
  unfold under
  rw [hid, List.map_id]

lemma Program.opening_ofQueues (p : Program) (ρ : Nat → Nat) :
    p.opening.under (.ofQueues ρ) = p.opening := by
  rw [← opening_under, under_ofQueues]

lemma Program.opening_ne_receive (p : Program) {on : Endpoint} : p.opening ≠ .receive on := by
  unfold opening
  cases p.main? with
  | none => exact Sequel.noConfusion
  | some g =>
    simp only
    cases g.call p.globals <;> exact Sequel.noConfusion

end Opening

/-- The runs of a program: of itself, and of documents that hold it. -/
inductive Source.Runs (p : Program) : Source → Prop
  | program : Runs p (.program p)
  | document {doc : Option Json} {v : Valid} (h : validate doc = .ok v) (hv : v.program = p) :
      Runs p (.document doc)

lemma Program.opens_core (p : Program) {under : Stack} (hu : ∀ g ∈ under, g = .pass) :
    ∃ q : Sequel, q.IsTame ∧ q.core = p.opening ∧ ∀ (m : Machine) (k : Stack),
      m.startProgram p (under ++ k) = q.apply k m := by
  have htame : ∀ g ∈ .pass :: .pass :: under, ¬ g.IsBottom ∧ ∀ on, g ≠ .received on := by
    intro g hg
    obtain rfl : g = .pass := by
      rcases List.mem_cons.mp hg with rfl | hg
      · rfl
      · exact (List.mem_cons.mp hg).elim id (hu g)
    exact ⟨id, by simp⟩
  have hcore : Stack.core under = [] := List.filter_eq_nil_iff.mpr fun g hg => by
    rw [hu g hg]
    exact Bool.false_ne_true
  unfold opening
  cases hmain : p.main? with
  | none =>
    refine ⟨.hand under (.error .noMainDeclaration), fun g hg => htame g ?_, ?_, fun m k => ?_⟩
    · exact List.mem_cons_of_mem _ (List.mem_cons_of_mem _ hg)
    · simp only [Sequel.core, hcore]
    · simp only [Machine.startProgram, hmain]
      rfl
  | some g =>
    simp only [Machine.startProgram, hmain]
    -- frames that only pass on are no part of how it opens
    cases g.call p.globals with
    | value v =>
      refine ⟨.hand (.pass :: .pass :: under) (.ok v), htame, ?_, fun _ _ => rfl⟩
      exact congrArg (Sequel.hand · (.ok v)) hcore
    | body e env =>
      refine ⟨.count (.eval e env :: .pass :: under), fun g hg => ?_, ?_, fun _ _ => rfl⟩
      · rcases List.mem_cons.mp hg with rfl | hg
        · exact ⟨id, by simp⟩
        · exact htame g (List.mem_cons_of_mem _ hg)
      · exact congrArg (fun k => Sequel.count (.eval e env :: k)) hcore
    | fault f =>
      refine ⟨.hand under (.error f), fun g hg => htame g ?_, ?_, fun _ _ => rfl⟩
      · exact List.mem_cons_of_mem _ (List.mem_cons_of_mem _ hg)
      · simp only [Sequel.core, hcore, Call.opening]

namespace Source.Runs

variable {p : Program} {s : Source}

/-- **All runs of a program begin in the same way**, apart from frames that only hand on an
outcome. -/
theorem opens_core (hs : s.Runs p) : ∃ q : Sequel, q.IsTame ∧ q.core = p.opening ∧
    ∀ policy, s.start policy = q.apply [.report 0] { policy } := by
  cases hs with
  | program =>
    obtain ⟨q, htame, hcore, hstart⟩ := p.opens_core (by simp : ∀ g ∈ ([] : Stack), g = .pass)
    exact ⟨q, htame, hcore, fun policy => hstart _ _⟩
  | @document doc v h hv =>
    subst hv
    have hpass : ∀ n, ∃ q : Sequel, q.IsTame ∧ q.core = v.program.opening ∧
        ∀ policy, ({ policy } : Machine).startProgram v.program
          (List.replicate n .pass ++ [.report 0]) = q.apply [.report 0] { policy } := by
      intro n
      have hframes : ∀ g ∈ List.replicate n Frame.pass, g = .pass := fun g hg =>
        List.eq_of_mem_replicate hg
      obtain ⟨q, htame, hcore, hstart⟩ := v.program.opens_core hframes
      exact ⟨q, htame, hcore, fun policy => hstart _ _⟩
    simp only [start, Machine.startDocument, h]
    cases v.program.main? with
    | some g => exact hpass 1
    | none => exact hpass 2

/-- A program keeps to a discipline, and so do its runs. -/
lemma obeys {D : Discipline} (hs : s.Runs p) (hD : D.Lawful)
    (hp : ∀ g, .global g ∈ p.declarations → D.global g.name g) (policy : Policy) :
    (s.start policy).Obeys D.tolerant := by
  have hprogram : ∀ n, (({ policy } : Machine).startProgram p
      (List.replicate n .pass ++ [.report 0])).Obeys D.tolerant := by
    intro n
    have hm := Machine.Obeys.fresh D.tolerant policy
    have hk : Stack.Obeys D.tolerant ({ policy } : Machine).allocated
        (List.replicate n .pass ++ [.report 0]) := by
      refine .append (fun f hf => ?_) fun f hf => ?_
      · rw [List.eq_of_mem_replicate hf]
        trivial
      · rw [List.mem_singleton.mp hf]
        exact .inr trivial
    cases hmain : p.main? with
    | some g => exact hm.startProgram hD.tolerant hk (Program.globals_obeys hp) hmain
    | none =>
      simp only [Machine.startProgram, hmain]
      exact hm.resume hk (.given trivial)
  cases hs with
  | program => exact hprogram 0
  | document h hv =>
    subst hv
    simp only [start, Machine.startDocument, h]
    split
    · exact hprogram 1
    · exact hprogram 2

/-- A run of a valid program without a limit is regular from its beginning on. -/
lemma regular {also : Expr → Prop} (hs : s.Runs p) (hD : (Discipline.proper also).Lawful)
    (hp : ∀ g, .global g ∈ p.declarations → (Discipline.proper also).global g.name g)
    (policy : Policy) (n : Nat) :
    (Machine.step^[n] (s.start policy.unlimited)).Regular also := by
  induction n with
  | zero =>
    obtain ⟨q, htame, -, hstart⟩ := hs.opens_core
    refine ⟨(s.starts _).inOrder, ?_, congrArg Policy.maxSteps (s.policy_start _),
      hs.obeys hD hp _⟩
    rw [Function.iterate_zero_apply, hstart]
    exact (Machine.Tidy.fresh _).sequel htame (by simp [Stack.IsDry])
  | succ n ih =>
    rw [Function.iterate_succ_apply']
    exact ih.step hD

end Source.Runs

/-! ### Runs as networks -/

def Net.start (q : Sequel) : Net where
  member p := if p = [] then { stance := q.stance [] } else {}
  lane _ := []
  marks := q.marks []

lemma Net.sound_start (q : Sequel) : (Net.start q).Sound where
  fresh p i _ := rfl
  asked p on k h := by
    by_cases hp : p = []
    · subst hp
      cases q with
      | receive on' =>
        cases h
        exact Multiset.mem_singleton_self _
      | hand fs o => cases o <;> cases h
      | count fs => cases h
    · simp only [start, if_neg hp] at h
      cases h

/-- **A run begins as its network does.** -/
theorem Source.Runs.depicts_start {p : Program} {s : Source} (hs : s.Runs p) (policy : Policy) :
    Depicts [] [[]] [] 0 (s.start policy.unlimited) (Net.start p.opening) := by
  obtain ⟨q, htame, hcore, hstart⟩ := hs.opens_core
  have hgist : (⟨[], q⟩ : Turn).gist = p.opening := hcore
  have hd : (⟨[], q⟩ : Turn).acts = (none : Option Deed).toList := rfl
  have hturn : s.start policy.unlimited =
      (⟨[], q⟩ : Turn).apply [.report 0] { policy := policy.unlimited } := hstart _
  have hfresh := Machine.Tidy.fresh policy.unlimited
  have hfree : ({ policy := policy.unlimited } : Machine).IsFree := rfl
  have hk : Stack.IsDry [.report 0] := by simp [Stack.IsDry]
  have hg : Stack.Grounded [.report 0] := ⟨[], .report 0, rfl, trivial, by simp⟩
  have hstances : (s.start policy.unlimited).stances = {(0, p.opening.stance [])} := by
    rw [hturn, Machine.stances_turn hfresh hfree htame hk hg hd, hgist]
    rfl
  have hself : ∀ ρ, (p.opening.stance []).under (.ofQueues ρ) = p.opening.stance [] := fun ρ => by
    rw [← Sequel.stance_under, p.opening_ofQueues]
    rfl
  have hmain : (Net.start p.opening).member [] = { stance := p.opening.stance [] } := rfl
  -- the main process is there from the beginning
  have hborn : p.opening.stance [] ≠ .unborn := by
    cases p.opening with
    | hand fs o => cases o <;> exact Stance.noConfusion
    | _ => exact Stance.noConfusion
  have hchannels : ∀ l, ((Net.start p.opening).member l).channels = 0 := fun l => by
    simp only [Net.start]
    split <;> rfl
  refine ⟨Net.sound_start _, ⟨List.nodup_nil, fun x => ?_⟩, ?_, ?_, fun ρ _ r => ?_, ?_⟩
  · refine ⟨fun hx => absurd hx List.not_mem_nil, ?_⟩
    rintro ⟨l, c, i, hc, -⟩
    rw [hchannels l] at hc
    exact absurd hc (Nat.not_lt_zero c)
  · rw [hturn, Machine.allocated_of_acts _ _ _ hd]
    rfl
  · refine ⟨by simp, ?_, rfl, fun l => ?_, ?_, fun x hx => ?_, fun l hl => .inr ?_, fun o ho => ?_⟩
    · rw [hturn, Machine.started_of_acts _ _ _ hd]
      rfl
    · by_cases hl : l = []
      · subst hl
        rw [hmain]
        simp [hborn]
      · simp [Net.start, hl]
    · rw [hstances, Multiset.map_singleton]
      exact Multiset.nodup_singleton _
    · rw [hstances] at hx
      cases Multiset.mem_singleton.mp hx
      exact ⟨[], rfl, fun ρ _ => (hself ρ).symm⟩
    · rw [List.mem_singleton.mp hl, hstances]
      exact ⟨_, Multiset.mem_singleton_self _, rfl⟩
    · rw [hturn, Machine.Keeps.outcome?_eq (.turn ..)] at ho
      cases ho
  · rw [hturn, Machine.content_turn hfresh htame hk hd]
    rfl
  · have hsteps := Machine.steps_of_acts { policy := policy.unlimited } ⟨[], q⟩ [.report 0] hd
    refine ⟨?_, Sequel.count_marks_failure _, fun side x l hin => ?_⟩
    · rw [hturn, hsteps, ← Sequel.checks_core, hcore]
      refine (Sequel.count_marks_step _).trans ?_
      simp
    -- no program begins with a receive, so no queue is in use yet
    · cases hopening : p.opening with
      | receive on => exact absurd hopening p.opening_ne_receive
      | _ => simp [Net.start, hopening, Sequel.marks] at hin

/-- **A run is a run of its network**, which depends on the program alone. -/
theorem Source.Runs.depicted {also : Expr → Prop} {p : Program} {s : Source} (hs : s.Runs p)
    (hD : (Discipline.proper also).Lawful)
    (hp : ∀ g, .global g ∈ p.declarations → (Discipline.proper also).global g.name g)
    (policy : Policy) (n : Nat) :
    let m₀ := s.start policy.unlimited
    ∃ names people N, (Net.start p.opening).Steps N ∧
      Depicts names people (m₀.history Machine.using? n) (m₀.history Machine.failing? n).length
        (Machine.step^[n] m₀) N := by
  intro m₀
  induction n with
  | zero => exact ⟨[], [[]], _, .refl, hs.depicts_start policy⟩
  | succ n ih =>
    obtain ⟨names, people, N, hsteps, hd⟩ := ih
    obtain ⟨names', people', N', hstep, hd'⟩ := hd.step (hs.regular hD hp policy n)
    refine ⟨names', people', N', hsteps.trans hstep.to_reflTransGen, ?_⟩
    rw [Function.iterate_succ_apply', Machine.history_succ, Machine.history_succ,
      List.length_append]
    exact hd'

/-! ### Rest -/

section Rest

variable {also : Expr → Prop} {names : List Nat} {people : List Lineage} {uses : List Use}
  {failed : Nat} {m : Machine} {N : Net}

/-- Whoever is in a machine with nothing left to do waits for a value. -/
lemma Machine.Regular.waits_of_quiet (h : m.Regular also) (hq : m.quiet = true)
    {x : Nat × Stance} (hx : x ∈ m.stances) :
    ∃ on k, x.2 = .asking on k ∧ m.content on.read = [] := by
  simp only [quiet, Bool.and_eq_true, List.isEmpty_iff] at hq
  have hstances : m.stances = m.waiters.map Stack.entry := by
    unfold stances
    rw [hq.1, hq.2]
    simp
  rw [hstances] at hx
  obtain ⟨k, hk, rfl⟩ := Multiset.mem_map.mp hx
  obtain ⟨q, hwaits, hempty⟩ := waits_of_mem h.inOrder.balanced.queues hk
  obtain ⟨on, rest, rfl, rfl⟩ := (h.tidy.waiting q k hwaits).1
  refine ⟨on, Stack.core rest, rfl, ?_⟩
  unfold content
  rw [hq.1, hempty]
  rfl

/-- **A machine with nothing left to do is depicted by a network at rest.** -/
theorem Depicts.rests (h : Depicts names people uses failed m N) (hm : m.Regular also)
    (hq : m.quiet = true) : N.Rests := by
  intro p
  obtain ⟨ρ, hρ⟩ := exists_reads h.named.nodup
  by_cases hp : p ∈ people
  · rcases h.peopled.gone p hp with ⟨o, ho⟩ | ⟨x, hx, hxp⟩
    · simp only [Net.effect?, ho]
    · obtain ⟨on, k, hask, hempty⟩ := hm.waits_of_quiet hq hx
      obtain ⟨p', hp', hstance⟩ := h.peopled.about x hx
      obtain rfl : p = p' := Option.some.inj (hxp.symm.trans hp')
      have hs := hstance ρ hρ
      have hlane := h.laned ρ hρ on.read
      have hread : (on.under (.ofQueues ρ)).read = on.read.under (.ofQueues ρ) := rfl
      rw [hask, Stance.under] at hs
      rw [hempty] at hlane
      simp only [Net.effect?, hs, hread, hlane]
      rfl
  · have hunborn := not_ne_iff.mp (mt (h.peopled.born p).mpr hp)
    simp only [Net.effect?, hunborn]

/-- As long as the main process has not reported, it is in the machine. -/
lemma Machine.InOrder.main_mem (hm : m.InOrder) (ho : m.outcome? 0 = none) :
    ∃ x ∈ m.stances, x.1 = 0 := by
  have howners : m.stances.map (·.1) = m.places.map Stack.owner := by
    unfold stances places
    simp only [Multiset.map_add, Multiset.map_map, Multiset.map_coe, List.map_map, add_assoc]
    rfl
  have hpending : .report 0 ∈ m.pending := by
    unfold pending
    rw [ho]
    exact Multiset.mem_add.mpr (.inl (Multiset.mem_singleton_self _))
  rw [← hm.balanced.owners, zero_add] at hpending
  obtain ⟨k, hk, hbottom⟩ := Multiset.mem_map.mp hpending
  have hmain : 0 ∈ m.stances.map (·.1) := by
    rw [howners]
    exact Multiset.mem_map.mpr ⟨k, hk, congrArg Frame.owner hbottom⟩
  exact Multiset.mem_map.mp hmain

lemma Machine.ne_ended_of_mem {x : Nat × Stance} (hx : x ∈ m.stances) (o : Outcome) :
    x.2 ≠ .ended o := by
  have hjob : ∀ j : Job, j.entry.2 ≠ .ended o := by
    intro j
    simp only [Job.entry]
    unfold Job.stance
    split <;> exact Stance.noConfusion
  rcases Multiset.mem_add.mp hx with hx | hx
  · obtain ⟨j, -, rfl⟩ := List.mem_map.mp hx
    exact hjob j
  · obtain ⟨k, -, rfl⟩ := Multiset.mem_map.mp hx
    exact hjob _

/-- If the main process has not reported, it has not ended in the network either. -/
lemma Depicts.not_ended (h : Depicts names people uses failed m N) (hm : m.InOrder)
    (ho : m.outcome? 0 = none) (o : Outcome) : (N.member []).stance ≠ .ended o := by
  obtain ⟨x, hx, hmain⟩ := hm.main_mem ho
  obtain ⟨p, hp, hstance⟩ := h.peopled.about x hx
  obtain ⟨ρ, hρ⟩ := exists_reads h.named.nodup
  rw [hmain, h.peopled.main] at hp
  cases hp
  rw [hstance ρ hρ]
  cases hs : x.2 with
  | ended o' => exact absurd hs (Machine.ne_ended_of_mem hx o')
  | _ => exact Stance.noConfusion

end Rest

/-- **Whoever moves first, a run comes to rest where its network does**, if every queue is used by
one process at each of its ends. -/
theorem Source.Runs.settles {also : Expr → Prop} {p : Program} {s : Source} {T : Net}
    (hs : s.Runs p) (hD : (Discipline.proper also).Lawful)
    (hp : ∀ g, .global g ∈ p.declarations → (Discipline.proper also).global g.name g)
    (hsteps : (Net.start p.opening).Steps T) (hrests : T.Rests) (huse : T.PointToPoint)
    (policy : Policy) :
    let m₀ := s.start policy.unlimited
    ∃ n names people, (Machine.step^[n] m₀).quiet = true ∧
      Depicts names people (m₀.history Machine.using? n) (m₀.history Machine.failing? n).length
        (Machine.step^[n] m₀) T := by
  intro m₀
  -- no run takes more steps than the network does
  have hbound : ∀ n, (Machine.step^[n] m₀).steps ≤ T.marks.count .step := by
    intro n
    obtain ⟨names, people, N, hN, hd⟩ := hs.depicted hD hp policy n
    have honward := Net.Steps.onward hsteps (Net.sound_start _) hrests huse hN
    rw [← hd.counted.steps]
    exact Multiset.count_le_of_le _ honward.marks_le
  obtain ⟨n, -, hquiet⟩ := s.exists_quiet policy (T.marks.count .step)
  have hfree : (Machine.step^[n] m₀).quiet = true := by
    rcases s.abreast policy (T.marks.count .step) n with heq | ⟨-, hlt⟩
    · rw [heq] at hquiet
      exact hquiet
    · exact absurd hlt (Nat.not_lt_of_le (hbound n))
  obtain ⟨names, people, N, hN, hd⟩ := hs.depicted hD hp policy n
  have hrest := hd.rests (hs.regular hD hp policy n) hfree
  have hsame := hrest.eq_of_steps (Net.Steps.onward hsteps (Net.sound_start _) hrests huse hN)
  exact ⟨n, names, people, hfree, hsame ▸ hd⟩

/-! ### Two runs -/

/-- What has a name on the list is one of the first queues. -/
lemma Reads.mem_iff {names : List Nat} {ρ : Nat → Nat} (h : Reads names ρ) (x : Nat) :
    x ∈ names ↔ ∃ i < names.length, ρ i = x := by
  rw [List.mem_iff_getElem?]
  constructor
  · rintro ⟨i, hi⟩
    exact ⟨i, (List.getElem?_eq_some_iff.mp hi).1, h.agrees i x hi⟩
  · rintro ⟨i, hi, rfl⟩
    have hget := List.getElem?_eq_getElem hi
    exact ⟨i, hget.trans (congrArg some (h.agrees i _ hget).symm)⟩

/-- Two ways to number what is on the lists differ by a renaming. -/
lemma Reads.bijOn {names names' : List Nat} {ρ ρ' : Nat → Nat} (h : Reads names ρ)
    (h' : Reads names' ρ') (hmem : ∀ x, x ∈ names ↔ x ∈ names') :
    Set.BijOn (Function.invFun ρ' ∘ ρ) (Set.Iio names.length) (Set.Iio names'.length) := by
  have hinv : ∀ j, Function.invFun ρ' (ρ' j) = j := Function.leftInverse_invFun h'.injective
  have hto : ∀ i < names.length, ∃ j < names'.length, ρ' j = ρ i := fun i hi =>
    (h'.mem_iff _).mp ((hmem _).mp ((h.mem_iff _).mpr ⟨i, hi, rfl⟩))
  refine ⟨fun i hi => ?_, fun i hi k hk heq => ?_, fun j hj => ?_⟩
  · obtain ⟨j, hj, heq⟩ := hto i hi
    simp only [Function.comp_apply, ← heq, hinv]
    exact hj
  · obtain ⟨j, -, hj⟩ := hto i hi
    obtain ⟨l, -, hl⟩ := hto k hk
    simp only [Function.comp_apply, ← hj, ← hl, hinv] at heq
    exact h.injective (by rw [← hj, ← hl, heq])
  · obtain ⟨i, hi, heq⟩ := (h.mem_iff _).mp ((hmem _).mpr ((h'.mem_iff _).mpr ⟨j, hj, rfl⟩))
    refine ⟨i, hi, ?_⟩
    simp only [Function.comp_apply, heq, hinv]

section Agreement

variable {names names' : List Nat} {people people' : List Lineage} {uses uses' : List Use}
  {failed failed' : Nat} {m m' : Machine} {T : Net}

lemma Depicts.mem_names_iff (h : Depicts names people uses failed m T)
    (h' : Depicts names' people' uses' failed' m' T) (x : Nat) : x ∈ names ↔ x ∈ names' := by
  rw [h.named.mem, h'.named.mem]

/-- Machines depicted by one network have as many queues and tasks. -/
lemma Depicts.counts_eq (h : Depicts names people uses failed m T)
    (h' : Depicts names' people' uses' failed' m' T) : m'.steps = m.steps ∧
      m'.allocated = m.allocated ∧ m'.tasks.started = m.tasks.started ∧ failed' = failed := by
  have hnames : names'.Perm names := (List.perm_ext_iff_of_nodup h'.named.nodup h.named.nodup).mpr
    fun x => (h.mem_names_iff h' x).symm
  have hpeople : people'.Perm people :=
    (List.perm_ext_iff_of_nodup h'.peopled.nodup h.peopled.nodup).mpr fun p => by
      rw [h.peopled.born, h'.peopled.born]
  refine ⟨?_, ?_, ?_, ?_⟩
  · rw [← h.counted.steps, ← h'.counted.steps]
  · rw [← h.length, ← h'.length, hnames.length_eq]
  · have hlength := h.peopled.length
    have hlength' := h'.peopled.length
    rw [hpeople.length_eq] at hlength'
    omega
  · rw [← h.counted.failed, ← h'.counted.failed]

/-- **Machines depicted by one network have the same outcome**, up to a renaming of the queues. -/
theorem Depicts.outcome_eq (h : Depicts names people uses failed m T)
    (h' : Depicts names' people' uses' failed' m' T) (hm : m.InOrder) (hm' : m'.InOrder) :
    ∃ σ, Set.BijOn σ (Set.Iio m.allocated) (Set.Iio m'.allocated) ∧
      m'.outcome? 0 = (m.outcome? 0).map (Outcome.under (.ofQueues σ)) := by
  obtain ⟨ρ, hρ⟩ := exists_reads h.named.nodup
  obtain ⟨ρ', hρ'⟩ := exists_reads h'.named.nodup
  have hbij := hρ.bijOn hρ' (h.mem_names_iff h')
  rw [h.length, h'.length] at hbij
  refine ⟨_, hbij, ?_⟩
  cases ho : m.outcome? 0 with
  | none =>
    cases ho' : m'.outcome? 0 with
    | none => rfl
    | some o' => exact absurd (h'.peopled.outcome o' ho' ρ' hρ') (h.not_ended hm ho _)
  | some o =>
    have hended := h.peopled.outcome o ho ρ hρ
    cases ho' : m'.outcome? 0 with
    | none => exact absurd hended (h'.not_ended hm' ho' _)
    | some o' =>
      have hended' := h'.peopled.outcome o' ho' ρ' hρ'
      rw [hended] at hended'
      have hsame : Outcome.under (.ofQueues ρ) o = Outcome.under (.ofQueues ρ') o' :=
        Stance.ended.inj hended'
      refine congrArg some ?_
      -- the names that the one machine gives the queues are read back by the other
      calc o' = Outcome.under (.ofQueues (Function.invFun ρ' ∘ ρ')) o' := by
            rw [Function.invFun_comp hρ'.injective]
            exact (Outcome.under_id o').symm
        _ = Outcome.under (.ofQueues (Function.invFun ρ'))
            (Outcome.under (.ofQueues ρ') o') := (Outcome.under_under ..).symm
        _ = Outcome.under (.ofQueues (Function.invFun ρ' ∘ ρ)) o := by
            rw [← hsame, Outcome.under_under]

end Agreement

/-- A fork is evaluated if and only if a task is started. -/
lemma Machine.Moves.started {m m' : Machine} (h : Moves m m') (hm : m.awaiting = []) :
    m'.tasks.started = m.tasks.started + m.forks.toNat := by
  cases h with
  | rest h =>
    simp only [quiet, Bool.and_eq_true, List.isEmpty_iff] at h
    simp [forks, h.1]
  | release hj hp => simp [forks, hj]
  | drop hj => simp [forks, hj]
  | @turn f v k rest hj hf =>
    have hforks : m.forks = f.forks := by
      unfold forks
      rw [hj]
      -- only the evaluation of a fork starts a task
      cases f with
      | eval e env => cases e <;> rfl
      | _ => rfl
    rw [tasks_turn, Frame.forks_turn, hforks]
    cases f.forks <;> rfl
  | fault hj hf => simp [forks, hj, resume]
  | @settle task serial o k rest hj =>
    have hforks : m.forks = false := by
      unfold forks
      rw [hj]
      cases o <;> rfl
    rw [started_settle (m := { m with jobs := rest }) hm, hforks]
    rfl
  | @report tag o k rest hj =>
    have hforks : m.forks = false := by
      unfold forks
      rw [hj]
      cases o <;> rfl
    rw [hforks]
    rfl

/-- The tasks that a run has started are the forks it has evaluated. -/
lemma Source.started_iterate (s : Source) (policy : Policy) (n : Nat) :
    (Machine.step^[n] (s.start policy)).tasks.started = (s.start policy).forked n := by
  have hm := (s.starts policy).inOrder
  induction n with
  | zero =>
    obtain ⟨q, -, hstart⟩ := s.opens
    have hnone : (⟨[], q⟩ : Turn).acts = (none : Option Deed).toList := rfl
    have hstarted := Machine.started_of_acts { policy } ⟨[], q⟩ [.report 0] hnone
    rw [Function.iterate_zero_apply, hstart]
    exact hstarted
  | succ n ih =>
    have hobeys := (hm.iterate n).obeys
    rw [Function.iterate_succ_apply', (Machine.step_moves hobeys).started hobeys.awaiting, ih,
      Machine.forked_succ]

/-- In the run up to a moment, every queue is sent to by one process only and received from by one
process only. A process is known by its last frame. -/
def Machine.PointToPoint (m : Machine) (n : Nat) : Prop :=
  ∀ side q b b', (side, q, b) ∈ m.history using? n → (side, q, b') ∈ m.history using? n → b = b'

/-- A network that depicts a run is used as the run uses its queues. -/
lemma Depicts.pointToPoint {names : List Nat} {people : List Lineage} {failed n : Nat}
    {m m₀ : Machine} {N : Net} (h : Depicts names people (m₀.history Machine.using? n) failed m N)
    (hm : m₀.PointToPoint n) : N.PointToPoint := by
  intro side x p p' hp hp'
  obtain ⟨ρ, hρ⟩ := exists_reads h.named.nodup
  obtain ⟨q, b, huse, hb, hx⟩ := h.counted.uses side x p hp
  obtain ⟨q', b', huse', hb', hx'⟩ := h.counted.uses side x p' hp'
  obtain rfl : q = q' := QueueId.under_injective hρ.injective ((hx ρ hρ).trans (hx' ρ hρ).symm)
  obtain rfl := hm side q b b' huse huse'
  exact Option.some.inj (hb.symm.trans hb')

/-- **Programs with point-to-point queues do not depend on the schedule.** Take two runs of a valid
program without a limit, traced or not and with any intervals. If the first comes to rest, and in it
every queue is sent to by one process only and received from by one process only, then the second
comes to rest too, after as many steps, with as many queues, forks and failed forks, and with the
same outcome of the main process, if it has any, up to a renaming of the queues. -/
theorem point_to_point_runs_agree {doc : Option Json} {v : Valid} (hv : validate doc = .ok v)
    {s : Source} (hs : s = .program v.program ∨ s = .document doc) (policy policy' : Policy)
    {n : Nat} (hquiet : (Machine.step^[n] (s.start policy.unlimited)).quiet = true)
    (huse : (s.start policy.unlimited).PointToPoint n) :
    let m₀ := s.start policy.unlimited
    let m₀' := s.start policy'.unlimited
    let m := Machine.step^[n] m₀
    ∃ n', let m' := Machine.step^[n'] m₀'
      m'.quiet = true ∧ m'.steps = m.steps ∧ m'.allocated = m.allocated ∧
      m₀'.forked n' = m₀.forked n ∧
      (m₀'.history Machine.failing? n').length = (m₀.history Machine.failing? n).length ∧
      ∃ σ, Set.BijOn σ (Set.Iio m.allocated) (Set.Iio m'.allocated) ∧
        m'.outcome? 0 = (m.outcome? 0).map (Outcome.under (.ofQueues σ)) := by
  intro m₀ m₀' m
  have hruns : s.Runs v.program := by
    rcases hs with rfl | rfl
    · exact .program
    · exact .document hv rfl
  have hD : (Discipline.proper fun _ => True).Lawful := Discipline.lawful_proper fun _ _ => trivial
  have hp : ∀ g, .global g ∈ v.program.declarations →
      (Discipline.proper fun _ => True).global g.name g := fun g hg =>
    ⟨validate_proper hv hg, .of_forall (fun _ => trivial) _⟩
  obtain ⟨names, people, T, hsteps, hd⟩ := hruns.depicted hD hp policy n
  have hrests := hd.rests (hruns.regular hD hp policy n) hquiet
  obtain ⟨n', names', people', hquiet', hd'⟩ :=
    hruns.settles hD hp hsteps hrests (hd.pointToPoint huse) policy'
  obtain ⟨hsteps', hallocated, hstarted, hfailed⟩ := hd.counts_eq hd'
  rw [s.started_iterate, s.started_iterate] at hstarted
  exact ⟨n', hquiet', hsteps', hallocated, hstarted, hfailed,
    hd.outcome_eq hd' (hruns.regular hD hp policy n).inOrder
      (hruns.regular hD hp policy' n').inOrder⟩

/-- A document whose main process opens a channel and forks a task that opens another and sends it
over the first, while the main process opens a third. -/
def Json.handover : Json :=
  let var (name : String) : Json := .object [("kind", .string "var"), ("name", .string name)]
  let opening (first second : String) (body : Json) : Json :=
    .object [("kind", .string "letPair"), ("first", .string first), ("second", .string second),
      ("value", .object [("kind", .string "new")]), ("body", body)]
  let sent := Json.object [("kind", .string "app"),
    ("fn", .object [("kind", .string "send"), ("channel", var "b")]), ("arg", var "c")]
  let heard := Json.object [("kind", .string "pair"), ("name", .string "x"),
    ("first", .object [("kind", .string "recv"), ("channel", var "a")]), ("second", var "e")]
  .object [("declarations", .array [.object [("kind", .string "fun"), ("name", .string "main"),
    ("params", .array []), ("body", opening "a" "b" (.object [("kind", .string "let"),
      ("name", .string "t"),
      ("value", .object [("kind", .string "fork"), ("expr", opening "c" "d" sent)]),
      ("body", opening "e" "f" heard)]))]])]

def Program.handover : Program :=
  let var (name : String) : Expr := .var (.text name)
  let task : Expr := .letPair (.text "c") (.text "d") .channel (.app (.send (var "b")) (var "c"))
  ⟨[.global ⟨.text "main", .ok [], .letPair (.text "a") (.text "b") .channel
    (.letIn (.text "t") (.fork task) (.letPair (.text "e") (.text "f") .channel
      (.pair (.text "x") (.recv (var "a")) (var "e"))))⟩]⟩

/-- Its run, and the one that pauses at every third step, in which the channels are opened in
another order. -/
theorem point_to_point_runs_agree_handover :
    ∃ v, validate (some .handover) = .ok v ∧ v.program = .handover ∧
      let m₀ := (Source.program .handover).start (Policy.unlimited {})
      let m₀' := (Source.program .handover).start (Policy.unlimited { interval := .integer 3 })
      (Machine.step^[44] m₀).quiet = true ∧ m₀.PointToPoint 44 ∧
      ∃ n', (Machine.step^[n'] m₀').quiet = true ∧ (Machine.step^[n'] m₀').steps = 16 ∧
        (Machine.step^[n'] m₀').allocated = 6 ∧ m₀'.forked n' = 1 ∧
        (m₀'.history Machine.failing? n').length = 0 ∧
        ∃ σ, Set.BijOn σ (Set.Iio 6) (Set.Iio (Machine.step^[n'] m₀').allocated) ∧
          let channel (i j : Nat) := Value.channel ⟨.allocated (σ i), .allocated (σ j)⟩
          (Machine.step^[n'] m₀').outcome? 0 =
            some (.ok (.pair (.pair (channel 2 3) (channel 0 1)) (channel 4 5))) := by
  obtain ⟨v, hv, hp⟩ : ∃ v, validate (some .handover) = .ok v ∧ v.program = .handover :=
    ⟨_, rfl, rfl⟩
  have hquiet : (Machine.step^[44]
      ((Source.program .handover).start (Policy.unlimited {}))).quiet = true := rfl
  have huses : ((Source.program .handover).start (Policy.unlimited {})).history Machine.using? 44 =
      [(.read, .allocated 0, .report 0), (.write, .allocated 0, .settle (.text "fork-0") 0)] := rfl
  have huse : ((Source.program .handover).start (Policy.unlimited {})).PointToPoint 44 := by
    intro side q b b' h h'
    rw [huses] at h h'
    simp only [List.mem_cons, Prod.mk.injEq, List.not_mem_nil, or_false] at h h'
    rcases h with ⟨rfl, -, rfl⟩ | ⟨rfl, -, rfl⟩
    · rcases h' with ⟨-, -, rfl⟩ | ⟨hside, -⟩
      · rfl
      · cases hside
    · rcases h' with ⟨hside, -⟩ | ⟨-, -, rfl⟩
      · cases hside
      · rfl
  refine ⟨v, hv, hp, hquiet, huse, ?_⟩
  rw [← hp] at hquiet huse ⊢
  have hagree := point_to_point_runs_agree hv (.inl rfl) {} { interval := .integer 3 } hquiet huse
  rw [hp] at hagree ⊢
  exact hagree

end Parley
