import Parley.Proofs.Acceptance
import Parley.Proofs.Declarations

/-!
The order of the branches of a case expression.

Where no case expression repeats a label, a label finds the same branch in whatever order the
branches stand. So code whose branches are reordered, here and inside, is alike, and it runs in
lockstep with what it was. There is one place where the order shows: the complaint that no branch
matches lists the labels that there are.
-/

namespace Parley

/-! ### Reordered code -/

/-- Code that differs in the order of the branches of some case expressions, at any depth. -/
inductive Expr.Reordered : Expr → Expr → Prop
  /-- An expression without parts has no branches either. -/
  | leaf {e : Expr} (h : e.parts = []) : Reordered e e
  | arith (op : ArithOp) {a a' b b' : Expr} (ha : Reordered a a') (hb : Reordered b b') :
      Reordered (.arith op a b) (.arith op a' b')
  | negate {a a' : Expr} (ha : Reordered a a') : Reordered (.negate a) (.negate a')
  | succ {a a' : Expr} (ha : Reordered a a') : Reordered (.succ a) (.succ a')
  | letIn (x : Atom) {a a' b b' : Expr} (ha : Reordered a a') (hb : Reordered b b') :
      Reordered (.letIn x a b) (.letIn x a' b')
  | letPair (x y : Atom) {a a' b b' : Expr} (ha : Reordered a a') (hb : Reordered b b') :
      Reordered (.letPair x y a b) (.letPair x y a' b')
  | pair (x : Atom) {a a' b b' : Expr} (ha : Reordered a a') (hb : Reordered b b') :
      Reordered (.pair x a b) (.pair x a' b')
  | fst {a a' : Expr} (ha : Reordered a a') : Reordered (.fst a) (.fst a')
  | snd {a a' : Expr} (ha : Reordered a a') : Reordered (.snd a) (.snd a')
  | lambda (x : Atom) {a a' : Expr} (ha : Reordered a a') : Reordered (.lambda x a) (.lambda x a')
  | app {a a' b b' : Expr} (ha : Reordered a a') (hb : Reordered b b') :
      Reordered (.app a b) (.app a' b')
  | fork {a a' : Expr} (ha : Reordered a a') : Reordered (.fork a) (.fork a')
  | send {a a' : Expr} (ha : Reordered a a') : Reordered (.send a) (.send a')
  | recv {a a' : Expr} (ha : Reordered a a') : Reordered (.recv a) (.recv a')
  /-- The branches are reordered inside, and then among themselves. -/
  | caseOf {a a' : Expr} {bs cs bs' : List (Atom × Expr)} (ha : Reordered a a')
      (labels : cs.map (·.1) = bs.map (·.1))
      (inside : List.Forall₂ Reordered (bs.map (·.2)) (cs.map (·.2))) (order : cs.Perm bs')
      (rest : Option Misuse) :
      Reordered (.caseOf a bs rest) (.caseOf a' bs' rest)
  | natRec {a a' b b' c c' : Expr} (ha : Reordered a a') (hb : Reordered b b')
      (counter acc : Atom) (hc : Reordered c c') :
      Reordered (.natRec a b counter acc c) (.natRec a' b' counter acc c')

inductive Declaration.Reordered : Declaration → Declaration → Prop
  | global (name : Atom) (params : Except Misuse (List Param)) {body body' : Expr}
      (h : body.Reordered body') :
      Reordered (.global ⟨name, params, body⟩) (.global ⟨name, params, body'⟩)
  | type (name : Atom) : Reordered (.type name) (.type name)

def Program.Reordered (p p' : Program) : Prop :=
  List.Forall₂ Declaration.Reordered p.declarations p'.declarations

namespace Likeness

/-- Code without repeated labels is like code with the same branches in another order. -/
def reordered : Likeness := ⟨fun e e' => e.Distinct ∧ e.Reordered e', List.Perm, ∅⟩

/-- Branches under different labels are found in any order. -/
lemma reordered_find? {bs cs bs' : List (Atom × Expr)} (hdistinct : ∀ b ∈ bs, b.2.Distinct)
    (hnodup : (bs.map (·.1)).Nodup) (labels : cs.map (·.1) = bs.map (·.1))
    (inside : List.Forall₂ Expr.Reordered (bs.map (·.2)) (cs.map (·.2))) (order : cs.Perm bs')
    (x : Atom) : Option.Rel reordered.code (Table.find? bs x) (Table.find? bs' x) := by
  have hfind := (Table.Tied.of_columns labels inside).find? x
  have hmem : ∀ b, Table.find? bs x = some b → b.Distinct := fun b hb =>
    hdistinct (x, b) (Table.mem_of_find? hb)
  rw [Table.find?_of_perm order (labels ▸ hnodup)]
  generalize Table.find? bs x = b, Table.find? cs x = c at hfind hmem
  cases hfind with
  | none => exact .none
  | some h => exact .some ⟨hmem _ rfl, h⟩

lemma lawful_reordered : reordered.Lawful where
  layer {e e'} h := by
    obtain ⟨hdistinct, hr⟩ := h
    have hpart : ∀ {a a' : Expr}, a ∈ e.parts → a.Reordered a' → reordered.code a a' :=
      fun ha hr => ⟨hdistinct.part ha, hr⟩
    cases hr with
    | leaf h =>
      cases e with
      | unit | var | label | int | nat | channel | unknown | missing => constructor
      | _ => exact absurd h (List.cons_ne_nil _ _)
    | @caseOf a a' bs cs bs' ha labels inside order rest =>
      -- labels do not repeat, so any order finds the same branch
      have hbranch : ∀ b ∈ bs, b.2.Distinct := fun b hb =>
        hdistinct.part (.tail _ (List.mem_map.mpr ⟨b, hb, rfl⟩))
      refine .caseOf (hpart (.head _) ha)
        (reordered_find? hbranch hdistinct.here labels inside order) ?_ rest
      exact labels ▸ order.map _
    | negate ha | succ ha | fst ha | snd ha | lambda _ ha | fork ha | send ha | recv ha =>
      constructor
      exact hpart (.head _) ha
    | arith _ ha hb | letIn _ ha hb | letPair _ _ ha hb | pair _ ha hb | app ha hb =>
      constructor
      · exact hpart (.head _) ha
      · exact hpart (.tail _ (.head _)) hb
    | natRec ha hb counter acc hc =>
      exact .natRec (hpart (.head _) ha) (hpart (.tail _ (.head _)) hb) counter acc
        (hpart (.tail _ (.tail _ (.head _))) hc)
  small _ _ := ⟨.mk List.nodup_nil (by simp [Expr.parts]), .leaf rfl⟩
  showable h := (h.all_eq).symm

end Likeness

/-! ### Reordered programs -/

namespace Program

variable {p p' : Program}

lemma Reordered.functions (h : p.Reordered p') :
    List.Forall₂ (fun g g' => Declaration.Reordered (.global g) (.global g'))
      p.functions p'.functions := by
  unfold Program.Reordered at h
  unfold Program.functions
  generalize p.declarations = ds, p'.declarations = ds' at h
  induction h with
  | nil => exact .nil
  | cons hd _ ih =>
    cases hd with
    | global name params h => exact .cons (.global name params h) ih
    | type name => exact ih

/-- A name stands for reordered code, or for nothing in both programs. -/
lemma Reordered.last? (h : p.Reordered p') (x : Atom) :
    Option.Rel (fun g g' => Declaration.Reordered (.global g) (.global g'))
      (p.last? x) (p'.last? x) := by
  refine find?_of_forall₂ (List.rel_reverse h.functions) fun g g' hg => ?_
  cases hg
  rfl

lemma globals_reordered (hp : p.Distinct) (h : p.Reordered p') :
    Env.Like .reordered Set.univ p.globals p'.globals where
  loose := Set.empty_subset _
  closed _ _ _ _ _ _ := trivial
  bound x _ := by
    have hlast := h.last? x
    have hmem : ∀ g, p.last? x = some g → g.Distinct := fun g hg =>
      hp g (mem_of_last? hg)
    rw [find?_globals, find?_globals]
    generalize p.last? x = g, p'.last? x = g' at hlast hmem
    cases hlast with
    | none => exact .none
    | some hg =>
      cases hg with
      | global name params hbody => exact .global rfl rfl ⟨(hmem _ rfl).2, hbody⟩
  values x v v' _ hv _ hne := by
    rw [find?_globals] at hv
    obtain ⟨g, -, rfl⟩ := Option.map_eq_some_iff.mp hv
    exact absurd rfl (hne g)

end Program

/-! ### What is seen of it -/

/-- Wordings of faults that are the same, but for the order in which the complaint that no branch
matches lists the labels. -/
inductive Reworded : String → String → Prop
  | same (s : String) : Reworded s s
  | noCase (x : Atom) {ls ls' : List Atom} (order : ls.Perm ls') :
      Reworded (Fault.noMatchingCase x ls).message (Fault.noMatchingCase x ls').message

/-- Accounts that are the same, but for such wordings. -/
structure Report.Reworded (R R' : Report) : Prop where
  /-- The same value, or a fault of the same class. -/
  outcome : (∃ s, R.outcome = .ok s ∧ R'.outcome = .ok s) ∨
    ∃ c s s', R.outcome = .error (c, s) ∧ R'.outcome = .error (c, s') ∧ Parley.Reworded s s'
  steps : R'.steps = R.steps
  active : R'.active = R.active
  settled : R'.settled = R.settled
  /-- The same tasks have failed, and are remembered in the same order. -/
  failures : Table.Tied Parley.Reworded R.failures R'.failures
  warnings : List.Forall₂
    (fun w w' => ∃ lead s s', w = lead ++ s ∧ w' = lead ++ s' ∧ Parley.Reworded s s')
    R.warnings R'.warnings
  queues : R'.queues = R.queues
  trace : R'.trace = R.trace

lemma Fault.Like.reworded {f f' : Fault} (h : f.Like .reordered f') :
    f'.category = f.category ∧ Reworded f.message f'.message := by
  cases h with
  | same => exact ⟨rfl, .same _⟩
  | mismatch expected context hv =>
    rw [message_typeMismatch hv.kind hv.render]
    exact ⟨rfl, .same _⟩
  | noCase x order => exact ⟨rfl, .noCase x order⟩

/-- Notes that are alike make the same line, unless they tell of a fault. -/
lemma Tie.note.lines {t t' : Note} (h : Likeness.reordered.pairing.tie.note t t') :
    t'.line = t.line ∧ t.line.warning = false ∨
    ∃ lead s s', t.line = ⟨true, lead ++ s⟩ ∧ t'.line = ⟨true, lead ++ s'⟩ ∧ Reworded s s' := by
  cases h with
  | enter => exact .inl ⟨rfl, rfl⟩
  | failed task hf => exact .inr ⟨_, _, _, rfl, rfl, (Fault.Like.reworded hf).2⟩
  | leave _ hv | sent hv | received hv | finished _ hv =>
    refine .inl ⟨?_, rfl⟩
    simp only [Note.line, Note.text, Note.isWarning, Value.Like.render hv]

/-- Machines that are alike give accounts that are the same but for wordings. -/
lemma Machine.Tied.reworded {m m' : Machine} (h : m.Tied Likeness.reordered.pairing.tie m')
    {o o' : Outcome} (ho : Likeness.reordered.pairing.tie.outcome o o') :
    (⟨m, o, []⟩ : Finished).report.Reworded (⟨m', o', []⟩ : Finished).report where
  outcome := by
    cases ho with
    | ok hv => exact .inl ⟨_, rfl, congrArg Except.ok (Value.Like.render hv)⟩
    | error hf =>
      obtain ⟨hcategory, hmessage⟩ := Fault.Like.reworded hf
      exact .inr ⟨_, _, _, rfl, congrArg (fun c => Except.error (c, _)) hcategory, hmessage⟩
  steps := h.steps
  active := congrArg List.length h.tasks.running
  settled := h.tasks.settled
  failures := List.forall₂_map_left_iff.mpr <| List.forall₂_map_right_iff.mpr <|
    h.tasks.failures.imp fun _ _ he => ⟨he.1, (Fault.Like.reworded he.2).2⟩
  warnings := by
    have hlog := h.log
    simp only [Finished.report]
    generalize m.log.toList = ts, m'.log.toList = ts' at hlog
    induction hlog with
    | nil => exact .nil
    | @cons t t' ts ts' ht _ ih =>
      simp only [warningLines, List.map_cons] at ih ⊢
      rcases ht.lines with ⟨hline, hwarning⟩ | ⟨lead, s, s', hline, hline', hs⟩
      · simpa [hline, hwarning] using ih
      · simp only [hline, hline', List.filter_cons, if_true, List.map_cons]
        exact .cons ⟨lead, s, s', rfl, rfl, hs⟩ ih
  queues := h.allocated
  trace := by
    have hlog := h.log
    simp only [Finished.report]
    generalize m.log.toList = ts, m'.log.toList = ts' at hlog
    induction hlog with
    | nil => rfl
    | @cons t t' ts ts' ht _ ih =>
      simp only [traceLines, List.map_cons] at ih ⊢
      rcases ht.lines with ⟨hline, hwarning⟩ | ⟨lead, s, s', hline, hline', -⟩
      · simpa [hline, hwarning] using ih
      · simpa [hline, hline'] using ih

/-- **The order of branches is irrelevant** in a program that validation accepts. If the branches
of any of its case expressions are reordered, then under every policy both programs give the same
account after every step, but for the order in which complaints list the labels that no branch
matches. So with any fuel both come to an end or neither does, and their main processes end at the
same moment. -/
theorem Program.run_of_reordered {doc : Option Json} {v : Valid} (hv : validate doc = .ok v)
    {p' : Program} (h : v.program.Reordered p') (policy : Policy) :
    (∀ n, (v.program.after policy n).soFar.report.Reworded (p'.after policy n).soFar.report ∧
      (p'.after policy n).soFar.countsAtEnd = (v.program.after policy n).soFar.countsAtEnd ∧
      (p'.after policy n).quiet = (v.program.after policy n).quiet) ∧
    ∀ fuel,
      Option.Rel (fun f f' => f.report.Reworded f'.report ∧ f'.countsAtEnd = f.countsAtEnd)
        (v.program.run fuel policy) (p'.run fuel policy) := by
  have hstart := Machine.Tied.like_start (globals_reordered (validate_distinct hv) h)
    (Set.mem_univ _) policy
  have hsteady : Likeness.reordered.pairing.Steady := Likeness.lawful_reordered.steady
  refine ⟨fun n => ?_, fun fuel => ?_⟩
  · have hn := hstart.iterate Likeness.lawful_pairing hsteady n
    exact ⟨hn.reworded (hn.conclude (.same _)), hn.countsAtEnd, hn.quiet_eq⟩
  · have hdrain := hstart.drain Likeness.lawful_pairing hsteady fuel
    unfold Program.run Finished.ofMachine
    generalize Machine.drain fuel (Machine.startProgram _ v.program _) = r,
      Machine.drain fuel (Machine.startProgram _ p' _) = r' at hdrain ⊢
    cases hdrain with
    | none => exact .none
    | some hr => exact .some ⟨hr.reworded (hr.conclude (.same _)), hr.countsAtEnd⟩

/-- A document whose main process forks a case expression that offers two labels, but not the one
it is given, and then chooses between the same labels itself. -/
def Json.offers (order : List Json → List Json) : Json :=
  let label (x : String) : Json := .object [("kind", .string "label"), ("name", .string x)]
  let choice (x : String) : Json :=
    .object [("kind", .string "case"), ("scrutinee", label x),
      ("branches", .array (order
        [.object [("label", .string "a"), ("body", label "first")],
          .object [("label", .string "b"), ("body", label "second")]]))]
  .object [("declarations", .array [.object [("kind", .string "fun"), ("name", .string "main"),
    ("params", .array []), ("body", .object [("kind", .string "let"), ("name", .string "done"),
      ("value", .object [("kind", .string "fork"), ("expr", choice "c")]),
      ("body", choice "b")])]])]

/-- The two orders, which show in the wording of the fork's fault. -/
theorem Program.run_of_reordered_offers :
    ∃ v v', validate (some (.offers id)) = .ok v ∧ validate (some (.offers .reverse)) = .ok v' ∧
      v.program.Reordered v'.program ∧ ∃ r r', v.program.run 40 {} = some r ∧
      v'.program.run 40 {} = some r' ∧ r.report.Reworded r'.report ∧
      r.report.failures = [(.text "fork-0", "No case for label 'c (branches: 'a, 'b)")] ∧
      r'.report.failures = [(.text "fork-0", "No case for label 'c (branches: 'b, 'a)")] := by
  have hchoice : ∀ {a b c : Expr} {x y : Atom}, a.parts = [] → b.parts = [] → c.parts = [] →
      (Expr.caseOf a [(x, b), (y, c)] none).Reordered (.caseOf a [(y, c), (x, b)] none) :=
    fun ha hb hc => .caseOf (.leaf ha) rfl (.cons (.leaf hb) (.cons (.leaf hc) .nil)) (.swap ..) _
  have hreordered : (Program.ofJson (.offers id)).Reordered (Program.ofJson (.offers .reverse)) :=
    .cons (.global _ _ (.letIn _ (.fork (hchoice rfl rfl rfl)) (hchoice rfl rfl rfl))) .nil
  have hrun := (@run_of_reordered (some (.offers id)) _ rfl _ hreordered {}).2 40
  refine ⟨_, _, rfl, rfl, hreordered, _, _, rfl, rfl, ?_, rfl, rfl⟩
  exact (Option.rel_some_some.mp hrun).1

end Parley
