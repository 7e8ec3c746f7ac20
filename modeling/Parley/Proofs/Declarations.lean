import Parley.Proofs.Likeness

/-!
What the names of a program stand for.

A name stands for the last function declaration of that name, wherever it is declared. Nothing
else about the declarations of a program matters to its runs: two programs with the same last
declarations start in environments that bind the same names to the same globals, though not in
the same order, and this is a likeness that leaves all code as it is.
-/

namespace Parley

namespace Program

def functions (p : Program) : List Global :=
  p.declarations.filterMap fun d => match d with
    | .global g => some g
    | .type _ => none

def last? (p : Program) (x : Atom) : Option Global :=
  p.functions.reverse.find? fun g => g.name = x

lemma mem_functions {p : Program} {g : Global} : g ∈ p.functions ↔ .global g ∈ p.declarations := by
  simp only [functions, List.mem_filterMap]
  constructor
  · rintro ⟨d, hd, hg⟩
    cases d with
    | global g' => exact Option.some.inj hg ▸ hd
    | type x => cases hg
  · exact fun h => ⟨_, h, rfl⟩

lemma mem_of_last? {p : Program} {x : Atom} {g : Global} (h : p.last? x = some g) :
    .global g ∈ p.declarations :=
  mem_functions.mp (List.mem_reverse.mp (List.mem_of_find?_eq_some h))

lemma last?_eq_none_iff {p : Program} {x : Atom} :
    p.last? x = none ↔ ∀ g, .global g ∈ p.declarations → g.name ≠ x := by
  simp only [last?, List.find?_eq_none, List.mem_reverse, mem_functions, decide_eq_true_eq, ne_eq]

/-- **A name stands for its last declaration.** -/
theorem find?_globals (p : Program) (x : Atom) :
    Table.find? p.globals x = (p.last? x).map .global := by
  have hentries : p.globals =
      Table.setAll [] (p.functions.map fun g => (g.name, Value.global g)) := by
    unfold globals Env.ofDeclarations Table.ofEntries functions
    rw [List.map_filterMap]
    congr 2
    funext d
    cases d <;> rfl
  have hfind : ∀ gs : List Global, Table.find? (gs.map fun g => (g.name, Value.global g)) x =
      (gs.find? fun g => g.name = x).map .global := by
    intro gs
    induction gs with
    | nil => rfl
    | cons g gs ih =>
      simp only [List.map_cons, Table.find?, List.find?_cons]
      split <;> simp_all
  rw [hentries, Table.find?_setAll, ← List.map_reverse, hfind]
  simp [last?, Table.find?]

lemma main?_eq_last? (p : Program) : p.main? = p.last? (.text entry) := by
  unfold main?
  rw [find?_globals]
  cases p.last? (.text entry) <;> rfl

lemma last?_of_mem_globals {p : Program} {x : Atom} {g : Global} (h : (x, .global g) ∈ p.globals) :
    p.last? x = some g := by
  have hfind : Table.find? p.globals x = some (.global g) :=
    Table.find?_of_mem (Table.nodup_setAll (t := []) List.nodup_nil _) h
  rw [find?_globals] at hfind
  obtain ⟨g', hg', heq⟩ := Option.map_eq_some_iff.mp hfind
  cases heq
  exact hg'

/-! ### What a run keeps to -/

/-- In the runs of a program a name stands for no other global than its last declaration, and it
is said that there is no main declaration only if there is none. -/
def discipline (p : Program) : Discipline :=
  { Discipline.any with
    global := fun x g => p.last? x = some g
    fault := fun f => f = .noMainDeclaration ∧ p.main? = none }

lemma lawful_discipline (p : Program) : p.discipline.Lawful :=
  { Discipline.lawful_any with
    body := fun _ => .of_forall (fun _ => trivial) _
    params := fun _ _ _ _ => trivial }

lemma globals_discipline (p : Program) (n : Nat) : Env.Obeys p.discipline n p.globals := by
  refine ⟨fun b hb hv => ?_, fun b hb g hg => ?_⟩
  · obtain ⟨g, -, rfl⟩ := mem_globals hb
    exact absurd rfl (hv g)
  · obtain ⟨x, v⟩ := b
    cases hg
    exact last?_of_mem_globals hb

lemma obeys_discipline (policy : Policy) (p : Program) (n : Nat) :
    (p.after policy n).Obeys p.discipline := by
  have hreport : Stack.Obeys p.discipline 0 [.report 0] := fun f hf => by
    rw [List.mem_singleton.mp hf]
    exact .inr trivial
  have hfresh := Machine.Obeys.fresh p.discipline policy
  refine Machine.Obeys.iterate p.lawful_discipline ?_ n
  cases hmain : p.main? with
  | some g => exact hfresh.startProgram p.lawful_discipline hreport (p.globals_discipline 0) hmain
  | none =>
    simp only [Machine.startProgram, hmain]
    exact hfresh.resume hreport (.given ⟨rfl, hmain⟩)

def EndsWithoutMain (policy : Policy) (p : Program) : Prop :=
  ∃ fuel f, p.run fuel policy = some f ∧ f.outcome = .error .noMainDeclaration

/-- There is that complaint exactly if no function declaration has the name. -/
lemma endsWithoutMain_iff {policy : Policy} {p : Program} :
    p.EndsWithoutMain policy ↔ ∀ g, .global g ∈ p.declarations → g.name ≠ .text entry := by
  rw [← last?_eq_none_iff, ← main?_eq_last?]
  constructor
  · rintro ⟨fuel, f, hrun, hf⟩
    obtain ⟨n, -, rfl⟩ := Finished.exists_of_ofMachine hrun
    cases ho : Machine.outcome? (Machine.step^[n] _) 0 with
    | none =>
      rw [ho] at hf
      cases hf
    | some o =>
      rw [ho] at hf
      obtain ⟨e, he, rfl⟩ := Option.map_eq_some_iff.mp ho
      have hobeys := (p.obeys_discipline policy n).events e (Array.mem_of_find?_eq_some he)
      rw [show e.outcome = .error .noMainDeclaration from hf] at hobeys
      exact (Fault.Arises.given_of_isForeign hobeys trivial).2
  · intro hmain
    refine ⟨2, ⟨({ policy } : Machine).report 0 (.error .noMainDeclaration),
      .error .noMainDeclaration, []⟩, ?_, rfl⟩
    simp only [run, Machine.startProgram, hmain]
    rfl

end Program

/-! ### Programs with the same last declarations -/

def Likeness.same (loose : Set Atom) : Likeness := ⟨Eq, Eq, loose⟩

lemma Likeness.lawful_same {loose : Set Atom} : (same loose).Lawful where
  layer {e e'} h := by
    obtain rfl : e = e' := h
    have hrel : ∀ b : Option Expr, Option.Rel (same loose).code b b := by
      intro b
      cases b with
      | none => exact .none
      | some b => exact .some rfl
    cases e with
    | caseOf a bs rest => exact .caseOf rfl (fun x => hrel _) rfl rest
    | _ => constructor <;> rfl
  small _ _ := rfl
  showable h := by rw [show _ = _ from h]

lemma Program.globals_same {p p' : Program} (h : ∀ x, p'.last? x = p.last? x) :
    Env.Like (.same ∅) Set.univ p.globals p'.globals where
  loose := Set.empty_subset _
  closed _ _ _ _ _ _ := trivial
  bound x _ := by
    rw [find?_globals, find?_globals, h]
    cases p.last? x with
    | none => exact .none
    | some g => exact .global rfl rfl rfl
  values x v v' _ hv _ hne := by
    rw [find?_globals] at hv
    obtain ⟨g, -, rfl⟩ := Option.map_eq_some_iff.mp hv
    exact absurd rfl (hne g)

/-- **A program means its last declarations.** Programs with the same last function declaration
of every name, whatever else they declare and in whatever order, run in the same way under the
same policy: they give the same account after every step, also in runs without end, with the same
fuel both come to an end or neither does, and their main processes end at the same moment. In
particular each complains of a missing main declaration exactly if it has none. -/
theorem Program.run_of_last?_eq {p p' : Program} (h : ∀ x, p'.last? x = p.last? x)
    (policy : Policy) :
    (∀ n, (p'.after policy n).glimpse = (p.after policy n).glimpse) ∧
    (∀ fuel, (p'.run fuel policy).map (fun f => (f.report, f.countsAtEnd)) =
      (p.run fuel policy).map fun f => (f.report, f.countsAtEnd)) ∧
    (p.EndsWithoutMain policy ↔ ∀ g, .global g ∈ p.declarations → g.name ≠ .text entry) ∧
    (p'.EndsWithoutMain policy ↔ ∀ g, .global g ∈ p'.declarations → g.name ≠ .text entry) := by
  obtain ⟨hsteps, hruns⟩ := run_like Likeness.lawful_same (fun _ _ hls => hls.symm)
    (globals_same h) (Set.mem_univ _) policy
  exact ⟨hsteps, hruns, endsWithoutMain_iff, endsWithoutMain_iff⟩

/-- A main declaration that refers to a global, with an earlier declaration of that global and a
type of its name around it. -/
def Program.redeclared : Program :=
  ⟨[.global ⟨.text "one", .ok [], .unit⟩, .global ⟨.text entry, .ok [], .var (.text "one")⟩,
    .type (.text "one"), .global ⟨.text "one", .ok [], .int (.number (.integer 1))⟩]⟩

/-- The same without what is passed over, and in another order. -/
def Program.tidied : Program :=
  ⟨[.global ⟨.text "one", .ok [], .int (.number (.integer 1))⟩,
    .global ⟨.text entry, .ok [], .var (.text "one")⟩]⟩

theorem Program.run_tidied :
    (∀ x, tidied.last? x = redeclared.last? x) ∧
    (tidied.after {} 4).glimpse = (redeclared.after {} 4).glimpse ∧
    (redeclared.run 9 {}).isSome = true ∧
    (tidied.run 9 {}).map (fun f => (f.report, f.countsAtEnd)) =
      (redeclared.run 9 {}).map fun f => (f.report, f.countsAtEnd) := by
  have hlast : ∀ x, tidied.last? x = redeclared.last? x := by
    intro x
    have hne : ¬ (.text "one" = x ∧ .text entry = x) := by
      rintro ⟨rfl, h⟩
      simp [entry] at h
    simp only [last?, functions, tidied, redeclared, List.filterMap_cons, List.filterMap_nil,
      List.reverse_cons, List.reverse_nil, List.nil_append, List.cons_append, List.find?_cons,
      List.find?_nil]
    by_cases hone : .text "one" = x <;> by_cases hmain : .text entry = x <;> simp_all
  obtain ⟨hsteps, hruns, -⟩ := run_of_last?_eq hlast {}
  exact ⟨hlast, hsteps 4, rfl, hruns 9⟩

end Parley
