import Mathlib
import Parley.Proofs.Location

/-!
Repeated names. The findings about a document of the right form are its repetitions: the
parameters and the labels that stand before in the same list. Each is found once, at the place of
the name, and they come in the order in which the document is walked.

The repetitions are told from the document alone. The walk goes through the program that is read
from it, so the parts of an expression are first matched with the places of the document.
-/

namespace Parley

open Form

/-! ### Walking a document -/

namespace Json

/-- What a step leads to: a member of an object, or an item of a list by its number. -/
def step? : Json → String → Option Json
  | object members, step => Table.find? members step
  | array items, step => (items.zipIdx.find? fun e => toString e.2 = step).map (·.1)
  | _, _ => none

def walk? (j : Json) (steps : List String) : Option Json := steps.foldlM step? j

lemma walk?_cons (j : Json) (step : String) (rest : List String) :
    j.walk? (step :: rest) = (j.step? step).bind (walk? · rest) := List.foldlM_cons

lemma step?_toString (items : List Json) (n : Nat) :
    (array items).step? (toString n) = items[n]? := by
  have hfind : ∀ (items : List Json) (k : Nat), k ≤ n →
      ((items.zipIdx k).find? fun e => toString e.2 = toString n).map (·.1) = items[n - k]? := by
    intro items
    induction items with
    | nil => simp
    | cons i rest ih =>
      intro k hk
      by_cases hkn : k = n
      · simp [List.zipIdx_cons, hkn]
      · have hne : toString k ≠ toString n := fun h => hkn (Nat.repr_injective h)
        rw [List.zipIdx_cons, List.find?_cons_of_neg (by simpa using hne), ih (k + 1) (by omega)]
        obtain ⟨m, hm⟩ : ∃ m, n - k = m + 1 := ⟨n - k - 1, by omega⟩
        rw [hm, List.getElem?_cons_succ]
        congr 1
        omega
  exact hfind items 0 (Nat.zero_le n)

end Json

namespace Form.Leads

variable {s t u : Shape} {j i c : Json} {p q : Path}

lemma walk? (h : Leads s j p t i) : j.walk? (p.map Segment.text) = some i := by
  induction h with
  | here => rfl
  | member _ _ hj _ ih =>
    rw [List.map_cons, Json.walk?_cons, Segment.text, Json.step?, hj]
    exact ih
  | item _ hj _ ih =>
    rw [List.map_cons, Json.walk?_cons, Segment.text, Json.step?_toString, hj]
    exact ih

lemma trans (h : Leads s j p t i) (h' : Leads t i q u c) : Leads s j (p ++ q) u c := by
  induction h with
  | here => exact h'
  | member hl hf hj _ ih => exact .member hl hf hj (ih h')
  | item ht hj _ ih => exact .item ht hj (ih h')

/-- Within one document the texts of the steps tell paths apart. -/
lemma path_inj (h : Leads s j p t i) (h' : Leads s j q u c)
    (he : p.map Segment.text = q.map Segment.text) : p = q := by
  induction h generalizing q with
  | here => exact (List.map_eq_nil_iff.mp he.symm).symm
  | member hl hf hj _ ih =>
    cases h' with
    | here => simp at he
    | member hl' hf' hj' rest =>
      simp only [List.map_cons, List.cons.injEq, Segment.text] at he
      obtain ⟨rfl, he⟩ := he
      cases hl.symm.trans hl'
      cases hj.symm.trans hj'
      -- a layout gives one shape to a name
      have hn := (List.nodup_cons.mp (names_nodup (layoutFor?_mem hl))).2
      cases (Table.find?_of_mem hn hf).symm.trans (Table.find?_of_mem hn hf')
      rw [ih rest he]
  | item ht hj _ ih =>
    cases h' with
    | here => simp at he
    | item ht' hj' rest =>
      simp only [List.map_cons, List.cons.injEq, Segment.text] at he
      obtain ⟨hn, he⟩ := he
      cases Nat.repr_injective hn
      cases ht.symm.trans ht'
      cases hj.symm.trans hj'
      rw [ih rest he]

/-- Nothing is inside a value that is not looked into. -/
lemma of_leaf (hs : s ∈ [.name, .integer, .anything]) (h : Leads s j p t i) :
    p = [] ∧ t = s ∧ i = j := by
  cases h with
  | here => exact ⟨rfl, rfl, rfl⟩
  | member hl =>
    simp only [List.mem_cons, List.not_mem_nil, or_false] at hs
    rcases hs with rfl | rfl | rfl <;> cases layoutFor?_mem hl
  | item ht =>
    simp only [List.mem_cons, List.not_mem_nil, or_false] at hs
    rcases hs with rfl | rfl | rfl <;> cases ht

end Form.Leads

/-! ### Repetitions in documents -/

def Json.textAt? (items : List Json) (name : String) (n : Nat) : Option String :=
  items[n]?.bind fun j => (j.get? name).bind Json.asString?

/-- The text under a name in an item is also in an item before it. -/
def Json.Again (items : List Json) (name : String) (n : Nat) (x : String) : Prop :=
  textAt? items name n = some x ∧ ∃ k < n, textAt? items name k = some x

def Finding.under (p : Path) (f : Finding) : Finding := { f with path := p ++ f.path }

/-- The repeated labels in a document of an expression: those of the case expressions at any
depth of it. -/
inductive RepeatsLabel (b : Json) : Finding → Prop
  | mk {p : Path} {c : Json} {bs : List Json} {n : Nat} {x : String}
      (inside : Leads .expr b p .expr c) (kind : c.get? "kind" = some (.string "case"))
      (branches : c.get? "branches" = some (.array bs)) (again : Json.Again bs "label" n x) :
      RepeatsLabel b
        ⟨p ++ [.key "branches", .index n, .key "label"], .duplicateLabel (.text x)⟩

/-- The repetitions in a document of a function declaration: its repeated parameters, and the
repeated labels in its body. -/
inductive RepeatsName (d : Json) : Finding → Prop
  | parameter {g x : String} {ps : List Json} {n : Nat}
      (kind : d.get? "kind" = some (.string "fun")) (name : d.get? "name" = some (.string g))
      (params : d.get? "params" = some (.array ps)) (again : Json.Again ps "name" n x) :
      RepeatsName d
        ⟨[.key "params", .index n, .key "name"], .duplicateParameter (.text g) (.text x)⟩
  | label {b : Json} {f : Finding} (kind : d.get? "kind" = some (.string "fun"))
      (body : d.get? "body" = some b) (h : RepeatsLabel b f) :
      RepeatsName d (f.under [.key "body"])

inductive Repeats (doc : Json) : Finding → Prop
  | mk {ds : List Json} {i : Nat} {d : Json} {f : Finding}
      (declarations : doc.get? "declarations" = some (.array ds)) (there : ds[i]? = some d)
      (h : RepeatsName d f) : Repeats doc (f.under [.key "declarations", .index i])

/-! ### Repeated names in a list -/

lemma mem_repeated {seen xs : List Atom} {n k : Nat} {x : Atom} :
    (k, x) ∈ repeated seen n xs ↔
      ∃ i, k = n + i ∧ xs[i]? = some x ∧ (x ∈ seen ∨ ∃ i' < i, xs[i']? = some x) := by
  induction xs generalizing seen n with
  | nil => simp [repeated]
  | cons y rest ih =>
    have hrest : (k, x) ∈ repeated (y :: seen) (n + 1) rest ↔
        ∃ i, k = n + (i + 1) ∧ rest[i]? = some x ∧
          (x = y ∨ x ∈ seen ∨ ∃ i' < i, rest[i']? = some x) := by
      rw [ih]
      simp only [List.mem_cons, or_assoc, Nat.add_assoc, Nat.add_comm 1]
    have hsplit : (∃ i, k = n + i ∧ (y :: rest)[i]? = some x ∧
          (x ∈ seen ∨ ∃ i' < i, (y :: rest)[i']? = some x)) ↔
        (k = n ∧ x = y ∧ x ∈ seen) ∨ (k, x) ∈ repeated (y :: seen) (n + 1) rest := by
      rw [hrest]
      constructor
      · rintro ⟨i, rfl, hi, hs⟩
        cases i with
        | zero => exact .inl ⟨rfl, by simpa [eq_comm] using hi, by simpa using hs⟩
        | succ i =>
          refine .inr ⟨i, rfl, by simpa using hi, ?_⟩
          rcases hs with hs | ⟨i', hlt, hi'⟩
          · exact .inr (.inl hs)
          · cases i' with
            | zero => exact .inl (by simpa [eq_comm] using hi')
            | succ i' => exact .inr (.inr ⟨i', by omega, by simpa using hi'⟩)
      · rintro (⟨rfl, rfl, hs⟩ | ⟨i, rfl, hi, hs⟩)
        · exact ⟨0, rfl, rfl, .inl hs⟩
        · refine ⟨i + 1, rfl, by simpa using hi, ?_⟩
          rcases hs with rfl | hs | ⟨i', hlt, hi'⟩
          · exact .inr ⟨0, by omega, rfl⟩
          · exact .inl hs
          · exact .inr ⟨i' + 1, by omega, by simpa using hi'⟩
    rw [hsplit, repeated]
    -- a name that was seen before is repeated here, and adds nothing to what was seen
    by_cases hy : y ∈ seen
    · rw [if_pos (by simpa using hy)]
      have hseen : (k, x) ∈ repeated seen (n + 1) rest ↔
          (k, x) ∈ repeated (y :: seen) (n + 1) rest := by
        rw [ih, ih]
        have hmem : x ∈ seen ↔ x ∈ y :: seen :=
          ⟨List.mem_cons_of_mem _, fun h => (List.mem_cons.mp h).elim (fun e => e ▸ hy) id⟩
        simp only [hmem]
      simp only [List.mem_cons, Prod.mk.injEq, hseen]
      refine or_congr_left ⟨fun h => ⟨h.1, h.2, h.2 ▸ hy⟩, fun h => ⟨h.1, h.2.1⟩⟩
    · rw [if_neg (by simpa using hy)]
      refine ⟨.inr, fun h => h.resolve_left ?_⟩
      rintro ⟨-, rfl, hs⟩
      exact hy hs

lemma repeated_sorted (seen : List Atom) (n : Nat) (xs : List Atom) :
    (repeated seen n xs).Pairwise (fun a b => a.1 < b.1) ∧ ∀ a ∈ repeated seen n xs, n ≤ a.1 := by
  induction xs generalizing seen n with
  | nil => simp [repeated]
  | cons x rest ih =>
    rw [repeated]
    split
    · obtain ⟨hs, hn⟩ := ih seen (n + 1)
      refine ⟨List.pairwise_cons.mpr ⟨fun a ha => hn a ha, hs⟩,
        List.forall_mem_cons.mpr ⟨Nat.le_refl n, fun a ha => ?_⟩⟩
      exact Nat.le_of_succ_le (hn a ha)
    · obtain ⟨hs, hn⟩ := ih (x :: seen) (n + 1)
      exact ⟨hs, fun a ha => Nat.le_of_succ_le (hn a ha)⟩

/-- Lists that agree item by item have their items at the same places. -/
lemma exists_getElem?_of_forall₂ {α β : Type} {R : α → β → Prop} {xs : List α} {ys : List β}
    (h : List.Forall₂ R xs ys) {n : Nat} {x : α} (hx : xs[n]? = some x) :
    ∃ y, ys[n]? = some y ∧ R x y := by
  induction h generalizing n with
  | nil => simp at hx
  | cons hxy _ ih =>
    cases n with
    | zero =>
      cases hx
      exact ⟨_, rfl, hxy⟩
    | succ n => exact ih hx

def AreTexts (name : String) (xs : List Atom) (items : List Json) : Prop :=
  List.Forall₂ (fun x i => ∃ s, x = .text s ∧ i.get? name = some (.string s)) xs items

lemma AreTexts.getElem? {name : String} {xs : List Atom} {items : List Json}
    (h : AreTexts name xs items) (n : Nat) :
    xs[n]? = (Json.textAt? items name n).map Atom.text := by
  induction h generalizing n with
  | nil => simp [Json.textAt?]
  | cons hi _ ih =>
    obtain ⟨s, rfl, hi⟩ := hi
    cases n with
    | zero => simp [Json.textAt?, hi, Json.asString?]
    | succ n => simpa [Json.textAt?] using ih n

lemma AreTexts.mem_repeated_iff {name : String} {xs : List Atom} {items : List Json}
    (h : AreTexts name xs items) {n : Nat} {x : Atom} :
    (n, x) ∈ repeated [] 0 xs ↔ ∃ s, x = .text s ∧ Json.Again items name n s := by
  simp only [mem_repeated, h.getElem?, Nat.zero_add, Option.map_eq_some_iff, List.not_mem_nil,
    false_or]
  constructor
  · rintro ⟨_, rfl, ⟨s, hs, rfl⟩, k, hk, s', hs', he⟩
    cases he
    exact ⟨s, rfl, hs, k, hk, hs'⟩
  · rintro ⟨s, rfl, hs, k, hk, hs'⟩
    exact ⟨n, rfl, ⟨s, hs, rfl⟩, k, hk, s, hs', rfl⟩

/-! ### The order of the walk -/

/-- When the walk comes to a member, among those that it goes through. -/
def walkOrder : String → Nat
  | "right" | "body" | "second" | "arg" | "zero" => 1
  | "step" => 2
  | _ => 0

/-- The walk comes to places in the lexical order of their ranks. Parameters come before the
body; the labels of a case expression come before its scrutinee, and that before the branches;
lists are walked from the first item to the last. -/
def Path.rank : Path → List Nat
  | .key "branches" :: .index n :: .key "label" :: p => 0 :: n :: rank p
  | .key "scrutinee" :: p => 1 :: rank p
  | .key "branches" :: .index n :: .key "body" :: p => 2 :: n :: rank p
  | .key name :: p => walkOrder name :: rank p
  | .index n :: p => n :: rank p
  | [] => []

def Finding.Before (f g : Finding) : Prop := f.path.rank < g.path.rank

/-! ### The walk through an expression -/

namespace Expr

/-- The parts of an expression with the steps that lead to them, in the order of the walk. -/
def steps : Expr → List (Path × Expr)
  | unit | var _ | label _ | int _ | nat _ | channel | unknown _ _ | missing _ => []
  | arith _ a b => [([.key "left"], a), ([.key "right"], b)]
  | negate a | succ a | fst a | snd a | fork a => [([.key "expr"], a)]
  | letIn _ a b | letPair _ _ a b => [([.key "value"], a), ([.key "body"], b)]
  | pair _ a b => [([.key "first"], a), ([.key "second"], b)]
  | lambda _ a => [([.key "body"], a)]
  | app f a => [([.key "fn"], f), ([.key "arg"], a)]
  | send a | recv a => [([.key "channel"], a)]
  | caseOf a bs _ => ([.key "scrutinee"], a) ::
      bs.zipIdx.map fun b => ([.key "branches", .index b.2, .key "body"], b.1.2)
  | natRec a b _ _ c => [([.key "index"], a), ([.key "zero"], b), ([.key "step"], c)]

def ownFindings (e : Expr) : List Finding :=
  (repeated [] 0 e.labels).map fun r =>
    ⟨[.key "branches", .index r.1, .key "label"], .duplicateLabel r.2⟩

lemma parts_eq_steps (e : Expr) : e.parts = e.steps.map (·.2) := by
  cases e with
  | caseOf a bs rest =>
    have hbs : bs.zipIdx.map (·.1.2) = bs.map (·.2) := calc
      bs.zipIdx.map (·.1.2) = (bs.zipIdx.map (·.1)).map (·.2) := (List.map_map ..).symm
      _ = bs.map (·.2) := by rw [List.zipIdx_map_fst]
    simp [parts, steps, Function.comp_def, hbs]
  | _ => rfl

lemma mem_parts_of_mem_steps {e : Expr} {s : Path × Expr} (h : s ∈ e.steps) : s.2 ∈ e.parts :=
  e.parts_eq_steps ▸ List.mem_map_of_mem h

lemma branchFindings_eq (p : Path) (n : Nat) (bs : List (Atom × Expr)) :
    branchFindings p n bs = (bs.zipIdx n).flatMap fun b =>
      b.1.2.findings (p ++ [.key "branches", .index b.2, .key "body"]) := by
  induction bs generalizing n with
  | nil => rfl
  | cons b rest ih => simp [branchFindings, ih]

lemma findings_eq_steps (e : Expr) (p : Path) :
    e.findings p =
      e.ownFindings.map (·.under p) ++ e.steps.flatMap fun s => s.2.findings (p ++ s.1) := by
  cases e with
  | caseOf a bs rest =>
    simp [findings, ownFindings, labels, steps, branchFindings_eq, Finding.under,
      List.flatMap_map, Function.comp_def]
  | _ => simp [findings, ownFindings, labels, repeated, steps]

/-- What is found at a place is found from further up too. -/
lemma findings_append (e : Expr) : ∀ p q, e.findings (p ++ q) = (e.findings q).map (·.under p) := by
  induction e using induction_on_parts with
  | h e ih =>
    intro p q
    rw [findings_eq_steps, findings_eq_steps e q, List.map_append, List.map_map, List.map_flatMap]
    congr 1
    · simp [Finding.under, Function.comp_def]
    · refine List.flatMap_congr fun s hs => ?_
      rw [List.append_assoc]
      exact ih s.2 (mem_parts_of_mem_steps hs) p (q ++ s.1)

lemma findings_at (e : Expr) (p : Path) : e.findings p = (e.findings []).map (·.under p) := by
  rw [← findings_append, List.append_nil]

lemma findings_nil (e : Expr) : e.findings [] =
    e.ownFindings ++ e.steps.flatMap fun s => (s.2.findings []).map (·.under s.1) := by
  rw [findings_eq_steps]
  congr 1
  · simp [Finding.under]
  · exact List.flatMap_congr fun s _ => s.2.findings_at s.1

/-- Whatever is behind steps, the order is that of what is behind them. -/
lemma rank_steps {e : Expr} {s : Path × Expr} (h : s ∈ e.steps) :
    ∃ r, ∀ q, Path.rank (s.1 ++ q) = r ++ q.rank := by
  cases e with
  | caseOf a bs rest =>
    rcases List.mem_cons.mp h with rfl | h
    · exact ⟨[1], fun q => rfl⟩
    · obtain ⟨b, hb, rfl⟩ := List.mem_map.mp h
      exact ⟨[2, b.2], fun q => rfl⟩
  | natRec a b x y c =>
    simp only [steps, List.mem_cons, List.not_mem_nil, or_false] at h
    rcases h with rfl | rfl | rfl
    · exact ⟨[0], fun q => rfl⟩
    · exact ⟨[1], fun q => rfl⟩
    · exact ⟨[2], fun q => rfl⟩
  | lambda x a =>
    obtain rfl := List.mem_singleton.mp h
    exact ⟨[1], fun q => rfl⟩
  | arith | letIn | letPair | pair | app =>
    simp only [steps, List.mem_cons, List.not_mem_nil, or_false] at h
    rcases h with rfl | rfl
    · exact ⟨[0], fun q => rfl⟩
    · exact ⟨[1], fun q => rfl⟩
  | negate | succ | fst | snd | fork | send | recv =>
    obtain rfl := List.mem_singleton.mp h
    exact ⟨[0], fun q => rfl⟩
  | _ => cases h

lemma steps_sorted (e : Expr) : e.steps.Pairwise fun s t =>
    ∀ p q, Path.rank (s.1 ++ p) < Path.rank (t.1 ++ q) := by
  cases e with
  | caseOf a bs rest =>
    have hidx : bs.zipIdx.Pairwise fun b c => b.2 < c.2 := by
      rw [← List.pairwise_map (f := Prod.snd), List.zipIdx_map_snd]
      exact List.pairwise_lt_range'
    refine List.pairwise_cons.mpr ⟨fun t ht p q => ?_, List.pairwise_map.mpr ?_⟩
    · obtain ⟨b, -, rfl⟩ := List.mem_map.mp ht
      simp [Path.rank, List.cons_lt_cons_iff]
    · exact hidx.imp fun h p q => by simp [Path.rank, List.cons_lt_cons_iff, h]
  | _ => simp [steps, Path.rank, walkOrder, List.cons_lt_cons_iff]

lemma ownFindings_sorted (e : Expr) : e.ownFindings.Pairwise Finding.Before :=
  List.pairwise_map.mpr <| (repeated_sorted [] 0 e.labels).1.imp fun h => by
    simp [Finding.Before, Path.rank, List.cons_lt_cons_iff, h]

lemma ownFindings_before {e : Expr} {f : Finding} (hf : f ∈ e.ownFindings) {s : Path × Expr}
    (hs : s ∈ e.steps) (q : Path) : f.path.rank < Path.rank (s.1 ++ q) := by
  obtain ⟨r, hr, rfl⟩ := List.mem_map.mp hf
  cases e with
  | caseOf a bs rest =>
    rcases List.mem_cons.mp hs with rfl | hs
    · simp [Path.rank, List.cons_lt_cons_iff]
    · obtain ⟨b, -, rfl⟩ := List.mem_map.mp hs
      simp [Path.rank, List.cons_lt_cons_iff]
  | _ => cases hr

/-- The findings in an expression come in the order of the walk. -/
lemma findings_sorted (e : Expr) : (e.findings []).Pairwise Finding.Before := by
  induction e using induction_on_parts with
  | h e ih =>
    rw [findings_nil, List.pairwise_append, List.pairwise_flatMap]
    refine ⟨e.ownFindings_sorted, ⟨fun s hs => ?_, ?_⟩, fun f hf g hg => ?_⟩
    · obtain ⟨r, hr⟩ := rank_steps hs
      refine List.pairwise_map.mpr ((ih s.2 (mem_parts_of_mem_steps hs)).imp fun {f g} h => ?_)
      simp only [Finding.Before, Finding.under, hr]
      exact List.append_left_lt h
    · refine e.steps_sorted.imp fun h f hf g hg => ?_
      obtain ⟨f, -, rfl⟩ := List.mem_map.mp hf
      obtain ⟨g, -, rfl⟩ := List.mem_map.mp hg
      exact h f.path g.path
    · obtain ⟨s, hs, hg⟩ := List.mem_flatMap.mp hg
      obtain ⟨g, -, rfl⟩ := List.mem_map.mp hg
      exact ownFindings_before hf hs g.path

end Expr

/-! ### Expressions and their documents -/

namespace Form

/-- The parts of a document of an expression: the members that are expressions, and the bodies of
the branches. -/
inductive HasPart : Json → Path → Json → Prop
  | member {l : Layout} {members : List (String × Json)} {name : String} {j : Json}
      (hl : Shape.layoutFor? .expr members = some l) (hf : (name, .expr) ∈ l.fields)
      (hj : Table.find? members name = some j) : HasPart (.object members) [.key name] j
  | branch {l : Layout} {members b : List (String × Json)} {bs : List Json} {n : Nat} {j : Json}
      (hl : Shape.layoutFor? .expr members = some l) (hf : ("branches", .branches) ∈ l.fields)
      (hbs : Table.find? members "branches" = some (.array bs)) (hb : bs[n]? = some (.object b))
      (hj : Table.find? b "body" = some j) :
      HasPart (.object members) [.key "branches", .index n, .key "body"] j

lemma HasPart.leads {j i : Json} {s : Path} (h : HasPart j s i) : Leads .expr j s .expr i := by
  cases h with
  | member hl hf hj => exact .member hl hf hj (.here ..)
  | branch hl hf hbs hb hj =>
    exact .member hl hf hbs (.item rfl hb (.member (t := .expr) rfl (by simp) hj (.here ..)))

lemma exprLayouts_fields {l : Layout} (hl : l ∈ exprLayouts) {f : String × Shape}
    (hf : f ∈ l.fields) :
    f.2 = .expr ∨ f = ("branches", .branches) ∨ f.2 ∈ [.name, .integer, .anything] := by
  revert l f
  decide

/-- A path from an expression to one inside it goes through the parts. -/
lemma Leads.expr_cases {j c : Json} {p : Path} (h : Leads .expr j p .expr c) :
    (p = [] ∧ c = j) ∨ ∃ s i q, HasPart j s i ∧ p = s ++ q ∧ Leads .expr i q .expr c := by
  cases h with
  | here => exact .inl ⟨rfl, rfl⟩
  | item ht => cases ht
  | @member _ _ _ _ _ name _ _ _ hl hf hj rest =>
    right
    rcases exprLayouts_fields (layoutFor?_mem hl) hf with he | he | hs
    · cases he
      exact ⟨[.key name], _, _, .member hl hf hj, rfl, rest⟩
    · cases he
      -- the branches, one of them, and its body
      cases rest with
      | member hl' => cases hl'
      | item ht hb rest =>
        cases ht
        cases rest with
        | item ht' => cases ht'
        | member hl' hf' hj' rest =>
          cases hl'
          simp only [List.mem_cons, Prod.mk.injEq, List.not_mem_nil, or_false] at hf'
          rcases hf' with ⟨rfl, rfl⟩ | ⟨rfl, rfl⟩
          · cases (rest.of_leaf (by simp)).2.1
          · exact ⟨_, _, _, .branch hl hf hj hb hj', rfl, rest⟩
    · rw [← (rest.of_leaf hs).2.1] at hs
      simp at hs

lemma HasPart.fits {j i : Json} {s : Path} (h : Fits .expr j) (hp : HasPart j s i) :
    Fits .expr i ∧ sizeOf i < sizeOf j := by
  obtain ⟨l, hl, members, rfl, tagged, hf⟩ := h.isObject (by decide)
  have hfor : Shape.layoutFor? .expr members = some l := layoutFor?_eq hl tagged
  rw [Json.object.sizeOf_spec]
  cases hp with
  | member hfor' hfl hj =>
    cases hfor.symm.trans hfor'
    have := sizeOf_lt_of_find? hj
    exact ⟨hf.fits _ hfl _ hj, by omega⟩
  | branch hfor' hfl hbs hb hbody =>
    cases hfor.symm.trans hfor'
    have hfit : Fits .branches _ := hf.fits _ hfl _ hbs
    have hbranch := (fits_array_iff rfl).mp hfit _ (List.mem_of_getElem? hb)
    obtain ⟨l', hl', _, he, -, hf'⟩ := hbranch.isObject (by decide)
    cases he
    obtain rfl : l' = ⟨[], [("label", .name), ("body", .expr)]⟩ := by
      simpa [Shape.layouts] using hl'
    have h1 := sizeOf_lt_of_find? hbs
    have h2 := List.sizeOf_lt_of_mem (List.mem_of_getElem? hb)
    have h3 := sizeOf_lt_of_find? hbody
    simp only [Json.array.sizeOf_spec, Json.object.sizeOf_spec] at h1 h2
    exact ⟨hf'.fits ("body", .expr) (by simp) _ hbody, by omega⟩

end Form

namespace Expr

def fieldSteps (parts : List (String × Part)) (f : String × Shape) : List (Path × Expr) :=
  match f.2 with
  | .expr => [([.key f.1], partOf parts f.1)]
  | .branches => ((Table.find? parts f.1).elim [] (·.branches)).zipIdx.map fun b =>
      ([.key f.1, .index b.2, .key "body"], b.1.2)
  | _ => []

/-- The walk goes through the fields of the layout, in their order. -/
lemma steps_build {place : Place} {l : Layout} {members : List (String × Json)}
    (hl : l ∈ exprLayouts) {t : String} (ht : t ∈ l.tags) (hk : kindOf members = t)
    (parts : List (String × Part)) :
    (build place members parts).steps = l.fields.flatMap (fieldSteps parts) := by
  simp only [exprLayouts, List.mem_cons, List.not_mem_nil, or_false] at hl
  unfold build
  rw [hk]
  rcases hl with rfl | rfl | rfl | rfl | rfl | rfl | rfl | rfl | rfl | rfl | rfl | rfl | rfl |
    rfl | rfl | rfl | rfl | rfl | rfl | rfl | rfl
  case inr.inr.inr.inr.inr.inl =>
    have ht' : t = "plus" ∨ t = "minus" ∨ t = "times" ∨ t = "div" := by simpa using ht
    rcases ht' with rfl | rfl | rfl | rfl <;> rfl
  case inr.inr.inr.inr.inr.inr.inr.inr.inr.inr.inr.inr.inr.inr.inr.inr.inr.inr.inr.inl =>
    obtain rfl := List.mem_singleton.mp ht
    cases hp : Table.find? parts "branches" <;> simp [caseWith, hp, steps, fieldSteps]
  all_goals
    obtain rfl := List.mem_singleton.mp ht
    rfl

def BranchOf (b : Atom × Expr) (j : Json) : Prop :=
  (∃ s, b.1 = .text s ∧ j.get? "label" = some (.string s)) ∧
    ∃ members i place, j = .object members ∧ Table.find? members "body" = some i ∧
      b.2 = ofJson place i

lemma branchList_branchOf {items : List Json} (h : ∀ i ∈ items, Fits .branch i) (place : Place)
    (n : Nat) : List.Forall₂ BranchOf (branchList place n false items) items := by
  have hforms := branchList_forms h (fun _ _ _ _ hfit place => ofJson_written hfit place) place n
  rw [branchForms_eq_map, List.forall₂_map_left_iff] at hforms
  refine hforms.imp fun b i hb => ?_
  obtain ⟨members, rfl, hm⟩ := WithMembers.members hb
  simp only [List.forall_mem_cons] at hm
  obtain ⟨⟨_, _, hlabel, ⟨s, -, hs, rfl⟩, -⟩, ⟨body, kept, hbody, hw⟩, -⟩ := hm
  exact ⟨⟨s, hs, hlabel⟩, members, body, [], rfl, hbody, (written_reads b.2 [] body kept hw).symm⟩

/-- The parts that are walked through are the parts of the document. -/
lemma mem_steps_ofJson {j : Json} (h : Fits .expr j) {place : Place} {s : Path} {a : Expr}
    (hs : (s, a) ∈ (ofJson place j).steps) : ∃ i place', HasPart j s i ∧ a = ofJson place' i := by
  obtain ⟨l, hl, members, rfl, tagged, hf⟩ := h.isObject (by decide)
  obtain ⟨t, ht, hk⟩ := tagged (exprLayouts_tags hl)
  have hfor : Shape.layoutFor? .expr members = some l := layoutFor?_eq hl tagged
  rw [ofJson, steps_build hl ht (by simp [kindOf, hk])] at hs
  obtain ⟨⟨name, t⟩, hfl, hs⟩ := List.mem_flatMap.mp hs
  rcases exprLayouts_fields hl hfl with rfl | he | hleaf
  · obtain ⟨i, hi, hfit⟩ := hf.get name .expr hfl (by simp)
    cases List.mem_singleton.mp hs
    obtain ⟨-, -, ms, rfl, -⟩ := hfit.isObject (by decide)
    exact ⟨_, _, .member hfor hfl hi, partOf_object hi⟩
  · cases he
    obtain ⟨_, hi, hfit⟩ := hf.get _ _ hfl (by simp)
    obtain ⟨items, rfl, hitems⟩ := hfit.isArray rfl
    obtain ⟨_, he⟩ := find?_partsOf_array place hi
    simp only [fieldSteps, he, Option.elim_some] at hs
    obtain ⟨⟨b, n⟩, hb, hsa⟩ := List.mem_map.mp hs
    cases hsa
    obtain ⟨_, hn, -, ms, body, place', rfl, hbody, ha⟩ := exists_getElem?_of_forall₂
      (branchList_branchOf hitems _ 0) (List.mk_mem_zipIdx_iff_getElem?.mp hb)
    exact ⟨body, place', .branch hfor hfl hi hn hbody, ha⟩
  · simp only [List.mem_cons, List.not_mem_nil, or_false] at hleaf
    rcases hleaf with rfl | rfl | rfl <;> cases hs

lemma exists_mem_steps_ofJson {j i : Json} (h : Fits .expr j) (place : Place) {s : Path}
    (hp : HasPart j s i) : ∃ place', (s, ofJson place' i) ∈ (ofJson place j).steps := by
  obtain ⟨l, hl, members, rfl, tagged, hf⟩ := h.isObject (by decide)
  obtain ⟨t, ht, hk⟩ := tagged (exprLayouts_tags hl)
  have hfor : Shape.layoutFor? .expr members = some l := layoutFor?_eq hl tagged
  rw [ofJson, steps_build hl ht (by simp [kindOf, hk])]
  cases hp with
  | @member _ _ name _ hfor' hfl hj =>
    cases hfor.symm.trans hfor'
    have hfit : Fits .expr _ := hf.fits _ hfl _ hj
    obtain ⟨-, -, ms, rfl, -⟩ := hfit.isObject (by decide)
    refine ⟨.key name :: place, List.mem_flatMap.mpr ⟨_, hfl, ?_⟩⟩
    simp [fieldSteps, partOf_object hj]
  | branch hfor' hfl hbs hb hbody =>
    cases hfor.symm.trans hfor'
    obtain ⟨items, he, hitems⟩ := (hf.fits _ hfl _ hbs).isArray rfl
    cases he
    obtain ⟨_, he⟩ := find?_partsOf_array place hbs
    obtain ⟨b, hn, -, ms, body, place', hms, hbody', ha⟩ := exists_getElem?_of_forall₂
      (branchList_branchOf hitems (.key "branches" :: place) 0).flip hb
    cases hms
    cases hbody.symm.trans hbody'
    refine ⟨place', List.mem_flatMap.mpr ⟨_, hfl, ?_⟩⟩
    simp only [fieldSteps, he, Option.elim_some]
    exact List.mem_map.mpr ⟨_, List.mk_mem_zipIdx_iff_getElem?.mpr hn, by rw [ha]⟩

lemma case_fields :
    ∀ l ∈ exprLayouts, "case" ∈ l.tags → ("branches", Shape.branches) ∈ l.fields := by
  decide

lemma labels_ofJson_of_case {members : List (String × Json)} (h : Fits .expr (.object members))
    (place : Place) (hk : Table.find? members "kind" = some (.string "case")) :
    ∃ bs, Table.find? members "branches" = some (.array bs) ∧
      AreTexts "label" (ofJson place (.object members)).labels bs := by
  obtain ⟨l, hl, _, he, tagged, hf⟩ := h.isObject (by decide)
  cases he
  obtain ⟨t, ht, hk'⟩ := tagged (exprLayouts_tags hl)
  cases hk.symm.trans hk'
  obtain ⟨_, hbs, hfit⟩ := hf.get _ _ (case_fields l hl ht) (by simp)
  obtain ⟨bs, rfl, hitems⟩ := hfit.isArray rfl
  obtain ⟨_, he⟩ := find?_partsOf_array place hbs
  have hbranches := branchList_branchOf hitems (.key "branches" :: place) 0
  simp only [ofJson, build, kindOf, hk, caseWith, he, labels]
  exact ⟨bs, hbs, List.forall₂_map_left_iff.mpr (hbranches.imp fun b i h => h.1)⟩

lemma labels_ofJson_of_ne {members : List (String × Json)} (place : Place)
    (hk : Table.find? members "kind" ≠ some (.string "case")) :
    (ofJson place (.object members)).labels = [] := by
  have hkind : kindOf members ≠ "case" := fun h => hk <| by
    unfold kindOf at h
    split at h
    · next he => rw [he, h]
    · simp at h
  simp only [ofJson, build]
  split
  all_goals first | rfl | exact absurd ‹_› hkind

/-- What is found in an expression itself are the repeated labels of its document. -/
lemma mem_ownFindings_ofJson {j : Json} (h : Fits .expr j) (place : Place) {f : Finding} :
    f ∈ (ofJson place j).ownFindings ↔ ∃ bs n x, j.get? "kind" = some (.string "case") ∧
      j.get? "branches" = some (.array bs) ∧ Json.Again bs "label" n x ∧
      f = ⟨[.key "branches", .index n, .key "label"], .duplicateLabel (.text x)⟩ := by
  obtain ⟨-, -, members, rfl, -⟩ := id (h.isObject (by decide))
  have hcase := labels_ofJson_of_case h place
  constructor
  · intro hm
    obtain ⟨⟨n, y⟩, hr, rfl⟩ := List.mem_map.mp hm
    by_cases hk : Table.find? members "kind" = some (.string "case")
    · obtain ⟨bs, hbs, htexts⟩ := hcase hk
      obtain ⟨x, rfl, hagain⟩ := htexts.mem_repeated_iff.mp hr
      exact ⟨bs, n, x, hk, hbs, hagain, rfl⟩
    · rw [labels_ofJson_of_ne place hk] at hr
      cases hr
  · rintro ⟨bs, n, x, hk, hbs, hagain, rfl⟩
    obtain ⟨bs', hbs', htexts⟩ := hcase hk
    cases hbs.symm.trans hbs'
    exact List.mem_map.mpr ⟨(n, .text x), htexts.mem_repeated_iff.mpr ⟨x, rfl, hagain⟩, rfl⟩

/-- **The findings in an expression are the repeated labels of its document.** -/
theorem mem_findings_ofJson {j : Json} (h : Fits .expr j) (place : Place) {f : Finding} :
    f ∈ (ofJson place j).findings [] ↔ RepeatsLabel j f := by
  induction hn : sizeOf j using Nat.strongRecOn generalizing j place f with
  | ind n ih =>
    rw [findings_nil, List.mem_append, mem_ownFindings_ofJson h, List.mem_flatMap]
    constructor
    · rintro (⟨bs, k, x, hk, hbs, hagain, rfl⟩ | ⟨⟨s, a⟩, hs, hm⟩)
      · exact .mk (.here ..) hk hbs hagain
      · obtain ⟨g, hg, rfl⟩ := List.mem_map.mp hm
        obtain ⟨i, place', hpart, rfl⟩ := mem_steps_ofJson h hs
        obtain ⟨hfit, hlt⟩ := hpart.fits h
        cases (ih _ (hn ▸ hlt) hfit place' rfl).mp hg with
        | mk inside kind branches again =>
          simpa [Finding.under] using
            RepeatsLabel.mk (hpart.leads.trans inside) kind branches again
    · rintro ⟨inside, kind, branches, again⟩
      rcases inside.expr_cases with ⟨rfl, rfl⟩ | ⟨s, i, q, hpart, rfl, rest⟩
      · exact .inl ⟨_, _, _, kind, branches, again, rfl⟩
      · obtain ⟨place', hs⟩ := exists_mem_steps_ofJson h place hpart
        obtain ⟨hfit, hlt⟩ := hpart.fits h
        have hg := (ih _ (hn ▸ hlt) hfit place' rfl).mpr (.mk rest kind branches again)
        exact .inr ⟨_, hs, List.mem_map.mpr ⟨_, hg, by simp [Finding.under]⟩⟩

end Expr

/-! ### Declarations and programs -/

def Global.ownFindings (g : Global) : List Finding :=
  (repeated [] 0 g.paramNames).map fun r =>
    ⟨[.key "params", .index r.1, .key "name"], .duplicateParameter g.name r.2⟩

namespace Declaration

lemma findings_global (g : Global) (p : Path) :
    (global g).findings p =
      (g.ownFindings ++ (g.body.findings []).map (·.under [.key "body"])).map (·.under p) := by
  rw [findings, Global.ownFindings, List.map_append, List.map_map, ← Expr.findings_at,
    ← Expr.findings_append]
  rfl

lemma findings_at (d : Declaration) (p : Path) :
    d.findings p = (d.findings []).map (·.under p) := by
  cases d with
  | type => rfl
  | global g =>
    rw [findings_global, findings_global, List.map_map]
    simp [Finding.under, Function.comp_def]

lemma findings_sorted (d : Declaration) : (d.findings []).Pairwise Finding.Before := by
  cases d with
  | type => exact .nil
  | global g =>
    rw [findings_global, List.pairwise_map, List.pairwise_append]
    refine ⟨List.pairwise_map.mpr ?_, List.pairwise_map.mpr ?_, fun f hf f' hf' => ?_⟩
    · exact (repeated_sorted [] 0 g.paramNames).1.imp fun h => by
        simp [Finding.Before, Finding.under, Path.rank, List.cons_lt_cons_iff, h]
    · exact g.body.findings_sorted.imp fun h => List.cons_lt_cons_iff.mpr (.inr ⟨rfl, h⟩)
    · obtain ⟨r, -, rfl⟩ := List.mem_map.mp hf
      obtain ⟨f', -, rfl⟩ := List.mem_map.mp hf'
      simp [Finding.Before, Finding.under, Path.rank, walkOrder, List.cons_lt_cons_iff]

/-- The parameters of a function have the names that are written in its document. -/
lemma areTexts_paramNames {g : Global} {ps : List Atom} (hps : g.params = .ok (ps.map some))
    {j kept : Json} (h : Listing (ps.map Global.paramForm) j kept) :
    ∃ items, j = .array items ∧ AreTexts "name" g.paramNames items := by
  obtain ⟨items, rfl, -, hitems⟩ := h
  refine ⟨_, rfl, ?_⟩
  have hnames : g.paramNames = ps := by simp [Global.paramNames, hps, Function.comp_def]
  rw [hnames]
  rw [List.forall₂_map_left_iff] at hitems
  refine List.forall₂_map_right_iff.mpr (hitems.imp fun x i hi => ?_)
  obtain ⟨members, hms, hm⟩ := WithMembers.members hi
  obtain ⟨_, _, hname, ⟨s, -, hs, rfl⟩, -⟩ := List.forall_mem_singleton.mp hm
  exact ⟨s, hs, by rw [hms]; exact hname⟩

/-- The findings in a declaration are the repetitions in its document. -/
lemma mem_findings {d : Declaration} {j kept : Json} (h : d.Written j kept) {f : Finding} :
    f ∈ d.findings [] ↔ RepeatsName j f := by
  cases d with
  | type x =>
    obtain ⟨members, rfl, hk, -⟩ := Tagged.members h
    have hne : (Json.object members).get? "kind" ≠ some (.string "fun") := by simp [Json.get?, hk]
    constructor
    · exact fun h => by cases h
    · rintro (⟨hkind, -⟩ | ⟨hkind, -⟩) <;> exact absurd hkind hne
  | global g =>
    obtain ⟨ps, hps, h⟩ := h
    obtain ⟨members, rfl, hk, hm⟩ := Tagged.members h
    simp only [List.forall_mem_cons] at hm
    obtain ⟨⟨_, _, hname, ⟨x, -, hx, rfl⟩, -⟩, ⟨_, _, hparams, hlist⟩, ⟨b, _, hbody, hb⟩, -⟩ := hm
    obtain ⟨items, rfl, htexts⟩ := areTexts_paramNames hps hlist
    have hlabels {f : Finding} : f ∈ g.body.findings [] ↔ RepeatsLabel b f := by
      rw [← g.body.written_reads [] b _ hb]
      exact Expr.mem_findings_ofJson (g.body.written_suits b _ hb).1 []
    rw [findings_global]
    simp only [Global.ownFindings, List.map_append, List.map_map, List.mem_append, List.mem_map,
      Prod.exists, htexts.mem_repeated_iff, hlabels, hx]
    constructor
    · rintro (⟨n, _, ⟨y, rfl, hagain⟩, rfl⟩ | ⟨f, hf, rfl⟩)
      · exact .parameter hk hname hparams hagain
      · exact .label hk hbody hf
    · rintro (⟨-, hname', hparams', hagain⟩ | ⟨-, hbody', hf⟩)
      · cases hname.symm.trans hname'
        cases hparams.symm.trans hparams'
        exact .inl ⟨_, _, ⟨_, rfl, hagain⟩, rfl⟩
      · cases hbody.symm.trans hbody'
        exact .inr ⟨_, hf, rfl⟩

end Declaration

namespace Program

lemma declarationFindings_eq (n : Nat) (ds : List Declaration) :
    declarationFindings n ds = (ds.zipIdx n).flatMap fun d =>
      (d.1.findings []).map (·.under [.key "declarations", .index d.2]) := by
  induction ds generalizing n with
  | nil => rfl
  | cons d rest ih =>
    rw [declarationFindings, ih, List.zipIdx_cons, List.flatMap_cons, Declaration.findings_at]

/-- The findings in a program come in the order of the walk. -/
lemma findings_sorted (p : Program) : p.findings.Pairwise Finding.Before := by
  have hidx : p.declarations.zipIdx.Pairwise fun d d' => d.2 < d'.2 := by
    rw [← List.pairwise_map (f := Prod.snd), List.zipIdx_map_snd]
    exact List.pairwise_lt_range'
  rw [findings, declarationFindings_eq, List.pairwise_flatMap]
  refine ⟨fun d hd => List.pairwise_map.mpr ?_, hidx.imp fun h f hf g hg => ?_⟩
  · refine d.1.findings_sorted.imp fun h => ?_
    exact List.cons_lt_cons_iff.mpr (.inr ⟨rfl, List.cons_lt_cons_iff.mpr (.inr ⟨rfl, h⟩)⟩)
  · obtain ⟨f, -, rfl⟩ := List.mem_map.mp hf
    obtain ⟨g, -, rfl⟩ := List.mem_map.mp hg
    simp [Finding.Before, Finding.under, Path.rank, List.cons_lt_cons_iff, h]

/-- **The findings in a program are the repetitions in its document.** -/
theorem mem_findings {p : Program} {doc kept : Json} (h : p.Written doc kept) {f : Finding} :
    f ∈ p.findings ↔ Repeats doc f := by
  obtain ⟨members, rfl, hm⟩ := WithMembers.members h
  obtain ⟨_, _, hds, items, rfl, -, hitems⟩ := List.forall_mem_singleton.mp hm
  rw [List.forall₂_map_left_iff] at hitems
  rw [findings, declarationFindings_eq, List.mem_flatMap]
  constructor
  · rintro ⟨⟨d, n⟩, hd, hf⟩
    obtain ⟨g, hg, rfl⟩ := List.mem_map.mp hf
    obtain ⟨i, hi, hw⟩ := exists_getElem?_of_forall₂ hitems (List.mk_mem_zipIdx_iff_getElem?.mp hd)
    exact .mk hds (by simp [hi]) ((Declaration.mem_findings hw).mp hg)
  · rintro ⟨hds', hd, hf⟩
    cases hds.symm.trans hds'
    rw [List.getElem?_map] at hd
    obtain ⟨i, hi, rfl⟩ := Option.map_eq_some_iff.mp hd
    obtain ⟨d, hd, hw⟩ := exists_getElem?_of_forall₂ hitems.flip hi
    exact ⟨(d, _), List.mk_mem_zipIdx_iff_getElem?.mpr hd,
      List.mem_map.mpr ⟨_, (Declaration.mem_findings hw).mpr hf, rfl⟩⟩

end Program

/-! ### The places of repetitions -/

def Defect.name? : Defect → Option Atom
  | duplicateLabel x => some x
  | duplicateParameter _ x => some x
  | _ => none

lemma Form.Leads.of_get? {s t u : Shape} {l : Layout} {j i c : Json} {name : String} {p : Path}
    (hl : l ∈ s.layouts)
    (tagged : l.tags ≠ [] → ∃ tag ∈ l.tags, j.get? "kind" = some (.string tag))
    (hf : (name, t) ∈ l.fields) (hj : j.get? name = some i) (rest : Leads t i p u c) :
    Leads s j (.key name :: p) u c := by
  cases j with
  | object members => exact .member (layoutFor?_eq hl tagged) hf hj rest
  | _ => cases hj

lemma Json.Again.leads {s t : Shape} {items : List Json} {name x : String} {n : Nat} {l : Layout}
    (h : Again items name n x) (ht : s.item? = some t) (hl : l ∈ t.layouts) (hn : l.tags = [])
    (hf : (name, .name) ∈ l.fields) :
    Leads s (.array items) [.index n, .key name] .name (.string x) := by
  obtain ⟨i, hi, hx⟩ := Option.bind_eq_some_iff.mp h.1
  obtain ⟨y, hy, hx⟩ := Option.bind_eq_some_iff.mp hx
  cases y with
  | string s =>
    cases hx
    exact .item ht hi (.of_get? hl (absurd hn) hf hy (.here ..))
  | _ => cases hx

section

variable {f : Finding}

lemma RepeatsLabel.leads {b : Json} (h : RepeatsLabel b f) :
    ∃ x, f.defect.name? = some (.text x) ∧ Leads .expr b f.path .name (.string x) := by
  obtain ⟨inside, kind, branches, again⟩ := h
  refine ⟨_, rfl, inside.trans ?_⟩
  have hl : ⟨["case"], [("scrutinee", .expr), ("branches", .branches)]⟩ ∈ Shape.layouts .expr := by
    simp [Shape.layouts, exprLayouts]
  have hplace := again.leads (s := .branches) rfl (List.mem_singleton_self _) rfl (by simp)
  exact .of_get? hl (fun _ => ⟨_, by simp, kind⟩) (by simp) branches hplace

lemma RepeatsName.leads {d : Json} (h : RepeatsName d f) :
    ∃ x, f.defect.name? = some (.text x) ∧ Leads .declaration d f.path .name (.string x) := by
  have hl : ⟨["fun"], [("name", .name), ("params", .params), ("body", .expr),
      ("resultType", .anything)]⟩ ∈ Shape.layouts .declaration := by
    simp [Shape.layouts, declarationLayouts]
  cases h with
  | parameter kind name params again =>
    have hplace := again.leads (s := .params) rfl (List.mem_singleton_self _) rfl (by simp)
    exact ⟨_, rfl, .of_get? hl (fun _ => ⟨_, by simp, kind⟩) (by simp) params hplace⟩
  | label kind body h =>
    obtain ⟨x, hx, hleads⟩ := h.leads
    exact ⟨x, hx, .of_get? hl (fun _ => ⟨_, by simp, kind⟩) (by simp) body hleads⟩

/-- A repetition is at the place of the name that is repeated. -/
lemma Repeats.leads {doc : Json} (h : Repeats doc f) :
    ∃ x, f.defect.name? = some (.text x) ∧ Leads .program doc f.path .name (.string x) := by
  obtain ⟨hds, hd, h⟩ := h
  obtain ⟨x, hx, hleads⟩ := h.leads
  have hplace : Leads .declarations _ _ _ _ := .item rfl hd hleads
  exact ⟨x, hx, .of_get? (List.mem_singleton_self _) (absurd rfl) (by simp) hds hplace⟩

end

lemma Form.Leads.stepsOf_text {s t : Shape} {j i : Json} {p : Path} (h : Leads s j p t i)
    (hp : p ≠ []) : stepsOf p.text = p.map Segment.text :=
  Parley.stepsOf_text hp h.point_notMem

lemma Repeats.path_ne_nil {doc : Json} {f : Finding} (h : Repeats doc f) : f.path ≠ [] := by
  cases h
  simp [Finding.under]

/-- **Every repetition is found once, at its place.** Of a document with nothing against its form,
the findings are its repetitions. They come in the order of the walk, and the path of each, split
at the points, leads to the name that is repeated; no two have the same path. The document is
valid if and only if there are none, and refused with them otherwise. -/
theorem repetitions_found_in_place (doc : Json) (h : (check .program doc).isClean = true) :
    ∃ fs : List Finding,
      ((∃ v, validate (some doc) = .ok v) ↔ fs = []) ∧
      (fs ≠ [] → validate (some doc) = .error (.findings fs)) ∧
      (∀ f, f ∈ fs ↔ Repeats doc f) ∧
      (∀ f ∈ fs, ∃ x, f.defect.name? = some (.text x) ∧
        doc.walk? (stepsOf f.problem.path) = some (.string x)) ∧
      (fs.map fun f => f.problem.path).Nodup ∧
      fs.Pairwise Finding.Before := by
  obtain ⟨hfits, hb⟩ := (check_told .program doc).clean.mp h
  have hw := Program.ofJson_written hfits
  have hv := validate_of_written hb hw
  have hmem (f : Finding) := Program.mem_findings hw (f := f)
  have hsorted := (Program.ofJson doc).findings_sorted
  refine ⟨(Program.ofJson doc).findings, ?_, fun hne => by rw [hv, if_neg hne], hmem,
    fun f hf => ?_, ?_, hsorted⟩
  · rw [hv]
    split
    · next hnil => exact ⟨fun _ => hnil, fun _ => ⟨_, rfl⟩⟩
    · next hne => exact ⟨fun ⟨_, hok⟩ => (by cases hok), fun hnil => absurd hnil hne⟩
  · have hr := (hmem f).mp hf
    obtain ⟨x, hx, hleads⟩ := hr.leads
    refine ⟨x, hx, ?_⟩
    rw [Finding.problem, hleads.stepsOf_text hr.path_ne_nil]
    exact hleads.walk?
  · -- paths with one text are one path, and a path has one rank
    refine List.pairwise_map.mpr (hsorted.imp_of_mem fun {f g} hf hg hlt he => ?_)
    have hrf := (hmem f).mp hf
    have hrg := (hmem g).mp hg
    obtain ⟨_, -, hf'⟩ := hrf.leads
    obtain ⟨_, -, hg'⟩ := hrg.leads
    have hsteps : f.path.map Segment.text = g.path.map Segment.text := calc
      f.path.map Segment.text = stepsOf f.path.text := (hf'.stepsOf_text hrf.path_ne_nil).symm
      _ = stepsOf g.path.text := congrArg stepsOf he
      _ = g.path.map Segment.text := hg'.stepsOf_text hrg.path_ne_nil
    rw [Finding.Before, hf'.path_inj hg' hsteps] at hlt
    exact absurd hlt (List.lt_irrefl _)

/-- A program that repeats a parameter of its function, and a label both outside and inside a
branch. -/
def repeatingProgram : Json :=
  let unit := .object [("kind", .string "unit")]
  let branch (label : String) (body : Json) := .object [("label", .string label), ("body", body)]
  let caseOf (branches : List Json) := .object [("kind", .string "case"),
    ("scrutinee", .object [("kind", .string "label"), ("name", .string "ok")]),
    ("branches", .array branches)]
  let param (name : String) := .object [("name", .string name)]
  .object [("declarations", .array [
    .object [("kind", .string "type"), ("name", .string "t")],
    .object [("kind", .string "fun"), ("name", .string "f"),
      ("params", .array [param "x", param "y", param "x"]),
      ("body", caseOf [branch "ok" (caseOf [branch "no" unit, branch "no" unit]),
        branch "ok" unit])]])]

theorem repeatingProgram_found : (check .program repeatingProgram).isClean = true ∧
    ∃ fs : List Finding,
      ((∃ v, validate (some repeatingProgram) = .ok v) ↔ fs = []) ∧
      (fs ≠ [] → validate (some repeatingProgram) = .error (.findings fs)) ∧
      (∀ f, f ∈ fs ↔ Repeats repeatingProgram f) ∧
      (∀ f ∈ fs, ∃ x, f.defect.name? = some (.text x) ∧
        repeatingProgram.walk? (stepsOf f.problem.path) = some (.string x)) ∧
      (fs.map fun f => f.problem.path).Nodup ∧
      fs.Pairwise Finding.Before :=
  ⟨rfl, repetitions_found_in_place repeatingProgram rfl⟩

/-- The findings about it, in their order. -/
example : ∃ fs, validate (some repeatingProgram) = .error (.findings fs) ∧
    fs.map (·.problem.path) = ["declarations.1.params.2.name",
      "declarations.1.body.branches.1.label",
      "declarations.1.body.branches.0.body.branches.1.label"] :=
  ⟨_, rfl, by decide⟩

end Parley
