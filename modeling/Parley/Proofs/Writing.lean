import Mathlib.Data.List.Forall2
import Parley.Proofs.Decimals
import Parley.Proofs.Discipline
import Parley.Proofs.Pruning

/-!
How programs are written as documents: the grammar in full, one line for each kind of expression
and declaration. It speaks neither of layouts nor of reading, and it says besides what is kept of
a document: the members of the grammar and the annotations, in the order in which they stand
here.

A document writes a program if and only if it has the shape of one. It then writes the program
that is read from it, and what is kept of it is the pruned document.
-/

namespace Parley

open Form

/-! ### The grammar -/

namespace Form

/-- A form of documents, with what is kept of each. -/
abbrev Grammar := Json → Json → Prop

/-- An object with these members, whatever else is in it. Annotations may be anything, or
absent. -/
def WithMembers (fields : List (String × Grammar)) (annotations : List String) : Grammar :=
  fun j kept => ∃ members entries, j = .object members ∧
    kept = .object (entries ++
      annotations.filterMap fun a => (Table.find? members a).map fun i => (a, i)) ∧
    List.Forall₂
      (fun f e => e.1 = f.1 ∧ ∃ i, Table.find? members f.1 = some i ∧ f.2 i e.2) fields entries

def Tagged (kind : String) (fields : List (String × Grammar)) (annotations : List String) :
    Grammar :=
  WithMembers (("kind", fun j kept => j = .string kind ∧ kept = j) :: fields) annotations

def Listing (forms : List Grammar) : Grammar := fun j kept =>
  ∃ items : List (Json × Json), j = .array (items.map (·.1)) ∧ kept = .array (items.map (·.2)) ∧
    List.Forall₂ (fun form i => form i.1 i.2) forms items

def Named (x : Atom) : Grammar := fun j kept =>
  (∃ s, s ≠ "" ∧ x = .text s ∧ j = .string s) ∧ kept = j

/-- An optional minus and one or more digits. -/
def IsNumeral (s : String) : Prop :=
  ∃ ds, ds ≠ [] ∧ (∀ c ∈ ds, '0' ≤ c ∧ c ≤ '9') ∧ (s.toList = ds ∨ s.toList = '-' :: ds)

/-- An integer: a number of less than 54 binary digits, or a numeral of any length. -/
def Whole (n : Literal) : Grammar := fun j kept =>
  ((∃ i : Int, i.natAbs < Nat.pow 2 53 ∧ n = .number (.integer i) ∧ j = .number (.integer i)) ∨
    ∃ s, IsNumeral s ∧ n = .text s ∧ j = .string s) ∧ kept = j

end Form

namespace Expr

mutual

/-- The documents that write an expression. -/
def Written : Expr → Grammar
  | unit => Tagged "unit" [] []
  | var x => Tagged "var" [("name", Named x)] []
  | label x => Tagged "label" [("name", Named x)] []
  | int n => Tagged "int" [("value", Whole n)] []
  | nat n => Tagged "nat" [("value", Whole n)] []
  | arith op a b => Tagged op.name [("left", a.Written), ("right", b.Written)] []
  | negate a => Tagged "negate" [("expr", a.Written)] []
  | succ a => Tagged "succ" [("expr", a.Written)] []
  | letIn x a b => Tagged "let" [("name", Named x), ("value", a.Written), ("body", b.Written)] []
  | letPair x y a b => Tagged "letPair"
      [("first", Named x), ("second", Named y), ("value", a.Written), ("body", b.Written)] []
  | pair x a b => Tagged "pair"
      [("name", Named x), ("first", a.Written), ("second", b.Written)] ["multiplicity"]
  | fst a => Tagged "fst" [("expr", a.Written)] []
  | snd a => Tagged "snd" [("expr", a.Written)] []
  | lambda x a => Tagged "lambda"
      [("param", Named x), ("body", a.Written)] ["multiplicity", "paramType"]
  | app f a => Tagged "app" [("fn", f.Written), ("arg", a.Written)] []
  | fork a => Tagged "fork" [("expr", a.Written)] []
  | channel => Tagged "new" [] ["sessionType"]
  | send a => Tagged "send" [("channel", a.Written)] []
  | recv a => Tagged "recv" [("channel", a.Written)] []
  | caseOf a bs none =>
    Tagged "case" [("scrutinee", a.Written), ("branches", Listing (branchForms bs))] []
  | natRec a b x y c => Tagged "natRec"
      [("index", a.Written), ("zero", b.Written), ("counter", Named x), ("acc", Named y),
        ("step", c.Written)] ["counterType", "accType"]
  | caseOf _ _ (some _) | unknown _ _ | missing _ => fun _ _ => False

def branchForms : List (Atom × Expr) → List Grammar
  | [] => []
  | (x, b) :: rest => WithMembers [("label", Named x), ("body", b.Written)] [] :: branchForms rest

end

lemma branchForms_eq_map (bs : List (Atom × Expr)) :
    branchForms bs =
      bs.map fun b => WithMembers [("label", Named b.1), ("body", b.2.Written)] [] := by
  induction bs with
  | nil => simp [branchForms]
  | cons b rest ih => simp [branchForms, ih]

end Expr

def Global.paramForm (p : Atom) : Grammar :=
  WithMembers [("name", Named p)] ["multiplicity", "type"]

def Declaration.Written : Declaration → Grammar
  | .global g => fun j kept => ∃ ps : List Atom, g.params = .ok (ps.map some) ∧
      Tagged "fun"
        [("name", Named g.name), ("params", Listing (ps.map Global.paramForm)),
          ("body", g.body.Written)] ["resultType"] j kept
  | .type x => Tagged "type" [("name", Named x)] ["definition"]

def Program.Written (p : Program) : Grammar :=
  WithMembers [("declarations", Listing (p.declarations.map Declaration.Written))] []

/-! ### Shapes -/

namespace Form

/-- The documents of a form have a shape. What is kept of them is the pruned document, and it is
of the form in its turn. -/
def Suits (form : Grammar) (s : Shape) : Prop :=
  ∀ j kept, form j kept → Fits s j ∧ kept = prune s j ∧ form kept kept

lemma suits_named (x : Atom) : Suits (Named x) .name := by
  rintro j _ ⟨⟨s, hs, rfl, rfl⟩, rfl⟩
  exact ⟨.name hs, rfl, ⟨s, hs, rfl, rfl⟩, rfl⟩

lemma isDecimal_iff {s : String} : isDecimal s.toList = true ↔ IsNumeral s := by
  have hdigits : ∀ ds : List Char, (!ds.isEmpty && ds.all Json.Parser.isDigit) = true ↔
      ds ≠ [] ∧ ∀ c ∈ ds, '0' ≤ c ∧ c ≤ '9' := by simp [isDigit_iff]
  unfold isDecimal IsNumeral
  split
  · next ds hs =>
    rw [hdigits, hs]
    constructor
    · rintro ⟨hne, hd⟩
      exact ⟨ds, hne, hd, .inr rfl⟩
    · rintro ⟨ds', hne, hd, rfl | he⟩
      · -- a minus is no digit
        exact absurd (hd '-' (List.mem_cons_self ..)) (by decide)
      · cases he
        exact ⟨hne, hd⟩
  · next hs =>
    rw [hdigits]
    constructor
    · rintro ⟨hne, hd⟩
      exact ⟨_, hne, hd, .inl rfl⟩
    · rintro ⟨ds, hne, hd, rfl | he⟩
      · exact ⟨hne, hd⟩
      · exact absurd he (hs ds)

lemma natAbs_lt_iff {i : Int} : i.natAbs < Nat.pow 2 53 ↔ -largest ≤ i ∧ i ≤ largest := by
  have hp : Nat.pow 2 53 = 9007199254740992 := rfl
  rw [hp]
  unfold largest
  omega

lemma suits_whole (n : Literal) : Suits (Whole n) .integer := by
  rintro j _ ⟨⟨i, hi, rfl, rfl⟩ | ⟨s, hs, rfl, rfl⟩, rfl⟩
  · exact ⟨.number (natAbs_lt_iff.mp hi), rfl, .inl ⟨i, hi, rfl, rfl⟩, rfl⟩
  · exact ⟨.decimal (isDecimal_iff.mpr hs), rfl, .inr ⟨s, hs, rfl, rfl⟩, rfl⟩

lemma suits_listing {forms : List Grammar} {s t : Shape} (ht : s.item? = some t)
    (h : ∀ form ∈ forms, Suits form t) : Suits (Listing forms) s := by
  rintro j kept ⟨items, rfl, rfl, hitems⟩
  have key : (∀ i ∈ items, Fits t i.1 ∧ i.2 = prune t i.1) ∧
      List.Forall₂ (fun form i => form i.1 i.2) forms (items.map fun i => (i.2, i.2)) := by
    induction hitems with
    | nil => simp
    | cons hi _ ih =>
      obtain ⟨hform, hrest⟩ := List.forall_mem_cons.mp h
      obtain ⟨hfits, hkept, hagain⟩ := hform _ _ hi
      obtain ⟨hfits', hagain'⟩ := ih hrest
      exact ⟨List.forall_mem_cons.mpr ⟨⟨hfits, hkept⟩, hfits'⟩, .cons hagain hagain'⟩
  refine ⟨.array ht ?_, ?_, items.map fun i => (i.2, i.2), by simp, by simp, key.2⟩
  · simpa using fun i k hi => (key.1 (i, k) hi).1
  · rw [prune, ht, pruneItems_some, List.map_map]
    exact congrArg Json.array (List.map_congr_left fun i hi => (key.1 i hi).2)

lemma listing_kept {forms : List Grammar} {s t : Shape} (ht : s.item? = some t) {items : List Json}
    (h : List.Forall₂ (fun form i => form i (prune t i)) forms items) :
    Listing forms (.array items) (prune s (.array items)) := by
  refine ⟨items.map fun i => (i, prune t i), ?_, ?_, List.forall₂_map_right_iff.mpr h⟩
  · rw [List.map_map]
    exact congrArg Json.array (List.map_id' items).symm
  · rw [prune, ht, pruneItems_some, List.map_map]
    rfl

/-! ### Members and layouts -/

def keep? (members : List (String × Json)) (f : String × Shape) : Option (String × Json) :=
  (Table.find? members f.1).map fun j => (f.1, prune f.2 j)

/-- A member is there under a form, and what is kept of it is pruned. -/
def KeptAs (members : List (String × Json)) (name : String) (s : Shape) (form : Grammar) :
    Prop :=
  ∃ i, Table.find? members name = some i ∧ form i (prune s i)

def Layout.EndsWith (l : Layout) (n : Nat) (annotations : List String) : Prop :=
  l.named.drop n = annotations.map fun a => (a, .anything)

lemma Layout.EndsWith.kept_eq {l : Layout} {n : Nat} {annotations : List String}
    (h : l.EndsWith n annotations) (members : List (String × Json)) :
    l.kept members = (l.named.take n).filterMap (keep? members) ++
      annotations.filterMap fun a => (Table.find? members a).map fun i => (a, i) := by
  have hsplit : l.kept members = (l.named.take n ++ l.named.drop n).filterMap (keep? members) := by
    rw [List.take_append_drop]
    rfl
  rw [hsplit, List.filterMap_append, h, List.filterMap_map]
  simp [keep?, Function.comp_def]

section

variable {forms : List (String × Grammar)} {members : List (String × Json)}

/-- The members that are written under forms that suit shapes. -/
lemma entries_suit {fields : List (String × Shape)} {entries kept : List (String × Json)}
    (h : List.Forall₂ (fun form f => form.1 = f.1 ∧ Suits form.2 f.2) forms fields)
    (he : List.Forall₂ (fun f e => e.1 = f.1 ∧ ∃ i, Table.find? members f.1 = some i ∧ f.2 i e.2)
      forms entries)
    (hk : ∀ f ∈ fields, Table.find? kept f.1 = (Table.find? members f.1).map (prune f.2)) :
    (∀ f ∈ fields, ∃ i, Table.find? members f.1 = some i ∧ Fits f.2 i) ∧
      entries = fields.filterMap (keep? members) ∧
      List.Forall₂ (fun f e => e.1 = f.1 ∧ ∃ i, Table.find? kept f.1 = some i ∧ f.2 i e.2)
        forms entries := by
  induction h generalizing entries with
  | nil => cases he; simp
  | @cons form f forms fields hf _ ih =>
    obtain ⟨hname, hsuits⟩ := hf
    cases he with
    | @cons _ e _ entries he hrest =>
    obtain ⟨hename, i, hi, hie⟩ := he
    obtain ⟨hk, hkrest⟩ := List.forall_mem_cons.mp hk
    obtain ⟨hfits, heq, hforms⟩ := ih hrest hkrest
    obtain ⟨hfit, hkept, hagain⟩ := hsuits _ _ hie
    rw [hname] at hi
    refine ⟨List.forall_mem_cons.mpr ⟨⟨i, hi, hfit⟩, hfits⟩, ?_, .cons ?_ hforms⟩
    · have hentry : keep? members f = some e := by
        rw [keep?, hi, Option.map_some, ← hkept, ← hname, ← hename]
      rw [List.filterMap_cons_some hentry, heq]
    · refine ⟨hename, e.2, ?_, hagain⟩
      rw [hname, hk, hi, hkept]
      rfl

/-- An object under forms that suit a layout has the shape. -/
lemma suits_layout {annotations : List String} {s : Shape} {l : Layout} (hl : l ∈ s.layouts)
    (tagged : ∀ members kept, WithMembers forms annotations (.object members) kept → l.tags ≠ [] →
      ∃ t ∈ l.tags, Table.find? members "kind" = some (.string t))
    (hn : l.EndsWith forms.length annotations)
    (h : List.Forall₂ (fun form f => form.1 = f.1 ∧ Suits form.2 f.2) forms
      (l.named.take forms.length)) : Suits (WithMembers forms annotations) s := by
  rintro j kept hj
  obtain ⟨members, entries, rfl, rfl, he⟩ := id hj
  have htag := tagged members _ hj
  have hkeep : ∀ f ∈ l.named,
      Table.find? (l.kept members) f.1 = (Table.find? members f.1).map (prune f.2) :=
    fun f hf => find?_layoutKept hl hf members
  obtain ⟨hfits, rfl, hforms⟩ := entries_suit h he fun f hf => hkeep f (List.mem_of_mem_take hf)
  -- a field is one of the members written, or an annotation
  have hfield : ∀ f ∈ l.fields, f ∈ l.named.take forms.length ∨ f.2 = .anything := by
    intro f hf
    have hm := fields_subset_named l hf
    rw [← List.take_append_drop forms.length l.named, List.mem_append, hn, List.mem_map] at hm
    rcases hm with hm | ⟨a, -, rfl⟩
    · exact .inl hm
    · exact .inr rfl
  rw [← hn.kept_eq]
  refine ⟨.object hl htag (fun f hf ha => ?_) (fun f hf i hi => ?_), ?_, ?_⟩
  · obtain ⟨i, hi, -⟩ := hfits f ((hfield f hf).resolve_right ha)
    simp [hi]
  · rcases hfield f hf with hm | ha
    · obtain ⟨i', hi', hfit⟩ := hfits f hm
      cases hi'.symm.trans hi
      exact hfit
    · exact ha ▸ .anything i
  · exact (prune_object (layoutFor?_eq hl htag)).symm
  · refine ⟨_, _, rfl, ?_, hforms⟩
    rw [hn.kept_eq]
    refine congrArg (fun es => Json.object (_ ++ es)) (List.filterMap_congr fun a ha => ?_)
    have hm : (a, .anything) ∈ l.named := by
      refine List.mem_of_mem_drop (i := forms.length) ?_
      rw [hn]
      exact List.mem_map.mpr ⟨a, ha, rfl⟩
    have hkept := hkeep _ hm
    rw [hn.kept_eq] at hkept
    simp only [hkept, funext prune_anything, Option.map_id']

/-- What a layout keeps of an object is written under forms that its members have. -/
lemma withMembers_kept {annotations : List String} {l : Layout}
    (hn : l.EndsWith forms.length annotations)
    (h : List.Forall₂ (fun form f => form.1 = f.1 ∧ KeptAs members f.1 f.2 form.2) forms
      (l.named.take forms.length)) :
    WithMembers forms annotations (.object members) (.object (l.kept members)) := by
  refine ⟨members, (l.named.take forms.length).filterMap (keep? members), rfl,
    by rw [hn.kept_eq], ?_⟩
  generalize l.named.take forms.length = fields at h
  clear hn
  induction h with
  | nil => exact .nil
  | @cons form f _ _ hf _ ih =>
    obtain ⟨hname, i, hi, hform⟩ := hf
    have hentry : keep? members f = some (f.1, prune f.2 i) := by rw [keep?, hi]; rfl
    rw [List.filterMap_cons_some hentry]
    exact .cons ⟨hname.symm, i, hname ▸ hi, hform⟩ ih

lemma suits_withMembers {annotations : List String} {s : Shape} {l : Layout}
    (hl : s.layouts = [l]) (ht : l.tags = []) (hn : l.EndsWith forms.length annotations)
    (h : List.Forall₂ (fun form f => form.1 = f.1 ∧ Suits form.2 f.2) forms
      (l.named.take forms.length)) : Suits (WithMembers forms annotations) s :=
  suits_layout (by simp [hl]) (fun _ _ _ hne => absurd ht hne) hn h

lemma suits_kind (kind : String) : Suits (fun j kept => j = .string kind ∧ kept = j) .anything := by
  rintro j _ ⟨rfl, rfl⟩
  exact ⟨.anything _, rfl, rfl, rfl⟩

lemma named_of_tags {l : Layout} {kind : String} (h : kind ∈ l.tags) :
    l.named = ("kind", .anything) :: l.fields := by
  simp [Layout.named, List.ne_nil_of_mem h]

lemma suits_tagged {kind : String} {annotations : List String} {s : Shape} {l : Layout}
    (hl : layout? s.layouts kind = some l)
    (hn : l.fields.drop forms.length = annotations.map fun a => (a, .anything))
    (h : List.Forall₂ (fun form f => form.1 = f.1 ∧ Suits form.2 f.2) forms
      (l.fields.take forms.length)) : Suits (Tagged kind forms annotations) s := by
  have hkind : kind ∈ l.tags := by simpa using List.find?_some hl
  have hnamed := named_of_tags hkind
  refine suits_layout (List.mem_of_find?_eq_some hl) (fun members kept hm _ => ?_) ?_ ?_
  · obtain ⟨_, _, hj, -, he⟩ := hm
    cases hj
    cases he with
    | cons he _ =>
      obtain ⟨-, _, hk, rfl, -⟩ := he
      exact ⟨kind, hkind, hk⟩
  · simpa [Layout.EndsWith, hnamed] using hn
  · rw [hnamed]
    exact .cons ⟨rfl, suits_kind kind⟩ h

lemma tagged_kept {kind : String} {annotations : List String} {l : Layout} (hkind : kind ∈ l.tags)
    (hk : Table.find? members "kind" = some (.string kind))
    (hn : l.fields.drop forms.length = annotations.map fun a => (a, .anything))
    (h : List.Forall₂ (fun form f => form.1 = f.1 ∧ KeptAs members f.1 f.2 form.2) forms
      (l.fields.take forms.length)) :
    Tagged kind forms annotations (.object members) (.object (l.kept members)) := by
  have hnamed := named_of_tags hkind
  refine withMembers_kept (by simpa [Layout.EndsWith, hnamed] using hn) ?_
  rw [hnamed]
  exact .cons ⟨rfl, _, hk, rfl, prune_anything _⟩ h

end

end Form

namespace Expr

lemma suits_branches {bs : List (Atom × Expr)} (h : ∀ b ∈ bs, Suits b.2.Written .expr) :
    Suits (Listing (branchForms bs)) .branches := by
  refine suits_listing rfl fun form hform => ?_
  rw [branchForms_eq_map] at hform
  obtain ⟨b, hb, rfl⟩ := List.mem_map.mp hform
  exact suits_withMembers rfl rfl rfl (by simp [Layout.named, suits_named, h b hb])

/-- **What is written as an expression has the shape of one**, and what is kept of it is the
pruned document. -/
theorem written_suits (e : Expr) : Suits e.Written .expr := by
  induction e using induction_on_parts with
  | h e ih =>
    cases e with
    | caseOf a bs rest =>
      simp only [parts, List.forall_mem_cons, List.forall_mem_map] at ih
      cases rest with
      | none => exact suits_tagged rfl rfl (by simp [ih.1, suits_branches ih.2])
      | some m => exact fun _ _ h => h.elim
    | unknown | missing => exact fun _ _ h => h.elim
    | unit | var | label | int | nat | channel =>
      exact suits_tagged rfl rfl (by simp [suits_named, suits_whole])
    | arith op a b =>
      simp only [parts, List.forall_mem_cons] at ih
      cases op <;> exact suits_tagged rfl rfl (by simp [ih])
    | _ =>
      simp only [parts, List.forall_mem_cons] at ih
      exact suits_tagged rfl rfl (by simp [suits_named, ih])

end Expr

/-! ### Reading expressions -/

def Form.HasMember (members : List (String × Json)) (name : String) (form : Grammar) : Prop :=
  ∃ i kept, Table.find? members name = some i ∧ form i kept

lemma Form.WithMembers.members {fields : List (String × Grammar)} {annotations : List String}
    {j kept : Json} (h : WithMembers fields annotations j kept) :
    ∃ members, j = .object members ∧ ∀ f ∈ fields, HasMember members f.1 f.2 := by
  obtain ⟨members, entries, rfl, -, he⟩ := h
  refine ⟨members, rfl, ?_⟩
  induction he with
  | nil => simp
  | cons hf _ ih =>
    obtain ⟨-, i, hi, hform⟩ := hf
    exact List.forall_mem_cons.mpr ⟨⟨i, _, hi, hform⟩, ih⟩

lemma Form.Tagged.members {kind : String} {fields : List (String × Grammar)}
    {annotations : List String} {j kept : Json} (h : Tagged kind fields annotations j kept) :
    ∃ members, j = .object members ∧ Table.find? members "kind" = some (.string kind) ∧
      ∀ f ∈ fields, HasMember members f.1 f.2 := by
  obtain ⟨members, rfl, hm⟩ := WithMembers.members h
  obtain ⟨⟨_, _, hi, rfl, -⟩, hm⟩ := List.forall_mem_cons.mp hm
  exact ⟨members, rfl, hi, hm⟩

lemma Atom.ofMember_named {place : Place} {members : List (String × Json)} {name : String}
    {x : Atom} (h : HasMember members name (Named x)) : Atom.ofMember place members name = x := by
  obtain ⟨_, _, hi, ⟨s, -, rfl, rfl⟩, -⟩ := h
  simp [Atom.ofMember, Atom.ofJson, hi]

lemma Atom.ofMember_whole {place : Place} {members : List (String × Json)} {name : String}
    {n : Literal} (h : HasMember members name (Whole n)) :
    Atom.ofMember place members name = n := by
  obtain ⟨_, _, hi, ⟨i, -, rfl, rfl⟩ | ⟨s, -, rfl, rfl⟩, -⟩ := h <;>
    simp [Atom.ofMember, Atom.ofJson, hi]

namespace Expr

lemma partOf_object {place : Place} {members ms : List (String × Json)} {name : String}
    (h : Table.find? members name = some (.object ms)) :
    partOf (partsOf place members) name = ofJson (.key name :: place) (.object ms) := by
  induction members with
  | nil => simp [Table.find?] at h
  | cons e rest ih =>
    obtain ⟨n, j⟩ := e
    by_cases hn : n = name
    · simp only [Table.find?, if_pos hn, Option.some.injEq] at h
      subst h hn
      simp [partsOf, partOf, Table.find?]
    · simp only [Table.find?, if_neg hn] at h
      have := ih h
      cases j <;> simpa [partsOf, partOf, Table.find?, hn] using this

lemma find?_partsOf_array (place : Place) {members : List (String × Json)} {items : List Json}
    {name : String} (h : Table.find? members name = some (.array items)) :
    ∃ e, Table.find? (partsOf place members) name =
      some ⟨e, branchList (.key name :: place) 0 false items, branchEnd items⟩ := by
  induction members with
  | nil => simp [Table.find?] at h
  | cons e rest ih =>
    obtain ⟨n, j⟩ := e
    by_cases hn : n = name
    · simp only [Table.find?, if_pos hn, Option.some.injEq] at h
      subst h hn
      simp [partsOf, Table.find?]
    · simp only [Table.find?, if_neg hn] at h
      obtain ⟨e, he⟩ := ih h
      exact ⟨e, by cases j <;> simpa [partsOf, Table.find?, hn] using he⟩

lemma branchEnd_eq_none {items : List Json} (h : ∀ i ∈ items, Fits .branch i) :
    branchEnd items = none := by
  unfold branchEnd
  rw [if_neg]
  simp only [List.any_eq_true, not_exists, not_and]
  intro i hi
  obtain ⟨-, -, members, rfl, -⟩ := (h i hi).isObject (by decide)
  simp

section

variable {place : Place} {members : List (String × Json)} {name : String}

/-- Documents that write an expression read as it, wherever they stand. -/
def Reads (e : Expr) : Prop := ∀ place j kept, e.Written j kept → ofJson place j = e

lemma Reads.partOf {e : Expr} (he : e.Reads) (h : HasMember members name e.Written) :
    partOf (partsOf place members) name = e := by
  obtain ⟨i, kept, hi, hw⟩ := h
  obtain ⟨-, -, ms, rfl, -⟩ := (written_suits e i kept hw).1.isObject (by decide)
  rw [partOf_object hi]
  exact he _ _ _ hw

/-- Branches that are written out are read to their end. -/
lemma branchList_written {bs : List (Atom × Expr)} (hr : ∀ b ∈ bs, b.2.Reads)
    {items : List (Json × Json)}
    (h : List.Forall₂ (fun form i => form i.1 i.2) (branchForms bs) items) (place : Place)
    (n : Nat) : branchList place n false (items.map (·.1)) = bs := by
  rw [branchForms_eq_map, List.forall₂_map_left_iff] at h
  induction h generalizing n with
  | nil => simp [branchList]
  | @cons b i bs items hi _ ih =>
    obtain ⟨hb, hrest⟩ := List.forall_mem_cons.mp hr
    obtain ⟨ms, hms, hm⟩ := WithMembers.members hi
    simp only [List.forall_mem_cons] at hm
    rw [List.map_cons, hms, branchList, ih hrest, Atom.ofMember_named hm.1, hb.partOf hm.2.1]
    rfl

end

/-- **Documents that write an expression read as it.** -/
theorem written_reads (e : Expr) : e.Reads := by
  induction e using induction_on_parts with
  | h e ih =>
    intro place j kept h
    cases e with
    | unknown | missing => exact h.elim
    | unit | channel =>
      obtain ⟨ms, rfl, hk, -⟩ := Tagged.members h
      simp only [ofJson, build, kindOf, hk]
    | var | label =>
      obtain ⟨ms, rfl, hk, hms⟩ := Tagged.members h
      rw [List.forall_mem_singleton] at hms
      simp only [ofJson, build, kindOf, hk, Atom.ofMember_named hms]
    | int | nat =>
      obtain ⟨ms, rfl, hk, hms⟩ := Tagged.members h
      rw [List.forall_mem_singleton] at hms
      simp only [ofJson, build, kindOf, hk, Atom.ofMember_whole hms]
    | negate | succ | fst | snd | fork | send | recv =>
      rw [parts, List.forall_mem_singleton] at ih
      obtain ⟨ms, rfl, hk, hms⟩ := Tagged.members h
      rw [List.forall_mem_singleton] at hms
      simp only [ofJson, build, kindOf, hk, ih.partOf hms]
    | arith op a b =>
      simp only [parts, List.forall_mem_cons] at ih
      obtain ⟨ms, rfl, hk, hms⟩ := Tagged.members h
      simp only [List.forall_mem_cons] at hms
      obtain ⟨ha, hb, -⟩ := hms
      cases op <;>
        simp only [ofJson, build, kindOf, hk, ArithOp.name, ih.1.partOf ha, ih.2.1.partOf hb]
    | app f a =>
      simp only [parts, List.forall_mem_cons] at ih
      obtain ⟨ms, rfl, hk, hms⟩ := Tagged.members h
      simp only [List.forall_mem_cons] at hms
      obtain ⟨ha, hb, -⟩ := hms
      simp only [ofJson, build, kindOf, hk, ih.1.partOf ha, ih.2.1.partOf hb]
    | letIn x a b | pair x a b =>
      simp only [parts, List.forall_mem_cons] at ih
      obtain ⟨ms, rfl, hk, hms⟩ := Tagged.members h
      simp only [List.forall_mem_cons] at hms
      obtain ⟨hx, ha, hb, -⟩ := hms
      simp only [ofJson, build, kindOf, hk, Atom.ofMember_named hx, ih.1.partOf ha,
        ih.2.1.partOf hb]
    | lambda x a =>
      rw [parts, List.forall_mem_singleton] at ih
      obtain ⟨ms, rfl, hk, hms⟩ := Tagged.members h
      simp only [List.forall_mem_cons] at hms
      simp only [ofJson, build, kindOf, hk, Atom.ofMember_named hms.1, ih.partOf hms.2.1]
    | letPair x y a b =>
      simp only [parts, List.forall_mem_cons] at ih
      obtain ⟨ms, rfl, hk, hms⟩ := Tagged.members h
      simp only [List.forall_mem_cons] at hms
      obtain ⟨hx, hy, ha, hb, -⟩ := hms
      simp only [ofJson, build, kindOf, hk, Atom.ofMember_named hx, Atom.ofMember_named hy,
        ih.1.partOf ha, ih.2.1.partOf hb]
    | natRec a b x y c =>
      simp only [parts, List.forall_mem_cons] at ih
      obtain ⟨ms, rfl, hk, hms⟩ := Tagged.members h
      simp only [List.forall_mem_cons] at hms
      obtain ⟨ha, hb, hx, hy, hc, -⟩ := hms
      simp only [ofJson, build, kindOf, hk, Atom.ofMember_named hx, Atom.ofMember_named hy,
        ih.1.partOf ha, ih.2.1.partOf hb, ih.2.2.1.partOf hc]
    | caseOf a bs rest =>
      cases rest with
      | some => exact h.elim
      | none =>
        simp only [parts, List.forall_mem_cons, List.forall_mem_map] at ih
        obtain ⟨ms, rfl, hk, hms⟩ := Tagged.members h
        simp only [List.forall_mem_cons] at hms
        obtain ⟨ha, ⟨i, _, hi, hbs⟩, -⟩ := hms
        -- the branches fit, so none of them ends the list early
        have hfits := (suits_branches (fun b _ => written_suits b.2) i _ hbs).1
        obtain ⟨items, rfl, -, hbs⟩ := hbs
        have hend := branchEnd_eq_none ((fits_array_iff rfl).mp hfits)
        obtain ⟨_, hp⟩ := find?_partsOf_array place hi
        simp only [ofJson, build, kindOf, hk, ih.1.partOf ha, hp, caseWith,
          branchList_written ih.2 hbs, hend]

end Expr

/-! ### Expressions of the right shape -/

namespace Form.HasFields

variable {l : Layout} {members : List (String × Json)}

lemma named (h : HasFields l members) (place : Place) (name : String)
    (hf : (name, .name) ∈ l.fields) :
    KeptAs members name .name (Named (Atom.ofMember place members name)) := by
  obtain ⟨i, hi, hfit⟩ := h.get _ _ hf (by simp)
  refine ⟨i, hi, ?_⟩
  cases hfit with
  | name hs => exact ⟨⟨_, hs, by simp [Atom.ofMember, Atom.ofJson, hi], rfl⟩, rfl⟩
  | object hl => exact absurd hl (by simp [Shape.layouts])
  | array ht => exact absurd ht (by simp [Shape.item?])

lemma whole (h : HasFields l members) (place : Place) (name : String)
    (hf : (name, .integer) ∈ l.fields) :
    KeptAs members name .integer (Whole (Atom.ofMember place members name)) := by
  obtain ⟨i, hi, hfit⟩ := h.get _ _ hf (by simp)
  refine ⟨i, hi, ?_⟩
  cases hfit with
  | @number n hn =>
    exact ⟨.inl ⟨n, natAbs_lt_iff.mpr hn, by simp [Atom.ofMember, Atom.ofJson, hi], rfl⟩, rfl⟩
  | @decimal s hs =>
    exact ⟨.inr ⟨s, isDecimal_iff.mp hs, by simp [Atom.ofMember, Atom.ofJson, hi], rfl⟩, rfl⟩
  | object hl => exact absurd hl (by simp [Shape.layouts])
  | array ht => exact absurd ht (by simp [Shape.item?])

end Form.HasFields

namespace Expr

lemma exprLayouts_tags {l : Layout} (hl : l ∈ exprLayouts) : l.tags ≠ [] := by
  revert l
  decide

/-- An object with the fields of a layout writes the expression that is built from it, if its
parts are written. -/
lemma build_written {place : Place} {l : Layout} {members : List (String × Json)}
    (hl : l ∈ exprLayouts) {t : String} (ht : t ∈ l.tags)
    (hk : Table.find? members "kind" = some (.string t)) (hf : HasFields l members)
    (hpart : ∀ name, (name, .expr) ∈ l.fields →
      KeptAs members name .expr (partOf (partsOf place members) name).Written)
    (hbranch : ∀ name, (name, .branches) ∈ l.fields → ∃ p,
      Table.find? (partsOf place members) name = some p ∧ p.rest = none ∧
        KeptAs members name .branches (Listing (branchForms p.branches))) :
    (build place members (partsOf place members)).Written (.object members)
      (.object (l.kept members)) := by
  have hname := hf.named place
  have hlit := hf.whole place
  have hkind : kindOf members = t := by simp [kindOf, hk]
  simp only [exprLayouts, List.mem_cons, List.not_mem_nil, or_false] at hl
  unfold build
  rw [hkind]
  rcases hl with rfl | rfl | rfl | rfl | rfl | rfl | rfl | rfl | rfl | rfl | rfl | rfl | rfl |
    rfl | rfl | rfl | rfl | rfl | rfl | rfl | rfl
  case inr.inr.inr.inr.inr.inl =>
    -- the operators share a layout
    have ht' : t = "plus" ∨ t = "minus" ∨ t = "times" ∨ t = "div" := by simpa using ht
    rcases ht' with rfl | rfl | rfl | rfl <;> exact tagged_kept ht hk rfl (by simp [hpart])
  case inr.inr.inr.inr.inr.inr.inr.inr.inr.inr.inr.inr.inr.inr.inr.inr.inr.inr.inr.inl =>
    obtain ⟨p, hp, hrest, hbs⟩ := hbranch "branches" (by simp)
    obtain rfl := List.mem_singleton.mp ht
    simp only [caseWith, hp, hrest]
    exact tagged_kept ht hk rfl (by simp [hpart, hbs])
  all_goals
    obtain rfl := List.mem_singleton.mp ht
    exact tagged_kept ht hk rfl (by simp [hname, hlit, hpart])

/-- Branches of the right shape write the list that is read from them. -/
lemma branchList_forms {items : List Json} (h : ∀ i ∈ items, Fits .branch i)
    (ih : ∀ members body, .object members ∈ items → Table.find? members "body" = some body →
      Fits .expr body → ∀ place, (ofJson place body).Written body (prune .expr body))
    (place : Place) (n : Nat) :
    List.Forall₂ (fun form i => form i (prune .branch i))
      (branchForms (branchList place n false items)) items := by
  induction items generalizing n with
  | nil => simp [branchList, branchForms]
  | cons i rest iht =>
    obtain ⟨l, hl, members, rfl, tagged, hf⟩ := (h i (List.mem_cons_self ..)).isObject (by decide)
    obtain rfl : l = ⟨[], [("label", .name), ("body", .expr)]⟩ := by
      simpa [Shape.layouts] using hl
    have hm : ("body", Shape.expr) ∈ [("label", Shape.name), ("body", Shape.expr)] := by simp
    obtain ⟨body, hbody, hfit⟩ := hf.get _ _ hm (by simp)
    have hw := ih members body (List.mem_cons_self ..) hbody hfit
    obtain ⟨-, -, ms, rfl, -⟩ := hfit.isObject (by decide)
    rw [branchList, branchForms]
    refine .cons ?_ (iht (fun i hi => h i (List.mem_cons_of_mem _ hi))
      (fun ms body hm => ih ms body (List.mem_cons_of_mem _ hm)) (n + 1))
    rw [partOf_object hbody, prune_object (layoutFor?_eq hl tagged)]
    have hlabel := hf.named (.index n :: place) "label" (by simp)
    refine withMembers_kept rfl ?_
    exact .cons ⟨rfl, hlabel⟩ (.cons ⟨rfl, _, hbody, hw _⟩ .nil)

/-- **A document of the shape of an expression writes the one that is read from it.** -/
theorem ofJson_written {j : Json} (h : Fits .expr j) (place : Place) :
    (ofJson place j).Written j (prune .expr j) := by
  induction hn : sizeOf j using Nat.strongRecOn generalizing j place with
  | ind n ih =>
    obtain ⟨l, hl, members, rfl, tagged, hf⟩ := h.isObject (by decide)
    obtain ⟨t, ht, hk⟩ := tagged (exprLayouts_tags hl)
    rw [Json.object.sizeOf_spec] at hn
    rw [ofJson, prune_object (layoutFor?_eq hl tagged)]
    refine build_written hl ht hk hf (fun name hm => ?_) fun name hm => ?_
    · obtain ⟨j, hj, hfit⟩ := hf.get _ _ hm (by simp)
      obtain ⟨-, -, ms, rfl, -⟩ := hfit.isObject (by decide)
      have := sizeOf_lt_of_find? hj
      rw [partOf_object hj]
      exact ⟨_, hj, ih _ (by omega) hfit _ rfl⟩
    · obtain ⟨j, hj, hfit⟩ := hf.get _ _ hm (by simp)
      obtain ⟨items, rfl, hitems⟩ := hfit.isArray rfl
      obtain ⟨e, he⟩ := find?_partsOf_array place hj
      refine ⟨_, he, branchEnd_eq_none hitems, _, hj,
        listing_kept rfl (branchList_forms hitems ?_ _ _)⟩
      intro ms body hms hbody hfit' place'
      have h1 := sizeOf_lt_of_find? hj
      have h2 := List.sizeOf_lt_of_mem hms
      have h3 := sizeOf_lt_of_find? hbody
      simp only [Json.array.sizeOf_spec, Json.object.sizeOf_spec] at h1 h2
      exact ih _ (by omega) hfit' place' rfl

end Expr

/-! ### Declarations -/

namespace Global

lemma suits_params (ps : List Atom) : Suits (Listing (ps.map paramForm)) .params := by
  refine suits_listing rfl fun form hform => ?_
  obtain ⟨p, -, rfl⟩ := List.mem_map.mp hform
  exact suits_withMembers rfl rfl rfl (by simp [Layout.named, suits_named])

lemma paramList_written {ps : List Atom} {items : List (Json × Json)}
    (h : List.Forall₂ (fun p i => paramForm p i.1 i.2) ps items) (place : Place) (n : Nat) :
    paramList place n (items.map (·.1)) = ps.map some := by
  induction h generalizing n with
  | nil => rfl
  | cons hi _ ih =>
    obtain ⟨ms, hms, hm⟩ := WithMembers.members hi
    rw [List.forall_mem_singleton] at hm
    rw [List.map_cons, hms, paramList, ih, Atom.ofMember_named hm]
    rfl

lemma paramList_forms {items : List Json} (h : ∀ i ∈ items, Fits .param i) (place : Place)
    (n : Nat) : ∃ ps, paramList place n items = ps.map some ∧
      List.Forall₂ (fun p i => paramForm p i (prune .param i)) ps items := by
  induction items generalizing n with
  | nil => exact ⟨[], rfl, .nil⟩
  | cons i rest ih =>
    obtain ⟨hi, hrest⟩ := List.forall_mem_cons.mp h
    obtain ⟨l, hl, members, rfl, tagged, hf⟩ := hi.isObject (by decide)
    obtain ⟨ps, hps, hforms⟩ := ih hrest (n + 1)
    refine ⟨Atom.ofMember (.index n :: place) members "name" :: ps,
      by rw [paramList, hps]; rfl, .cons ?_ hforms⟩
    rw [prune_object (layoutFor?_eq hl tagged)]
    obtain rfl : l = ⟨[], [("name", .name), ("multiplicity", .anything), ("type", .anything)]⟩ := by
      simpa [Shape.layouts] using hl
    exact withMembers_kept rfl (.cons ⟨rfl, hf.named _ "name" (by simp)⟩ .nil)

end Global

namespace Declaration

theorem written_suits (d : Declaration) : Suits d.Written .declaration := by
  cases d with
  | global g =>
    rintro j kept ⟨ps, hps, h⟩
    have hsuits : Suits (Tagged "fun" [("name", Named g.name),
        ("params", Listing (ps.map Global.paramForm)), ("body", g.body.Written)] ["resultType"])
        .declaration :=
      suits_tagged rfl rfl (by simp [suits_named, Global.suits_params, Expr.written_suits])
    obtain ⟨hfits, hkept, hagain⟩ := hsuits j kept h
    exact ⟨hfits, hkept, ps, hps, hagain⟩
  | type x => exact suits_tagged rfl rfl (by simp [suits_named])

theorem written_reads {d : Declaration} {j kept : Json} (h : d.Written j kept) (place : Place) :
    ofJson place j = d := by
  cases d with
  | global g =>
    obtain ⟨ps, hps, h⟩ := h
    obtain ⟨ms, rfl, hk, hms⟩ := Tagged.members h
    simp only [List.forall_mem_cons] at hms
    obtain ⟨hname, ⟨_, _, hp, items, rfl, -, hitems⟩, ⟨b, _, hb, hbody⟩, -⟩ := hms
    rw [List.forall₂_map_left_iff] at hitems
    obtain ⟨name, params, body⟩ := g
    have hn : Atom.ofJson (.key "name" :: place) (Table.find? ms "name") = name :=
      Atom.ofMember_named hname
    simp only at hps
    simp [ofJson, Json.get?, hk, Global.ofJson, hn, hp, Global.paramsOfJson,
      Global.paramList_written hitems, hb, Expr.written_reads body _ _ _ hbody, hps]
  | type x =>
    obtain ⟨ms, rfl, hk, hms⟩ := Tagged.members h
    rw [List.forall_mem_singleton] at hms
    have hn : Atom.ofJson (.key "name" :: place) (Table.find? ms "name") = x :=
      Atom.ofMember_named hms
    simp [ofJson, Json.get?, hk, hn]

/-- A document of the shape of a declaration writes the one that is read from it. -/
theorem ofJson_written {j : Json} (h : Fits .declaration j) (place : Place) :
    (ofJson place j).Written j (prune .declaration j) := by
  obtain ⟨l, hl, members, rfl, tagged, hf⟩ := h.isObject (by decide)
  rw [prune_object (layoutFor?_eq hl tagged)]
  simp only [Shape.layouts, declarationLayouts, List.mem_cons, List.not_mem_nil, or_false] at hl
  rcases hl with rfl | rfl
  · obtain ⟨t, ht, hk⟩ := tagged (by simp)
    obtain rfl := List.mem_singleton.mp ht
    obtain ⟨_, hp, hpfit⟩ := hf.get "params" .params (by simp) (by simp)
    obtain ⟨b, hb, hbfit⟩ := hf.get "body" .expr (by simp) (by simp)
    obtain ⟨items, rfl, hitems⟩ := hpfit.isArray rfl
    obtain ⟨ps, hps, hforms⟩ := Global.paramList_forms hitems (.key "params" :: place) 0
    have hparams : KeptAs members "params" .params (Listing (ps.map Global.paramForm)) :=
      ⟨_, hp, listing_kept rfl (List.forall₂_map_left_iff.mpr hforms)⟩
    have hbody := Expr.ofJson_written hbfit (.key "body" :: place)
    have hread : ofJson place (.object members) = .global ⟨Atom.ofMember place members "name",
        .ok (ps.map some), Expr.ofJson (.key "body" :: place) b⟩ := by
      simp [ofJson, Json.get?, hk, Global.ofJson, Atom.ofMember, hp, Global.paramsOfJson, hps, hb]
    rw [hread]
    exact ⟨ps, rfl, tagged_kept ht hk rfl (.cons ⟨rfl, hf.named place "name" (by simp)⟩
      (.cons ⟨rfl, hparams⟩ (.cons ⟨rfl, b, hb, hbody⟩ .nil)))⟩
  · obtain ⟨t, ht, hk⟩ := tagged (by simp)
    obtain rfl := List.mem_singleton.mp ht
    have hread : ofJson place (.object members) = .type (Atom.ofMember place members "name") := by
      simp [ofJson, Json.get?, hk, Atom.ofMember]
    rw [hread]
    exact tagged_kept ht hk rfl (.cons ⟨rfl, hf.named place "name" (by simp)⟩ .nil)

lemma list?_written {ds : List Declaration} {items : List (Json × Json)}
    (h : List.Forall₂ (fun d i => d.Written i.1 i.2) ds items) (place : Place) (n : Nat) :
    list? place n (items.map (·.1)) = some ds := by
  induction h generalizing n with
  | nil => rfl
  | @cons d i ds items hi _ ih =>
    have hread := written_reads hi (.index n :: place)
    obtain ⟨-, -, ms, hms, -⟩ := (written_suits d _ _ hi).1.isObject (by decide)
    rw [hms] at hread
    simp [hms, list?, ih, hread]

lemma list?_forms {items : List Json} (h : ∀ i ∈ items, Fits .declaration i) (place : Place)
    (n : Nat) : ∃ ds, list? place n items = some ds ∧
      List.Forall₂ (fun d i => d.Written i (prune .declaration i)) ds items := by
  induction items generalizing n with
  | nil => exact ⟨[], rfl, .nil⟩
  | cons i rest ih =>
    obtain ⟨hi, hrest⟩ := List.forall_mem_cons.mp h
    obtain ⟨ds, hds, hforms⟩ := ih hrest (n + 1)
    have hw := ofJson_written hi (.index n :: place)
    obtain ⟨-, -, ms, rfl, -⟩ := hi.isObject (by decide)
    exact ⟨_ :: ds, by rw [list?, hds]; rfl; simp, .cons hw hforms⟩

end Declaration

/-! ### Programs -/

namespace Program

theorem written_suits (p : Program) : Suits p.Written .program := by
  have hds : Suits (Listing (p.declarations.map Declaration.Written)) .declarations := by
    refine suits_listing rfl fun form hform => ?_
    obtain ⟨d, -, rfl⟩ := List.mem_map.mp hform
    exact d.written_suits
  exact suits_withMembers rfl rfl rfl (by simp [Layout.named, hds])

/-- **Documents that write a program read as it.** -/
theorem written_reads {p : Program} {doc kept : Json} (h : p.Written doc kept) :
    ofJson doc = p := by
  obtain ⟨ms, rfl, hms⟩ := WithMembers.members h
  obtain ⟨_, _, hi, items, rfl, -, hitems⟩ := List.forall_mem_singleton.mp hms
  rw [List.forall₂_map_left_iff] at hitems
  simp [ofJson, ofJson?, Json.get?, hi, Declaration.ofJson?, Declaration.list?_written hitems]

/-- **A document of the shape of a program writes the one that is read from it.** -/
theorem ofJson_written {doc : Json} (h : Fits .program doc) :
    (ofJson doc).Written doc (prune .program doc) := by
  obtain ⟨l, hl, members, rfl, tagged, hf⟩ := h.isObject (by decide)
  rw [prune_object (layoutFor?_eq hl tagged)]
  obtain rfl : l = ⟨[], [("declarations", .declarations)]⟩ := by simpa [Shape.layouts] using hl
  obtain ⟨_, hj, hfit⟩ := hf.get "declarations" .declarations (by simp) (by simp)
  obtain ⟨items, rfl, hitems⟩ := hfit.isArray rfl
  obtain ⟨ds, hds, hforms⟩ := Declaration.list?_forms hitems [.key "declarations"] 0
  have hread : ofJson (.object members) = ⟨ds⟩ := by
    simp [ofJson, ofJson?, Json.get?, hj, Declaration.ofJson?, hds]
  rw [hread]
  have hlist := listing_kept (s := .declarations) rfl (List.forall₂_map_left_iff.mpr hforms)
  exact withMembers_kept rfl (.cons ⟨rfl, _, hj, hlist⟩ .nil)

end Program

/-- **A valid document writes its program.** -/
theorem validate_written {doc : Option Json} {v : Valid} (h : validate doc = .ok v) :
    v.program.Written v.doc v.doc := by
  unfold validate at h
  split at h
  · cases h
  · next kept hc =>
    simp only at h
    split at h
    · cases h
      cases doc with
      | none => simp [check?, Shape.mismatch, Verdict.refuse] at hc
      | some j =>
        have hc : check .program j = ⟨some kept, [], false⟩ := hc
        have hclean : (check .program j).isClean = true := by rw [hc]; rfl
        have htold := check_told .program j
        have hkept : some kept = some (prune .program j) := by rw [← htold.data hclean, hc]
        cases hkept
        have hw := Program.ofJson_written (htold.clean.mp hclean).1
        obtain ⟨-, -, hagain⟩ := Program.written_suits _ _ _ hw
        rwa [Program.written_reads hagain]
    · cases h
  · cases h

end Parley
