import Mathlib.Data.List.Basic
import Mathlib.Data.List.TakeWhile
import Parley.Proofs.Grammar

/-!
What the check makes of a document. It keeps the members that the layouts name, and it breaks off
where it comes upon a length that cannot be compared with anything.

Where there is a choice of layouts, each is tried with all the members that it names. A member
that is not in the grammar of an object is therefore looked at all the same, if a layout that is
tried before the right one names it.
-/

namespace Parley.Form

/-! ### Pruned documents -/

def Layout.named (l : Layout) : List (String × Shape) :=
  (if l.tags.isEmpty then [] else [("kind", .anything)]) ++ l.fields

/-- The layout that is meant for an object: the one with its tag, if there are tags. -/
def Shape.layoutFor? (s : Shape) (members : List (String × Json)) : Option Layout :=
  s.layouts.find? fun l => l.tags.isEmpty || (tag? members).any l.tags.contains

mutual

/-- A document without the members that the layouts do not name. The members that are left stand
in the order of the layout. -/
def prune (s : Shape) : Json → Json
  | .object members =>
    match s.layoutFor? members with
    | some l =>
      let kept := pruneMembers l.named members
      .object (l.named.filterMap fun f => (Table.find? kept f.1).map fun j => (f.1, j))
    | none => .object members
  | .array items => .array (pruneItems s.item? items)
  | j => j

def pruneItems (s : Option Shape) : List Json → List Json
  | [] => []
  | j :: rest =>
    (match s with
      | some t => prune t j
      | none => j) :: pruneItems s rest

def pruneMembers (named : List (String × Shape)) : List (String × Json) → List (String × Json)
  | [] => []
  | (name, j) :: rest =>
    match Table.find? named name with
    | some s => (name, prune s j) :: pruneMembers named rest
    | none => pruneMembers named rest

end

lemma named_nodup {s : Shape} {l : Layout} (hl : l ∈ s.layouts) : (l.named.map (·.1)).Nodup := by
  have hn := names_nodup hl
  unfold Layout.named
  split
  · exact (List.nodup_cons.mp hn).2
  · exact hn

lemma fields_subset_named (l : Layout) : l.fields ⊆ l.named := List.subset_append_right _ _

lemma find?_pruneMembers {named : List (String × Shape)} (hn : (named.map (·.1)).Nodup)
    {f : String × Shape} (hf : f ∈ named) (members : List (String × Json)) :
    Table.find? (pruneMembers named members) f.1 =
      (Table.find? members f.1).map (prune f.2) := by
  have hs : Table.find? named f.1 = some f.2 := Table.find?_of_mem hn hf
  induction members with
  | nil => simp [pruneMembers, Table.find?]
  | cons e rest ih =>
    obtain ⟨name, j⟩ := e
    by_cases h : name = f.1
    · subst h
      simp [pruneMembers, hs, Table.find?]
    · cases hname : Table.find? named name <;> simp [pruneMembers, hname, Table.find?, h, ih]

def Layout.kept (l : Layout) (members : List (String × Json)) : List (String × Json) :=
  l.named.filterMap fun f => (Table.find? members f.1).map fun j => (f.1, prune f.2 j)

lemma prune_object {s : Shape} {l : Layout} {members : List (String × Json)}
    (h : s.layoutFor? members = some l) : prune s (.object members) = .object (l.kept members) := by
  have hn := named_nodup (List.mem_of_find?_eq_some h)
  rw [prune, h]
  refine congrArg Json.object (List.filterMap_congr fun f hf => ?_)
  simp [find?_pruneMembers hn hf, Function.comp_def]

lemma find?_layoutKept {s : Shape} {l : Layout} (hl : l ∈ s.layouts) {f : String × Shape}
    (hf : f ∈ l.named) (members : List (String × Json)) :
    Table.find? (l.kept members) f.1 = (Table.find? members f.1).map (prune f.2) := by
  have hk : l.kept members = l.named.filterMap fun f =>
      ((Table.find? members f.1).map (prune f.2)).map fun j => (f.1, j) :=
    List.filterMap_congr fun f _ => (Option.map_map ..).symm
  rw [hk]
  exact Table.find?_filterMap (named_nodup hl) hf

lemma mem_named_of_find?_kept {l : Layout} {members : List (String × Json)} {name : String}
    {j : Json} (h : Table.find? (l.kept members) name = some j) :
    ∃ f ∈ l.named, f.1 = name ∧ ∃ i, Table.find? members name = some i ∧ j = prune f.2 i := by
  obtain ⟨f, hf, hfj⟩ := List.mem_filterMap.mp (Table.mem_of_find? h)
  obtain ⟨i, hi, he⟩ := Option.map_eq_some_iff.mp hfj
  cases he
  exact ⟨f, hf, rfl, i, hi, rfl⟩

lemma pruneItems_some (t : Shape) (items : List Json) :
    pruneItems (some t) items = items.map (prune t) := by
  induction items with
  | nil => simp [pruneItems]
  | cons j rest ih => simp [pruneItems, ih]

lemma pruneItems_none (items : List Json) : pruneItems none items = items := by
  induction items with
  | nil => simp [pruneItems]
  | cons j rest ih => simp [pruneItems, ih]

/-- A value is not looked into under a shape. -/
def IsLeaf (s : Shape) : Json → Prop
  | .object _ => s.layouts = []
  | .array _ => s.item? = none
  | _ => True

lemma IsLeaf.prune_eq {s : Shape} {j : Json} (h : IsLeaf s j) : prune s j = j := by
  cases j with
  | object members =>
    have hl : s.layouts = [] := h
    simp [prune, Shape.layoutFor?, hl]
  | array items =>
    have hi : s.item? = none := h
    rw [prune, hi, pruneItems_none]
  | _ => rfl

lemma isLeaf_of_layouts {s : Shape} (hl : s.layouts = []) (hi : s.item? = none) (j : Json) :
    IsLeaf s j := by
  cases j <;> first | exact hl | exact hi | trivial

@[simp] lemma prune_anything (j : Json) : prune .anything j = j :=
  (isLeaf_of_layouts rfl rfl j).prune_eq

/-! ### Layouts for objects -/

structure Layout.Covers (l : Layout) (members : List (String × Json)) : Prop
    extends HasFields l members where
  tagged : l.tags ≠ [] → ∃ t ∈ l.tags, Table.find? members "kind" = some (.string t)

lemma layouts_find?_tag {s : Shape} {l : Layout} (hl : l ∈ s.layouts) {t : String}
    (ht : t ∈ l.tags) :
    (s.layouts.find? fun l => l.tags.isEmpty || l.tags.contains t) = some l := by
  revert l t
  cases s <;> simp [Shape.layouts, exprLayouts, declarationLayouts]

lemma layouts_eq_singleton {s : Shape} {l : Layout} (hl : l ∈ s.layouts) (ht : l.tags = []) :
    s.layouts = [l] := by
  revert l
  cases s <;> simp [Shape.layouts, exprLayouts, declarationLayouts]

/-- The layout with the tag of an object is the one that is meant for it. -/
lemma layoutFor?_eq {s : Shape} {l : Layout} {members : List (String × Json)} (hl : l ∈ s.layouts)
    (h : l.tags ≠ [] → ∃ t ∈ l.tags, Table.find? members "kind" = some (.string t)) :
    s.layoutFor? members = some l := by
  by_cases ht : l.tags = []
  · simp [Shape.layoutFor?, layouts_eq_singleton hl ht, ht]
  · obtain ⟨t, htl, hk⟩ := h ht
    have htag : tag? members = some t := by simp [tag?, hk]
    simpa [Shape.layoutFor?, htag] using layouts_find?_tag hl htl

lemma fits_object_iff {s : Shape} {members : List (String × Json)} (hs : s.layouts ≠ []) :
    Fits s (.object members) ↔ ∃ l ∈ s.layouts, l.Covers members := by
  constructor
  · intro h
    obtain ⟨l, hl, ms, he, tagged, hf⟩ := h.isObject hs
    cases he
    exact ⟨l, hl, hf, tagged⟩
  · rintro ⟨l, hl, h⟩
    exact .object hl h.tagged h.there h.fits

/-! ### Where the check breaks off -/

/-- The check comes upon a length that cannot be compared with anything. Layouts are tried in
order, and none behind the first that covers the object. -/
inductive Breaks : Shape → Json → Prop
  | length {members : List (String × Json)} {j : Json}
      (hj : Table.find? members "length" = some j) (h : j.display? = none) :
      Breaks .name (.object members)
  | member {s : Shape} {l : Layout} {before behind : List Layout} {f : String × Shape}
      {members : List (String × Json)} {j : Json} (hl : s.layouts = before ++ l :: behind)
      (tried : ∀ l' ∈ before, ¬ l'.Covers members) (hf : f ∈ l.fields)
      (hj : Table.find? members f.1 = some j) (h : Breaks f.2 j) : Breaks s (.object members)
  | item {s t : Shape} {items : List Json} {j : Json} (ht : s.item? = some t) (hj : j ∈ items)
      (h : Breaks t j) : Breaks s (.array items)

def Layout.BreaksOn (l : Layout) (members : List (String × Json)) : Prop :=
  ∃ f ∈ l.fields, ∃ j, Table.find? members f.1 = some j ∧ Breaks f.2 j

/-- All that the check finds out about a document, but for its complaints. -/
structure Told (s : Shape) (j : Json) (v : Verdict) : Prop where
  broken : v.broken = true ↔ Breaks s j
  clean : v.isClean = true ↔ Fits s j ∧ ¬ Breaks s j
  data : v.isClean = true → v.data = some (prune s j)

/-! ### Leaves -/

lemma numeric?_eq_none {j : Json} : numeric? j = none ↔ j.display? = none := by
  cases j <;> simp [numeric?, Json.display?]

lemma ofJson_eq_incomparable {j : Json} : Length.ofJson j = .incomparable ↔ j.display? = none := by
  rw [← numeric?_eq_none]
  unfold Length.ofJson
  split
  · next n hn => split <;> simp [hn]
  · next hn => simp [hn]
  · next hn => simp [hn]

/-- Only a name can break off at a value that is not looked into. -/
lemma IsLeaf.breaks_iff {s : Shape} {j : Json} (h : IsLeaf s j) :
    Breaks s j ↔ s = .name ∧ length? j = some .incomparable := by
  constructor
  · intro hb
    cases hb with
    | length hj hd =>
      exact ⟨rfl, Option.map_eq_some_iff.mpr ⟨_, hj, ofJson_eq_incomparable.mpr hd⟩⟩
    | member hl =>
      rw [show s.layouts = [] from h] at hl
      simp at hl
    | item ht =>
      rw [show s.item? = none from h] at ht
      cases ht
  · rintro ⟨rfl, hb⟩
    cases j with
    | object members =>
      obtain ⟨i, hi, he⟩ := Option.map_eq_some_iff.mp hb
      exact .length hi (ofJson_eq_incomparable.mp he)
    | string | array =>
      simp only [length?] at hb
      split at hb <;> simp at hb
    | _ => simp [length?] at hb

lemma mismatch_broken (s : Shape) (j : Option Json) : (s.mismatch j).broken = false := by
  cases s <;> rfl

lemma leafVerdict_broken (s : Shape) (j : Json) :
    (s.leafVerdict j).broken = true ↔ s = .name ∧ length? j = some .incomparable := by
  cases s with
  | name =>
    cases j with
    | string s =>
      by_cases hs : s.isEmpty <;>
        simp [Shape.leafVerdict, checkName, hs, Verdict.refuse, Verdict.accept, length?]
    | _ => simp [Shape.leafVerdict, checkName]
  | integer =>
    simp only [Shape.leafVerdict, checkInteger]
    split <;> (try split) <;> (try split) <;> simp [Verdict.refuse, Verdict.accept]
  | _ => simp [Shape.leafVerdict, mismatch_broken]

lemma IsLeaf.clean {s : Shape} {j : Json} (h : IsLeaf s j) (hfit : Fits s j) :
    (s.leafVerdict j).isClean = true := by
  cases hfit with
  | name hs => simp [Shape.leafVerdict, checkName, hs, Verdict.accept, Verdict.isClean]
  | number hn =>
    simp [Shape.leafVerdict, checkInteger, Int.not_lt.mpr hn.1, Int.not_lt.mpr hn.2,
      Verdict.accept, Verdict.isClean]
  | decimal hs => simp [Shape.leafVerdict, checkInteger, hs, Verdict.accept, Verdict.isClean]
  | anything => rfl
  | object hl =>
    rw [show s.layouts = [] from h] at hl
    cases hl
  | array ht =>
    rw [show s.item? = none from h] at ht
    cases ht

lemma IsLeaf.told {s : Shape} {j : Json} (h : IsLeaf s j) : Told s j (s.leafVerdict j) := by
  have hbroken := (leafVerdict_broken s j).trans h.breaks_iff.symm
  refine ⟨hbroken, ⟨fun hc => ⟨(leafVerdict_fits hc).2, ?_⟩, fun hc => h.clean hc.1⟩, fun hc => ?_⟩
  · rw [← hbroken, (isClean_iff.mp hc).2]
    simp
  · rw [(leafVerdict_fits hc).1, h.prune_eq]

/-! ### Members -/

section

variable {s : Shape} {j : Option Json}

/-- The check breaks off at a member only if it is there. -/
lemma check?_broken (h : ∀ i, j = some i → Told s i (check s i)) :
    (check? s j).broken = true ↔ ∃ i, j = some i ∧ Breaks s i := by
  cases j with
  | none => simp [check?, mismatch_broken]
  | some i => simpa [check?] using (h i rfl).broken

lemma check?_isClean (h : ∀ i, j = some i → Told s i (check s i)) :
    (check? s j).isClean = true ↔
      (s ≠ .anything → j.isSome) ∧ ∀ i, j = some i → Fits s i ∧ ¬ Breaks s i := by
  cases j with
  | none =>
    simp only [check?, Option.isSome_none, Bool.false_eq_true, imp_false, not_not, reduceCtorEq,
      false_imp_iff, implies_true, and_true]
    exact ⟨mismatch_clean, fun hs => hs ▸ rfl⟩
  | some i => simpa [check?] using (h i rfl).clean

lemma check?_data (h : ∀ i, j = some i → Told s i (check s i))
    (hc : (check? s j).isClean = true) : (check? s j).data = j.map (prune s) := by
  cases j with
  | none => rw [mismatch_clean hc]; rfl
  | some i => exact (h i rfl).data hc

end

lemma checkTag_isClean {tags : List String} {members : List (String × Json)} :
    (checkTag tags members).isClean = true ↔
      ∃ t ∈ tags, Table.find? members "kind" = some (.string t) := by
  unfold checkTag tag?
  split
  · next t ht =>
    split at ht <;> cases ht
    next hk =>
    by_cases hm : t ∈ tags <;> simp [hm, hk, Verdict.accept, Verdict.refuse, Verdict.isClean]
  · next ht =>
    have hk : ∀ t, Table.find? members "kind" ≠ some (.string t) := fun t hk => by simp [hk] at ht
    simp [hk, Verdict.refuse, Verdict.isClean]

lemma checkTag_data {tags : List String} {members : List (String × Json)}
    (h : (checkTag tags members).isClean = true) :
    (checkTag tags members).data = Table.find? members "kind" := by
  obtain ⟨t, ht, hk⟩ := checkTag_isClean.mp h
  simp [checkTag, tag?, hk, ht, Verdict.accept]

lemma checkTag_broken (tags : List String) (members : List (String × Json)) :
    (checkTag tags members).broken = false := by
  unfold checkTag
  split
  · split <;> rfl
  · rfl

/-! ### One layout -/

lemma mem_verdicts_iff {l : Layout} {members : List (String × Json)} {v : String × Verdict} :
    v ∈ l.verdicts members ↔
      (l.tags ≠ [] ∧ v = ("kind", (checkTag l.tags members).under (.key "kind"))) ∨
        ∃ f ∈ l.fields, v = (f.1, (check? f.2 (Table.find? members f.1)).under (.key f.1)) := by
  simp only [Layout.verdicts, List.mem_append, List.mem_map, @eq_comm _ v]
  by_cases ht : l.tags = [] <;> simp [ht, @eq_comm _ v]

section

variable {l : Layout} {members : List (String × Json)}
  (ih : ∀ (t : Shape) (name : String) (j : Json), Table.find? members name = some j →
    Told t j (check t j))

include ih

lemma verdicts_broken : (gather (l.verdicts members)).broken = true ↔ l.BreaksOn members := by
  have hb : (gather (l.verdicts members)).broken = true ↔
      ∃ v ∈ l.verdicts members, v.2.broken = true := List.any_eq_true
  rw [hb]
  constructor
  · rintro ⟨v, hv, hv'⟩
    rcases mem_verdicts_iff.mp hv with ⟨-, rfl⟩ | ⟨f, hf, rfl⟩
    · simp [Verdict.under, checkTag_broken] at hv'
    · obtain ⟨j, hj, h⟩ := (check?_broken (ih f.2 f.1)).mp hv'
      exact ⟨f, hf, j, hj, h⟩
  · rintro ⟨f, hf, j, hj, h⟩
    exact ⟨_, mem_verdicts hf members, (check?_broken (ih f.2 f.1)).mpr ⟨j, hj, h⟩⟩

lemma verdicts_isClean : (gather (l.verdicts members)).isClean = true ↔
    l.Covers members ∧ ¬ l.BreaksOn members := by
  have hfield (f : String × Shape) := check?_isClean (ih f.2 f.1)
  rw [isClean_gather]
  constructor
  · intro h
    have hf : ∀ f ∈ l.fields, (check? f.2 (Table.find? members f.1)).isClean = true :=
      fun f hf => isClean_under.mp (h _ (mem_verdicts hf members))
    refine ⟨⟨⟨fun f hm => ((hfield f).mp (hf f hm)).1, fun f hm j hj =>
      (((hfield f).mp (hf f hm)).2 j hj).1⟩, fun ht => ?_⟩, ?_⟩
    · have hk := h _ (mem_verdicts_iff.mpr (.inl ⟨ht, rfl⟩))
      exact checkTag_isClean.mp (isClean_under.mp hk)
    · rintro ⟨f, hm, j, hj, hb⟩
      exact (((hfield f).mp (hf f hm)).2 j hj).2 hb
  · rintro ⟨hc, hb⟩ v hv
    rcases mem_verdicts_iff.mp hv with ⟨ht, rfl⟩ | ⟨f, hm, rfl⟩
    · exact isClean_under.mpr (checkTag_isClean.mpr (hc.tagged ht))
    · rw [isClean_under, hfield]
      exact ⟨hc.there f hm, fun j hj => ⟨hc.fits f hm j hj, fun h => hb ⟨f, hm, j, hj, h⟩⟩⟩

lemma verdicts_data (h : (gather (l.verdicts members)).isClean = true) :
    (gather (l.verdicts members)).data = some (.object (l.kept members)) := by
  have hclean := isClean_gather.mp h
  have hfields : (l.fields.map fun f =>
        (f.1, (check? f.2 (Table.find? members f.1)).under (.key f.1))).filterMap
          (fun v => v.2.data.map fun d => (v.1, d)) =
      l.fields.filterMap fun f => (Table.find? members f.1).map fun j => (f.1, prune f.2 j) := by
    rw [List.filterMap_map]
    refine List.filterMap_congr fun f hf => ?_
    have hc := isClean_under.mp (hclean _ (mem_verdicts hf members))
    simp [Verdict.under, check?_data (ih f.2 f.1) hc, Function.comp_def]
  unfold gather Layout.kept Layout.named
  by_cases ht : l.tags = []
  · simp only [Layout.verdicts, ht, List.isEmpty_nil, if_true, List.nil_append, hfields]
  · have hk := hclean _ (mem_verdicts_iff.mpr (.inl ⟨ht, rfl⟩))
    have hdata := checkTag_data (isClean_under.mp hk)
    simp only [Layout.verdicts, List.isEmpty_iff, ht, if_false, List.filterMap_append, hfields]
    cases hm : Table.find? members "kind" <;> simp [Verdict.under, hdata, hm]

end

/-! ### Choices -/

lemma broken_choose (vs : List Verdict) :
    (choose vs).broken = (vs.takeWhile fun v => !v.isClean).any (·.broken) := by
  unfold choose
  cases hf : vs.find? Verdict.isClean with
  | some v => rfl
  | none =>
    have hall : (vs.takeWhile fun v => !v.isClean) = vs :=
      List.takeWhile_eq_self_iff.mpr (by simpa using hf)
    rw [hall]
    simp only
    split <;> rfl

/-- A choice breaks off at a layout that does, if none before it is clean. -/
lemma choose_broken_of {before behind : List Verdict} {v : Verdict} (hv : v.broken = true)
    (h : ∀ u ∈ before, u.isClean = false) : (choose (before ++ v :: behind)).broken = true := by
  have hc : v.isClean = false := by simp [Verdict.isClean, hv]
  rw [broken_choose, List.takeWhile_append_of_pos (by simpa using h)]
  simp [hc, hv]

lemma exists_of_choose_broken {vs : List Verdict} (h : (choose vs).broken = true) :
    ∃ before v behind, vs = before ++ v :: behind ∧ v.broken = true ∧
      ∀ u ∈ before, u.isClean = false ∧ u.broken = false := by
  rw [broken_choose] at h
  have hfirst : ∃ v, vs.find? (fun v => v.isClean || v.broken) = some v ∧ v.broken = true := by
    induction vs with
    | nil => simp at h
    | cons w rest ih =>
      cases hb : w.broken with
      | true => simp [hb]
      | false => cases hc : w.isClean <;> simp [hb, hc] at h ⊢; exact ih (by simpa using h)
  obtain ⟨v, hv, hb⟩ := hfirst
  obtain ⟨-, before, behind, he, hu⟩ := List.find?_eq_some_iff_append.mp hv
  exact ⟨before, v, behind, he, hb, by simpa using hu⟩

lemma choose_isClean {vs : List Verdict} : (choose vs).isClean = true ↔
    (∃ v ∈ vs, v.isClean = true) ∧ (choose vs).broken = false := by
  constructor
  · intro h
    obtain ⟨v, hv, hc, -⟩ := choose_clean h
    exact ⟨⟨v, hv, hc⟩, (isClean_iff.mp h).2⟩
  · rintro ⟨⟨v, hv, hc⟩, hb⟩
    obtain ⟨w, hw⟩ := Option.isSome_iff_exists.mp (List.find?_isSome.mpr ⟨v, hv, hc⟩)
    refine isClean_iff.mpr ⟨?_, hb⟩
    have hi : (choose vs).issues = w.issues := by simp only [choose, hw]
    rw [hi]
    exact (isClean_iff.mp (List.find?_some hw)).1

lemma layouts_of_isChoice {s : Shape} {l : Layout} (hl : l ∈ s.layouts) (hs : s.isChoice = false) :
    s.layouts = [l] := by
  revert l
  cases s <;> simp [Shape.layouts] <;> cases hs

lemma choose_singleton (v : Verdict) :
    (choose [v]).broken = v.broken ∧ (choose [v]).isClean = v.isClean ∧
      (v.isClean = true → (choose [v]).data = v.data) := by
  cases hc : v.isClean with
  | true => simp [choose, Verdict.isClean, (isClean_iff.mp hc).1, (isClean_iff.mp hc).2]
  | false =>
    have hb : (choose [v]).broken = v.broken := by simp [broken_choose, hc]
    have hcl : (choose [v]).isClean = false := by
      rw [Bool.eq_false_iff, Ne, choose_isClean]
      simp [hc]
    simp [hb, hcl]

section

variable {s : Shape} {members : List (String × Json)}
  (ih : ∀ (t : Shape) (name : String) (j : Json), Table.find? members name = some j →
    Told t j (check t j))

include ih

/-- Trying the layouts in order breaks off where a document does. -/
lemma choose_breaks (hs : s.layouts ≠ []) :
    (choose (s.layouts.map fun l => gather (l.verdicts members))).broken = true ↔
      Breaks s (.object members) := by
  constructor
  · intro h
    obtain ⟨before, v, behind, he, hv, hu⟩ := exists_of_choose_broken h
    obtain ⟨ls, rest, hl, rfl, hrest⟩ := List.map_eq_append_iff.mp he
    obtain ⟨l, ls', rfl, rfl, -⟩ := List.map_eq_cons_iff.mp hrest
    obtain ⟨f, hf, j, hj, hb⟩ := (verdicts_broken ih).mp hv
    refine .member hl (fun l' hl' hc => ?_) hf hj hb
    -- a layout that covers the object and does not break off is clean
    obtain ⟨hclean, hbroken⟩ := hu _ (List.mem_map_of_mem hl')
    have hcl := (verdicts_isClean ih).mpr ⟨hc, fun hon => by
      simp [(verdicts_broken ih).mpr hon] at hbroken⟩
    simp [hcl] at hclean
  · intro h
    cases h with
    | length => exact absurd rfl hs
    | member hl tried hf hj hb =>
      rw [hl, List.map_append, List.map_cons]
      refine choose_broken_of ((verdicts_broken ih).mpr ⟨_, hf, _, hj, hb⟩) fun u hu => ?_
      obtain ⟨l', hl', rfl⟩ := List.mem_map.mp hu
      rw [Bool.eq_false_iff, Ne, verdicts_isClean ih]
      exact fun hc => tried l' hl' hc.1

lemma choose_told (hs : s.layouts ≠ []) : Told s (.object members)
    (choose (s.layouts.map fun l => gather (l.verdicts members))) := by
  have hbroken := choose_breaks ih hs
  refine ⟨hbroken, ?_, fun hc => ?_⟩
  · rw [choose_isClean, Bool.eq_false_iff, Ne, hbroken, fits_object_iff hs]
    refine and_congr_left fun hb => ?_
    simp only [List.mem_map, exists_exists_and_eq_and, verdicts_isClean ih]
    constructor
    · rintro ⟨l, hl, hc, -⟩
      exact ⟨l, hl, hc⟩
    · rintro ⟨l, hl, hc⟩
      refine ⟨l, hl, hc, fun ⟨f, hf, j, hj, hbf⟩ => hb ?_⟩
      -- no layout before the one that is meant for the object covers it
      obtain ⟨before, behind, he, hnot⟩ := List.eq_append_cons_of_mem hl
      refine .member he (fun l' hl' hc' => hnot ?_) hf hj hbf
      have hm : l' ∈ s.layouts := he ▸ List.mem_append_left _ hl'
      obtain rfl : l' = l := Option.some.inj ((layoutFor?_eq hm hc'.tagged).symm.trans
        (layoutFor?_eq hl hc.tagged))
      exact hl'
  · obtain ⟨v, hv, hvc, hd⟩ := choose_clean hc
    obtain ⟨l, hl, rfl⟩ := List.mem_map.mp hv
    rw [hd, verdicts_data ih hvc,
      prune_object (layoutFor?_eq hl ((verdicts_isClean ih).mp hvc).1.tagged)]

lemma objectVerdict_told :
    Told s (.object members) (s.objectVerdict members (checkMembers s.fields members)) := by
  have hmap : (s.layouts.map fun l => l.verdict members (checkMembers s.fields members)) =
      s.layouts.map fun l => gather (l.verdicts members) :=
    List.map_congr_left fun l hl => verdict_eq_gather hl members
  unfold Shape.objectVerdict
  cases hl : s.layouts with
  | nil =>
    have hleaf : IsLeaf s (.object members) := hl
    exact hleaf.told
  | cons l ls =>
    have htold := choose_told ih (s := s) (by simp [hl])
    rw [← hmap] at htold
    cases hch : s.isChoice with
    | true => simpa [hl] using htold
    | false =>
      rw [layouts_of_isChoice (hl ▸ List.mem_cons_self ..) hch, List.map_singleton] at htold
      obtain ⟨hb, hc, hd⟩ := choose_singleton (l.verdict members (checkMembers s.fields members))
      change Told s _ (l.verdict members (checkMembers s.fields members))
      refine ⟨hb ▸ htold.broken, hc ▸ htold.clean, fun h => ?_⟩
      rw [← hd h]
      exact htold.data (hc ▸ h)

end

/-! ### Documents -/

lemma breaks_array_iff {s t : Shape} {items : List Json} (ht : s.item? = some t) :
    Breaks s (.array items) ↔ ∃ j ∈ items, Breaks t j := by
  constructor
  · intro h
    cases h with
    | item ht' hj h =>
      cases ht.symm.trans ht'
      exact ⟨_, hj, h⟩
  · rintro ⟨j, hj, h⟩
    exact .item ht hj h

lemma fits_array_iff {s t : Shape} {items : List Json} (ht : s.item? = some t) :
    Fits s (.array items) ↔ ∀ j ∈ items, Fits t j := by
  constructor
  · intro h
    obtain ⟨_, he, h⟩ := h.isArray ht
    cases he
    exact h
  · exact .array ht

lemma arrayVerdict_told {s : Shape} {items : List Json}
    (ih : ∀ (t : Shape) (j : Json), j ∈ items → Told t j (check t j)) :
    Told s (.array items) (s.arrayVerdict items (checkItems s.item? items)) := by
  unfold Shape.arrayVerdict
  cases ht : s.item? with
  | none =>
    have hleaf : IsLeaf s (.array items) := ht
    exact hleaf.told
  | some t =>
    simp only [checkItems_eq_map]
    have hclean {data : Option Json} : (Verdict.mk data (gatherItems 0 (items.map (check t)))
        ((items.map (check t)).any (·.broken))).isClean = true ↔
        ∀ j ∈ items, (check t j).isClean = true :=
      isClean_items.trans List.forall_mem_map
    refine ⟨?_, ?_, fun h => ?_⟩
    · rw [breaks_array_iff ht, List.any_map, List.any_eq_true]
      exact exists_congr fun j => and_congr_right fun hj => (ih t j hj).broken
    · rw [hclean, fits_array_iff ht, breaks_array_iff ht]
      constructor
      · intro h
        have htold (j) (hj : j ∈ items) := (ih t j hj).clean.mp (h j hj)
        exact ⟨fun j hj => (htold j hj).1, fun ⟨j, hj, hb⟩ => (htold j hj).2 hb⟩
      · rintro ⟨hf, hb⟩ j hj
        exact (ih t j hj).clean.mpr ⟨hf j hj, fun h => hb ⟨j, hj, h⟩⟩
    · rw [prune, ht, pruneItems_some, List.filterMap_map]
      refine congrArg (some ∘ Json.array) ?_
      rw [← List.filterMap_eq_map]
      exact List.filterMap_congr fun j hj => (ih t j hj).data (hclean.mp h j hj)

/-- **What the check makes of a document**: it breaks off where the document breaks, it is clean
for the documents of the grammar that do not, and what it keeps of them is the pruned document. -/
theorem check_told (s : Shape) (j : Json) : Told s j (check s j) := by
  match j with
  | .object members =>
    rw [check]
    exact objectVerdict_told fun t name j hj =>
      have : sizeOf j < sizeOf members := sizeOf_lt_of_find? hj
      check_told t j
  | .array items =>
    rw [check]
    exact arrayVerdict_told fun t j hj =>
      have := List.sizeOf_lt_of_mem hj
      check_told t j
  | .null | .bool _ | .number _ | .string _ =>
    rw [check]
    · exact IsLeaf.told trivial
    all_goals simp
termination_by sizeOf j

/-! ### Pruned documents are left alone -/

lemma mem_named_iff {l : Layout} {f : String × Shape} :
    f ∈ l.named ↔ (l.tags ≠ [] ∧ f = ("kind", .anything)) ∨ f ∈ l.fields := by
  by_cases ht : l.tags = [] <;> simp [Layout.named, ht]

def annotations : List String :=
  ["multiplicity", "paramType", "sessionType", "counterType", "accType", "resultType",
    "definition", "type"]

/-- A member that may be anything in one layout may be anything in all. -/
lemma anything_iff {s : Shape} {l : Layout} (hl : l ∈ s.layouts) {f : String × Shape}
    (hf : f ∈ l.fields) : f.2 = .anything ↔ f.1 ∈ annotations := by
  revert l f
  cases s <;> decide

lemma length_not_named {s : Shape} {l : Layout} (hl : l ∈ s.layouts) :
    ∀ f ∈ l.named, f.1 ≠ "length" := by
  revert l
  cases s <;> decide

/-- The check does not break off at a pruned document, under whatever shape it is taken. -/
theorem not_breaks_prune {s : Shape} {j : Json} (h : Fits s j) (hs : s ≠ .anything) (t : Shape) :
    ¬ Breaks t (prune s j) := by
  induction h generalizing t with
  | name | number | decimal => rintro ⟨⟩
  | anything => exact absurd rfl hs
  | @object s l members hl tagged there fits ih =>
    rw [prune_object (layoutFor?_eq hl tagged)]
    intro hb
    -- a length is looked up in no layout, and members are pruned by their own shape
    cases hb with
    | length hj =>
      obtain ⟨f, hf, hname, -⟩ := mem_named_of_find?_kept hj
      exact length_not_named hl f hf hname
    | @member _ l' _ _ f' _ _ hl' _ hf' hj hb =>
      have hlm : l' ∈ t.layouts := by simp [hl']
      obtain ⟨f, hf, hname, i, hi, rfl⟩ := mem_named_of_find?_kept hj
      rcases mem_named_iff.mp hf with ⟨-, rfl⟩ | hf
      · have hk := (List.nodup_cons.mp (names_nodup hlm)).1
        exact hk (List.mem_map.mpr ⟨f', hf', hname.symm⟩)
      · by_cases ha : f.2 = .anything
        · have ha' : f'.2 = .anything :=
            (anything_iff hlm hf').mpr (hname ▸ (anything_iff hl hf).mp ha)
          rw [ha', (isLeaf_of_layouts rfl rfl _).breaks_iff] at hb
          cases hb.1
        · exact ih f hf i (hname ▸ hi) ha _ hb
  | @array s t' items ht fits ih =>
    rw [prune, ht, pruneItems_some]
    intro hb
    cases hb with
    | item _ hj hb =>
      obtain ⟨i, hi, rfl⟩ := List.mem_map.mp hj
      refine ih i hi ?_ _ hb
      rintro rfl
      cases s <;> simp [Shape.item?] at ht

end Parley.Form
