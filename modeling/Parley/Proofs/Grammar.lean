import Parley.Proofs.Table
import Parley.Validation

/-!
The grammar of documents, and what a verdict without complaints says about one.

The check walks a document once and shares what it finds out about a member between layouts.
Here a document fits a shape if one layout of the shape speaks for it; the layouts are not
ordered, and nothing is said about complaints.
-/

namespace Parley.Form

/-- The documents of a shape. Members that the layout does not name are not looked at. -/
inductive Fits : Shape → Json → Prop
  | name {s : String} (h : s ≠ "") : Fits .name (.string s)
  | number {n : Int} (h : -largest ≤ n ∧ n ≤ largest) : Fits .integer (.number (.integer n))
  | decimal {s : String} (h : isDecimal s.toList = true) : Fits .integer (.string s)
  | anything (j : Json) : Fits .anything j
  | object {s : Shape} {l : Layout} {members : List (String × Json)} (hl : l ∈ s.layouts)
      (tagged : l.tags ≠ [] → ∃ t ∈ l.tags, Table.find? members "kind" = some (.string t))
      (there : ∀ f ∈ l.fields, f.2 ≠ .anything → (Table.find? members f.1).isSome)
      (fits : ∀ f ∈ l.fields, ∀ j, Table.find? members f.1 = some j → Fits f.2 j) :
      Fits s (.object members)
  | array {s t : Shape} {items : List Json} (ht : s.item? = some t)
      (fits : ∀ j ∈ items, Fits t j) : Fits s (.array items)

structure HasFields (l : Layout) (members : List (String × Json)) : Prop where
  there : ∀ f ∈ l.fields, f.2 ≠ .anything → (Table.find? members f.1).isSome
  fits : ∀ f ∈ l.fields, ∀ j, Table.find? members f.1 = some j → Fits f.2 j

lemma HasFields.get {l : Layout} {members : List (String × Json)} (h : HasFields l members)
    (name : String) (s : Shape) (hf : (name, s) ∈ l.fields) (hs : s ≠ .anything) :
    ∃ j, Table.find? members name = some j ∧ Fits s j := by
  obtain ⟨j, hj⟩ := Option.isSome_iff_exists.mp (h.there _ hf hs)
  exact ⟨j, hj, h.fits _ hf j hj⟩

lemma Fits.isObject {s : Shape} {j : Json} (h : Fits s j) (hs : s.layouts ≠ []) :
    ∃ l ∈ s.layouts, ∃ members, j = .object members ∧
      (l.tags ≠ [] → ∃ t ∈ l.tags, Table.find? members "kind" = some (.string t)) ∧
      HasFields l members := by
  cases h with
  | object hl tagged there fits => exact ⟨_, hl, _, rfl, tagged, there, fits⟩
  | array ht => cases s <;> simp [Shape.layouts, Shape.item?] at hs ht
  | _ => simp [Shape.layouts] at hs

lemma Fits.isArray {s t : Shape} {j : Json} (h : Fits s j) (hs : s.item? = some t) :
    ∃ items, j = .array items ∧ ∀ i ∈ items, Fits t i := by
  cases h with
  | array ht fits => rw [hs] at ht; cases ht; exact ⟨_, rfl, fits⟩
  | object hl => cases s <;> simp [Shape.layouts, Shape.item?] at hs hl
  | _ => simp [Shape.item?] at hs

lemma sizeOf_lt_of_find? {members : List (String × Json)} {name : String} {j : Json}
    (h : Table.find? members name = some j) : sizeOf j < sizeOf members := by
  have := List.sizeOf_lt_of_mem (Table.mem_of_find? h)
  simp only [Prod.mk.sizeOf_spec] at this
  omega

/-! ### Layouts -/

lemma names_nodup {s : Shape} {l : Layout} (hl : l ∈ s.layouts) :
    ("kind" :: l.fields.map (·.1)).Nodup := by
  revert l
  cases s <;> decide

lemma fields_subset {s : Shape} {l : Layout} (hl : l ∈ s.layouts) : l.fields ⊆ s.fields := by
  revert l
  cases s <;> decide

/-! ### What the check knows about members and items -/

/-- The verdicts on one member, one for each shape that the fields have for it. -/
lemma find?_verdicts (fields : List (String × Shape)) (f : String × Shape) (name : String)
    (v : Shape → Verdict) :
    Table.find? ((fields.filter (·.1 = name)).map fun g => (g, v g.2)) f =
      if f ∈ fields ∧ f.1 = name then some (v f.2) else none := by
  induction fields with
  | nil => simp [Table.find?]
  | cons g rest ih =>
    by_cases hg : g.1 = name
    · by_cases hgf : g = f
      · subst hgf
        simp [Table.find?, hg]
      · have hfg : f ≠ g := fun h => hgf h.symm
        simp [Table.find?, hg, hgf, hfg, ih]
    · have hf : ∀ h : f = g, ¬ f.1 = name := fun h => h ▸ hg
      by_cases hfn : f.1 = name
      · have hfg : f ≠ g := fun h => hf h hfn
        simp [hg, ih, hfg]
      · simp [hg, ih, hfn]

/-- What is known about a member is the verdict on it. -/
lemma find?_checkMembers {fields : List (String × Shape)} {f : String × Shape}
    (hf : f ∈ fields) (members : List (String × Json)) :
    Table.find? (checkMembers fields members) f =
      (Table.find? members f.1).map (check f.2) := by
  induction members with
  | nil => simp [checkMembers, Table.find?]
  | cons e rest ih =>
    obtain ⟨name, j⟩ := e
    rw [checkMembers, Table.find?_append, find?_verdicts fields f name fun s => check s j, ih]
    by_cases h : f.1 = name
    · simp [Table.find?, h, hf]
    · have h' : name ≠ f.1 := fun e => h e.symm
      simp [Table.find?, h, h']

lemma checkItems_eq_map (t : Shape) (items : List Json) :
    checkItems (some t) items = items.map (check t) := by
  induction items with
  | nil => simp [checkItems]
  | cons j rest ih => simp [checkItems, ih]

lemma memberVerdict_eq {fields : List (String × Shape)} {f : String × Shape} (hf : f ∈ fields)
    (members : List (String × Json)) :
    memberVerdict (checkMembers fields members) f =
      (f.1, (check? f.2 (Table.find? members f.1)).under (.key f.1)) := by
  unfold memberVerdict
  rw [find?_checkMembers hf]
  cases Table.find? members f.1 <;> rfl

/-! ### Clean verdicts -/

lemma isClean_iff {v : Verdict} : v.isClean = true ↔ v.issues = [] ∧ v.broken = false := by
  simp [Verdict.isClean]

lemma isClean_under {v : Verdict} {s : Segment} :
    (v.under s).isClean = true ↔ v.isClean = true := by
  simp [Verdict.isClean, Verdict.under]

lemma isClean_gather {vs : List (String × Verdict)} :
    (gather vs).isClean = true ↔ ∀ v ∈ vs, v.2.isClean = true := by
  simp only [isClean_iff, gather, List.flatMap_eq_nil_iff, List.any_eq_false, Bool.not_eq_true]
  constructor
  · rintro ⟨hi, hb⟩ v hv
    exact ⟨hi v hv, hb v hv⟩
  · intro h
    exact ⟨fun v hv => (h v hv).1, fun v hv => (h v hv).2⟩

lemma gatherItems_eq_nil {n : Nat} {vs : List Verdict} :
    gatherItems n vs = [] ↔ ∀ v ∈ vs, v.issues = [] := by
  induction vs generalizing n with
  | nil => simp [gatherItems]
  | cons v rest ih =>
    rw [gatherItems, List.append_eq_nil_iff, ih, List.forall_mem_cons]
    simp [Verdict.under]

lemma isClean_items {data : Option Json} {vs : List Verdict} :
    (Verdict.mk data (gatherItems 0 vs) (vs.any (·.broken))).isClean = true ↔
      ∀ v ∈ vs, v.isClean = true := by
  simp only [isClean_iff, gatherItems_eq_nil, List.any_eq_false, Bool.not_eq_true]
  constructor
  · rintro ⟨hi, hb⟩ v hv
    exact ⟨hi v hv, hb v hv⟩
  · intro h
    exact ⟨fun v hv => (h v hv).1, fun v hv => (h v hv).2⟩

lemma choose_clean {vs : List Verdict} (h : (choose vs).isClean = true) :
    ∃ v ∈ vs, v.isClean = true ∧ (choose vs).data = v.data := by
  unfold choose at h ⊢
  cases hf : vs.find? Verdict.isClean with
  | some v => exact ⟨v, List.mem_of_find?_eq_some hf, List.find?_some hf, rfl⟩
  | none =>
    -- the only soft layout passes its issues on, so without issues it must be broken
    exfalso
    rw [hf] at h
    have hnone : ∀ v ∈ vs, v.isClean = false := by simpa using hf
    simp only at h
    split at h
    · next v hv =>
      obtain ⟨hi, hb⟩ := isClean_iff.mp h
      have hv' : v ∈ vs := (List.mem_filter.mp (hv ▸ List.mem_singleton_self v)).1
      have hbv : v.broken = false := by
        simp only [List.any_eq_false, Bool.not_eq_true] at hb
        exact hb v hv'
      have hc : v.isClean = true := isClean_iff.mpr ⟨hi, hbv⟩
      rw [hnone v hv'] at hc
      exact absurd hc (by simp)
    · simp [Verdict.isClean, Verdict.refuse] at h

/-! ### Leaves -/

lemma checkName_fits {j : Json} (h : (checkName j).isClean = true) :
    (checkName j).data = some j ∧ Fits .name j := by
  cases j with
  | string s =>
    by_cases hs : s.isEmpty
    · simp [checkName, hs, Verdict.refuse, Verdict.isClean, length?] at h
    · exact ⟨by simp [checkName, hs, Verdict.accept], .name (by simpa using hs)⟩
  | _ => simp [checkName, Verdict.refuse, Verdict.isClean] at h

lemma checkInteger_fits {j : Json} (h : (checkInteger j).isClean = true) :
    (checkInteger j).data = some j ∧ Fits .integer j := by
  cases j with
  | number n =>
    cases n with
    | integer n =>
      by_cases h1 : largest < n
      · simp [checkInteger, h1, Verdict.refuse, Verdict.isClean] at h
      · by_cases h2 : n < -largest
        · simp [checkInteger, h1, h2, Verdict.refuse, Verdict.isClean] at h
        · exact ⟨by simp [checkInteger, h1, h2, Verdict.accept], .number ⟨by omega, by omega⟩⟩
    | _ => simp [checkInteger, Verdict.refuse, Verdict.isClean] at h
  | string s =>
    by_cases hs : isDecimal s.toList
    · exact ⟨by simp [checkInteger, hs, Verdict.accept], .decimal hs⟩
    · simp [checkInteger, hs, Verdict.refuse, Verdict.isClean] at h
  | _ => simp [checkInteger, Verdict.refuse, Verdict.isClean] at h

/-- Only `anything` has nothing against a value of another type, or against none. -/
lemma mismatch_clean {s : Shape} {j : Option Json} (h : (s.mismatch j).isClean = true) :
    s = .anything := by
  cases s <;> simp [Shape.mismatch, Verdict.refuse, Verdict.isClean] at h ⊢

lemma leafVerdict_fits {s : Shape} {j : Json} (h : (s.leafVerdict j).isClean = true) :
    (s.leafVerdict j).data = some j ∧ Fits s j := by
  by_cases hn : s = .name
  · subst hn; exact checkName_fits h
  by_cases hi : s = .integer
  · subst hi; exact checkInteger_fits h
  have he : s.leafVerdict j = s.mismatch (some j) := by
    cases s <;> first | rfl | exact absurd rfl hn | exact absurd rfl hi
  rw [he] at h ⊢
  obtain rfl := mismatch_clean h
  exact ⟨rfl, .anything j⟩

/-! ### Layouts at work -/

def Layout.verdicts (l : Layout) (members : List (String × Json)) : List (String × Verdict) :=
  (if l.tags.isEmpty then [] else [("kind", (checkTag l.tags members).under (.key "kind"))]) ++
    l.fields.map fun f => (f.1, (Form.check? f.2 (Table.find? members f.1)).under (.key f.1))

lemma verdict_eq_gather {s : Shape} {l : Layout} (hl : l ∈ s.layouts)
    (members : List (String × Json)) :
    l.verdict members (checkMembers s.fields members) = gather (l.verdicts members) := by
  have hm : l.fields.map (memberVerdict (checkMembers s.fields members)) =
      l.fields.map fun f => (f.1, (Form.check? f.2 (Table.find? members f.1)).under (.key f.1)) :=
    List.map_congr_left fun f hf => memberVerdict_eq (fields_subset hl hf) members
  unfold Layout.verdict Layout.verdicts
  rw [hm]

lemma mem_verdicts {l : Layout} {f : String × Shape} (hf : f ∈ l.fields)
    (members : List (String × Json)) :
    (f.1, (Form.check? f.2 (Table.find? members f.1)).under (.key f.1)) ∈ l.verdicts members :=
  List.mem_append_right _ (List.mem_map.mpr ⟨f, hf, rfl⟩)

end Parley.Form
