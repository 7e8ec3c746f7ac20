import Parley.Proofs.Acceptance

/-!
Where findings are. The place of a finding is reported as a text. Split at its points, the text
names the steps that lead from the whole document to the place.

The check complains only about values that are there, under the shape that the grammar has for
them, and about members that should be there.
-/

namespace Parley

def stepsOf (text : String) : List String := (text.split '.').toList.map (·.copy)

lemma point_notMem_toString (n : Nat) : '.' ∉ (toString n).toList := by
  intro h
  have hd := Nat.isDigit_of_mem_toDigits (by decide) (by decide)
    (show '.' ∈ Nat.toDigits 10 n by simpa [Nat.toString_eq_repr] using h)
  exact absurd hd (by decide)

/-- A place has the steps of its text, if no step has a point in it. -/
lemma stepsOf_text {p : Path} (hp : p ≠ []) (h : ∀ s ∈ p, '.' ∉ s.text.toList) :
    stepsOf p.text = p.map Segment.text := by
  have hsplit := String.toList_split_intercalate (c := '.') (l := p.map Segment.text)
    (by simpa using h)
  have hne : p.map Segment.text ≠ [] := by simpa using hp
  have htext : p.text = ".".intercalate (p.map Segment.text) :=
    if_neg (by simpa using hp)
  rw [if_neg hne] at hsplit
  rw [stepsOf, htext]
  exact hsplit

namespace Form

/-! ### Paths through documents -/

/-- A path leads from a value under a shape to a value under a shape, through members that the
object has and that its layout names, and through items that the list has. -/
inductive Leads : Shape → Json → Path → Shape → Json → Prop
  | here (s : Shape) (j : Json) : Leads s j [] s j
  | member {s t u : Shape} {l : Layout} {members : List (String × Json)} {name : String}
      {j i : Json} {p : Path} (hl : s.layoutFor? members = some l) (hf : (name, t) ∈ l.fields)
      (hj : Table.find? members name = some j) (rest : Leads t j p u i) :
      Leads s (.object members) (.key name :: p) u i
  | item {s t u : Shape} {items : List Json} {n : Nat} {j i : Json} {p : Path}
      (ht : s.item? = some t) (hj : items[n]? = some j) (rest : Leads t j p u i) :
      Leads s (.array items) (.index n :: p) u i

/-- A place in a document: that of a value in it, or that of a member which the layout of an
object in it asks for and the object does not have. -/
inductive PointsInto (s : Shape) (doc : Json) : Path → Prop
  | value {p : Path} {t : Shape} {j : Json} (h : Leads s doc p t j) : PointsInto s doc p
  | missing {p : Path} {t u : Shape} {l : Layout} {members : List (String × Json)} {name : String}
      (h : Leads s doc p t (.object members)) (hl : t.layoutFor? members = some l)
      (hf : (name, u) ∈ l.fields) (hu : u ≠ .anything) (hm : Table.find? members name = none) :
      PointsInto s doc (p ++ [.key name])

lemma point_notMem_name {s : Shape} {l : Layout} (hl : l ∈ s.layouts) {f : String × Shape}
    (hf : f ∈ l.fields) : '.' ∉ f.1.toList := by
  revert l f
  cases s <;> decide

lemma layoutFor?_mem {s : Shape} {l : Layout} {members : List (String × Json)}
    (h : s.layoutFor? members = some l) : l ∈ s.layouts := List.mem_of_find?_eq_some h

lemma Leads.point_notMem {s t : Shape} {j i : Json} {p : Path} (h : Leads s j p t i) :
    ∀ x ∈ p, '.' ∉ x.text.toList := by
  induction h with
  | here => simp
  | member hl hf _ _ ih =>
    exact List.forall_mem_cons.mpr ⟨point_notMem_name (layoutFor?_mem hl) hf, ih⟩
  | item _ _ _ ih => exact List.forall_mem_cons.mpr ⟨point_notMem_toString _, ih⟩

lemma PointsInto.point_notMem {s : Shape} {doc : Json} {p : Path} (h : PointsInto s doc p) :
    ∀ x ∈ p, '.' ∉ x.text.toList := by
  cases h with
  | value h => exact h.point_notMem
  | missing h hl hf =>
    intro x hx
    rcases List.mem_append.mp hx with hx | hx
    · exact h.point_notMem x hx
    · rw [List.mem_singleton.mp hx]
      exact point_notMem_name (layoutFor?_mem hl) hf

lemma PointsInto.here (s : Shape) (doc : Json) : PointsInto s doc [] := .value (.here s doc)

lemma PointsInto.member {s t : Shape} {l : Layout} {members : List (String × Json)} {name : String}
    {j : Json} {p : Path} (hl : s.layoutFor? members = some l) (hf : (name, t) ∈ l.fields)
    (hj : Table.find? members name = some j) (h : PointsInto t j p) :
    PointsInto s (.object members) (.key name :: p) := by
  cases h with
  | value h => exact .value (.member hl hf hj h)
  | missing h hl' hf' hu hm => exact .missing (.member hl hf hj h) hl' hf' hu hm

lemma PointsInto.item {s t : Shape} {items : List Json} {n : Nat} {j : Json} {p : Path}
    (ht : s.item? = some t) (hj : items[n]? = some j) (h : PointsInto t j p) :
    PointsInto s (.array items) (.index n :: p) := by
  cases h with
  | value h => exact .value (.item ht hj h)
  | missing h hl' hf' hu hm => exact .missing (.item ht hj h) hl' hf' hu hm

/-! ### What the check complains about -/

lemma path_of_mem_refuse {cs : List Complaint} {i : Issue} (h : i ∈ (Verdict.refuse cs).issues) :
    i.path = [] := by
  obtain ⟨c, -, rfl⟩ := List.mem_map.mp h
  rfl

lemma path_of_mem_mismatch {s : Shape} {j : Option Json} {i : Issue}
    (h : i ∈ (s.mismatch j).issues) : i.path = [] ∧ s ≠ .anything := by
  cases s with
  | anything => cases h
  | _ => exact ⟨path_of_mem_refuse h, by simp⟩

/-- A complaint about a value that is not looked into is about the value itself. -/
lemma path_of_mem_leafVerdict {s : Shape} {j : Json} {i : Issue}
    (h : i ∈ (s.leafVerdict j).issues) : i.path = [] := by
  cases s with
  | name =>
    simp only [Shape.leafVerdict, checkName] at h
    split at h
    · split at h
      · exact path_of_mem_refuse h
      · cases h
    · exact path_of_mem_refuse h
  | integer =>
    simp only [Shape.leafVerdict, checkInteger] at h
    split at h <;> (try split at h) <;> (try split at h) <;>
      first | cases h; done | exact path_of_mem_refuse h
  | _ => exact (path_of_mem_mismatch h).1

lemma mem_gatherItems {n : Nat} {vs : List Verdict} {i : Issue} (h : i ∈ gatherItems n vs) :
    ∃ (k : Nat) (v : Verdict) (i' : Issue),
      vs[k]? = some v ∧ i' ∈ v.issues ∧ i = i'.under (.index (n + k)) := by
  induction vs generalizing n with
  | nil => cases h
  | cons v rest ih =>
    rcases List.mem_append.mp h with h | h
    · obtain ⟨i', hi', rfl⟩ := List.mem_map.mp h
      exact ⟨0, v, i', rfl, hi', rfl⟩
    · obtain ⟨k, w, i', hw, hi', rfl⟩ := ih h
      exact ⟨k + 1, w, i', by simpa using hw, hi', by rw [Nat.add_assoc, Nat.add_comm 1 k]⟩

/-- A choice complains about the whole, or it passes on what the only soft layout has found. -/
lemma mem_choose {vs : List Verdict} {i : Issue} (h : i ∈ (choose vs).issues) :
    i.path = [] ∨ ∃ v ∈ vs, v.isSoft = true ∧ i ∈ v.issues := by
  unfold choose at h
  split at h
  · next v hv =>
    rw [(isClean_iff.mp (List.find?_some hv)).1] at h
    cases h
  · split at h
    · next v hv =>
      obtain ⟨hm, hs⟩ := List.mem_filter.mp (hv ▸ List.mem_singleton_self v)
      exact .inr ⟨v, hm, hs, h⟩
    · exact .inl (path_of_mem_refuse h)

lemma checkTag_isClean_of_isSoft {tags : List String} {members : List (String × Json)}
    (h : (checkTag tags members).isSoft = true) : (checkTag tags members).isClean = true := by
  unfold checkTag at h ⊢
  cases ht : tag? members with
  | none => simp [ht, Verdict.isSoft, Verdict.refuse, Complaint.isSoft] at h
  | some t =>
    by_cases hc : t ∈ tags
    · simp [hc, Verdict.isClean, Verdict.accept]
    · simp [ht, hc, Verdict.isSoft, Verdict.refuse, Complaint.isSoft] at h

lemma isSoft_gather {vs : List (String × Verdict)} (h : (gather vs).isSoft = true) :
    ∀ v ∈ vs, v.2.isSoft = true := by
  intro v hv
  simp only [Verdict.isSoft, gather, List.all_flatMap, List.all_eq_true] at h ⊢
  exact h v hv

lemma isSoft_under {v : Verdict} {s : Segment} : (v.under s).isSoft = v.isSoft := by
  simp [Verdict.isSoft, Verdict.under, Issue.under, Function.comp_def]

section

variable {s : Shape} {l : Layout} {members : List (String × Json)}
  (ih : ∀ (t : Shape) (name : String) (j : Json), Table.find? members name = some j →
    ∀ i ∈ (check t j).issues, PointsInto t j i.path)

include ih

/-- The complaints of the layout that is meant for an object are about its members. -/
lemma verdicts_pointInto (hl : s.layoutFor? members = some l)
    (htag : l.tags ≠ [] → (checkTag l.tags members).isClean = true) {i : Issue}
    (hi : i ∈ (gather (l.verdicts members)).issues) : PointsInto s (.object members) i.path := by
  obtain ⟨v, hv, hiv⟩ := List.mem_flatMap.mp hi
  rcases mem_verdicts_iff.mp hv with ⟨ht, rfl⟩ | ⟨f, hf, rfl⟩
  · rw [(isClean_iff.mp (isClean_under.mpr (htag ht))).1] at hiv
    cases hiv
  · obtain ⟨i', hi', rfl⟩ := List.mem_map.mp hiv
    cases hj : Table.find? members f.1 with
    | some j =>
      rw [hj] at hi'
      exact .member hl hf hj (ih f.2 f.1 j hj i' hi')
    | none =>
      rw [hj] at hi'
      obtain ⟨hp, hs⟩ := path_of_mem_mismatch hi'
      simpa [Issue.under, hp] using PointsInto.missing (.here s (.object members)) hl hf hs hj

lemma objectVerdict_pointsInto {i : Issue}
    (hi : i ∈ (s.objectVerdict members (checkMembers s.fields members)).issues) :
    PointsInto s (.object members) i.path := by
  unfold Shape.objectVerdict at hi
  split at hi
  · rw [path_of_mem_leafVerdict hi]
    exact .here s _
  · next l ls hls =>
    have hmem : l ∈ s.layouts := hls ▸ List.mem_cons_self ..
    cases hch : s.isChoice with
    | true =>
      rw [hch, if_pos rfl, ← hls] at hi
      rcases mem_choose hi with hp | ⟨v, hv, hsoft, hiv⟩
      · rw [hp]
        exact .here s _
      -- the only soft layout has the tag of the object, so it is the one that is meant
      · obtain ⟨l', hl', rfl⟩ := List.mem_map.mp hv
        simp only [verdict_eq_gather hl' members] at hsoft hiv
        have htag : l'.tags ≠ [] → (checkTag l'.tags members).isClean = true := fun ht =>
          checkTag_isClean_of_isSoft (isSoft_under.symm.trans
            (isSoft_gather hsoft _ (mem_verdicts_iff.mpr (.inl ⟨ht, rfl⟩))))
        exact verdicts_pointInto ih (layoutFor?_eq hl' fun ht => checkTag_isClean.mp (htag ht))
          htag hiv
    | false =>
      rw [hch, if_neg (by simp), verdict_eq_gather hmem members] at hi
      have ht : l.tags = [] := by
        revert hmem
        revert l
        cases s <;> simp [Shape.layouts] <;> cases hch
      exact verdicts_pointInto ih (layoutFor?_eq hmem (absurd ht)) (absurd ht) hi

end

lemma arrayVerdict_pointsInto {s : Shape} {items : List Json}
    (ih : ∀ (t : Shape) (j : Json), j ∈ items → ∀ i ∈ (check t j).issues, PointsInto t j i.path)
    {i : Issue} (hi : i ∈ (s.arrayVerdict items (checkItems s.item? items)).issues) :
    PointsInto s (.array items) i.path := by
  unfold Shape.arrayVerdict at hi
  cases ht : s.item? with
  | none =>
    rw [ht] at hi
    rw [path_of_mem_leafVerdict hi]
    exact .here s _
  | some t =>
    simp only [ht, checkItems_eq_map] at hi
    obtain ⟨n, v, i', hv, hi', rfl⟩ := mem_gatherItems hi
    rw [List.getElem?_map] at hv
    obtain ⟨j, hj, rfl⟩ := Option.map_eq_some_iff.mp hv
    rw [Nat.zero_add]
    exact .item ht hj (ih t j (List.mem_of_getElem? hj) i' hi')

/-- Every complaint of the check points into the document. -/
theorem check_pointsInto (s : Shape) (j : Json) :
    ∀ i ∈ (check s j).issues, PointsInto s j i.path := by
  intro i hi
  match j with
  | .object members =>
    rw [check] at hi
    exact objectVerdict_pointsInto (fun t name j hj =>
      have : sizeOf j < sizeOf members := sizeOf_lt_of_find? hj
      check_pointsInto t j) hi
  | .array items =>
    rw [check] at hi
    exact arrayVerdict_pointsInto (fun t j hj =>
      have := List.sizeOf_lt_of_mem hj
      check_pointsInto t j) hi
  | .null | .bool _ | .number _ | .string _ =>
    rw [check] at hi
    · rw [path_of_mem_leafVerdict hi]
      exact .here s _
    all_goals simp
termination_by sizeOf j

lemma not_fits_of_issues {s : Shape} {j : Json} (hb : (check s j).broken = false)
    (hi : (check s j).issues ≠ []) : ¬ Fits s j := fun hf => by
  have htold := check_told s j
  have hnot : ¬ Breaks s j := fun h => by simp [htold.broken.mpr h] at hb
  exact hi (isClean_iff.mp (htold.clean.mpr ⟨hf, hnot⟩)).1

end Form

open Form

/-- The findings about a document that is not of the form of a program are the complaints of the
check. -/
lemma validate_of_issues {doc : Json} (hb : ¬ Breaks .program doc) (hf : ¬ Fits .program doc) :
    validate (some doc) = .error (.findings
      ((check .program doc).issues.map fun i => ⟨i.path, .form i.complaint⟩)) := by
  have htold := check_told .program doc
  have hbroken : (check? .program (some doc)).broken = false :=
    Bool.eq_false_iff.mpr (mt htold.broken.mp hb)
  have hissues : (check? .program (some doc)).issues ≠ [] := fun hi =>
    hf (htold.clean.mp (isClean_iff.mpr ⟨hi, hbroken⟩)).1
  unfold validate
  split
  · next he => simp [he] at hbroken
  · next he => simp [he] at hissues
  · next he =>
    have hi : (check .program doc).issues = _ := congrArg Verdict.issues he
    rw [hi]

/-- **Findings about the form point into the document.** A document that is not of the form of a
program is refused with findings, unless the check breaks off at it. Each of them is at the root
or, when its path is split at the points, at the end of steps through members and items that the
document has and the grammar has for them; only the last step may be to a member that is asked
for and not there. -/
theorem form_findings_point_into_document (doc : Json) (h : ¬ Fits .program doc) :
    (Breaks .program doc ∧ validate (some doc) = .error (.misuse .noText)) ∨
      ∃ fs, validate (some doc) = .error (.findings fs) ∧ fs ≠ [] ∧
        ∀ f ∈ fs, f.problem.path = "$" ∨
          ∃ p, stepsOf f.problem.path = p.map Segment.text ∧ PointsInto .program doc p := by
  by_cases hb : Breaks .program doc
  · exact .inl ⟨hb, validate_of_breaks hb⟩
  obtain ⟨fs, hne, hfs⟩ := validate_of_not_fits hb h
  refine .inr ⟨fs, hfs, hne, fun f hf => ?_⟩
  rw [validate_of_issues hb h] at hfs
  cases hfs
  obtain ⟨i, hi, rfl⟩ := List.mem_map.mp hf
  have hp := check_pointsInto .program doc i hi
  by_cases hroot : i.path = []
  · exact .inl (by simp [Finding.problem, Path.text, hroot])
  · exact .inr ⟨i.path, stepsOf_text hroot hp.point_notMem, hp⟩

def namelessBinding : Json :=
  .object [("declarations", .array [.object [("kind", .string "fun"), ("name", .string "main"),
    ("params", .array []), ("body", .object [("kind", .string "let"), ("name", .string ""),
      ("value", .object [("kind", .string "unit")]),
      ("body", .object [("kind", .string "unit")])])]])]

/-- Of all layouts of expressions only one is soft about the binding, and it points at the
name. -/
theorem namelessBinding_pointed_at :
    ¬ Fits .program namelessBinding ∧
      (∃ fs, validate (some namelessBinding) = .error (.findings fs) ∧
        fs.map (·.problem.path) = ["declarations.0.body.name"]) ∧
      ((Breaks .program namelessBinding ∧
          validate (some namelessBinding) = .error (.misuse .noText)) ∨
        ∃ fs, validate (some namelessBinding) = .error (.findings fs) ∧ fs ≠ [] ∧
          ∀ f ∈ fs, f.problem.path = "$" ∨ ∃ p,
            stepsOf f.problem.path = p.map Segment.text ∧
              PointsInto .program namelessBinding p) := by
  have hnot : ¬ Fits .program namelessBinding := not_fits_of_issues rfl (by decide)
  exact ⟨hnot, ⟨_, rfl, by decide⟩, form_findings_point_into_document namelessBinding hnot⟩

end Parley
