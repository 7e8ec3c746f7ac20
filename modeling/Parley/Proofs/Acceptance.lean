import Parley.Proofs.Writing

/-!
Which documents are valid: those that write a program in which no function repeats a parameter
and no case expression repeats a label, unless the check breaks off at a member that is not part
of the program.
-/

namespace Parley

open Form

/-! ### Repeated names -/

def Expr.labels : Expr → List Atom
  | .caseOf _ bs _ => bs.map (·.1)
  | _ => []

/-- No case expression inside an expression repeats a label. -/
def Expr.Distinct (e : Expr) : Prop := e.Every fun a => a.labels.Nodup

def Global.Distinct (g : Global) : Prop := g.paramNames.Nodup ∧ g.body.Distinct

def Program.Distinct (p : Program) : Prop := ∀ g, .global g ∈ p.declarations → g.Distinct

lemma repeated_eq_nil {seen : List Atom} {n : Nat} {xs : List Atom} :
    repeated seen n xs = [] ↔ xs.Nodup ∧ ∀ x ∈ xs, x ∉ seen := by
  induction xs generalizing seen n with
  | nil => simp [repeated]
  | cons x rest ih =>
    by_cases hx : x ∈ seen
    · simp [repeated, hx]
    · rw [repeated, if_neg (by simpa using hx), ih, List.nodup_cons, List.forall_mem_cons]
      constructor
      · rintro ⟨hn, hr⟩
        refine ⟨⟨fun hm => hr x hm (List.mem_cons_self ..), hn⟩, hx, fun y hy hs => ?_⟩
        exact hr y hy (List.mem_cons_of_mem _ hs)
      · rintro ⟨⟨hm, hn⟩, -, hr⟩
        refine ⟨hn, fun y hy hs => ?_⟩
        rcases List.mem_cons.mp hs with rfl | hs
        · exact hm hy
        · exact hr y hy hs

namespace Expr

lemma distinct_iff {e : Expr} : e.Distinct ↔ e.labels.Nodup ∧ ∀ a ∈ e.parts, a.Distinct :=
  ⟨fun h => ⟨h.here, fun _ ha => h.part ha⟩, fun h => ⟨h.1, h.2⟩⟩

lemma branchFindings_eq_nil {bs : List (Atom × Expr)}
    (h : ∀ b ∈ bs, ∀ p, b.2.findings p = [] ↔ b.2.Distinct) (p : Path) (n : Nat) :
    branchFindings p n bs = [] ↔ ∀ b ∈ bs, b.2.Distinct := by
  induction bs generalizing n with
  | nil => simp [branchFindings]
  | cons b rest ih =>
    obtain ⟨hb, hrest⟩ := List.forall_mem_cons.mp h
    rw [branchFindings, List.append_eq_nil_iff, hb, ih hrest, List.forall_mem_cons]

/-- Nothing is found in an expression if and only if no case expression inside it repeats a
label. -/
theorem findings_eq_nil (e : Expr) : ∀ p, e.findings p = [] ↔ e.Distinct := by
  induction e using induction_on_parts with
  | h e ih =>
    intro p
    rw [distinct_iff]
    cases e with
    | caseOf a bs rest =>
      simp only [parts, List.forall_mem_cons, List.forall_mem_map] at ih ⊢
      simp only [findings, List.append_eq_nil_iff, List.map_eq_nil_iff, repeated_eq_nil, ih.1,
        branchFindings_eq_nil ih.2, labels]
      simp [and_assoc]
    | _ => simp_all [findings, parts, labels]

end Expr

lemma Declaration.findings_eq_nil {d : Declaration} {p : Path} :
    d.findings p = [] ↔ ∀ g, d = .global g → g.Distinct := by
  cases d with
  | type => simp [findings]
  | global g => simp [findings, repeated_eq_nil, Expr.findings_eq_nil, Global.Distinct]

lemma declarationFindings_eq_nil {n : Nat} {ds : List Declaration} :
    declarationFindings n ds = [] ↔ ∀ g, .global g ∈ ds → g.Distinct := by
  induction ds generalizing n with
  | nil => simp [declarationFindings]
  | cons d rest ih =>
    rw [declarationFindings, List.append_eq_nil_iff, Declaration.findings_eq_nil, ih]
    simp only [List.mem_cons, or_imp, forall_and, eq_comm]

/-- Nothing is found in a program if and only if its names are distinct. -/
theorem Program.findings_eq_nil {p : Program} : p.findings = [] ↔ p.Distinct :=
  declarationFindings_eq_nil

/-! ### Validation -/

section

variable {doc : Json}

lemma validate_of_breaks (h : Breaks .program doc) :
    validate (some doc) = .error (.misuse .noText) := by
  have hb : (check? .program (some doc)).broken = true := (check_told .program doc).broken.mpr h
  unfold validate
  split
  · rfl
  · next he => simp [he] at hb
  · next he => simp [he] at hb

lemma validate_of_not_fits (hb : ¬ Breaks .program doc) (h : ¬ Fits .program doc) :
    ∃ fs, fs ≠ [] ∧ validate (some doc) = .error (.findings fs) := by
  have htold := check_told .program doc
  have hbroken : (check? .program (some doc)).broken = false :=
    Bool.eq_false_iff.mpr (mt htold.broken.mp hb)
  have hissues : (check? .program (some doc)).issues ≠ [] := fun hi =>
    h (htold.clean.mp (isClean_iff.mpr ⟨hi, hbroken⟩)).1
  unfold validate
  split
  · next he => simp [he] at hbroken
  · next he => simp [he] at hissues
  · next hne he =>
    rw [he] at hissues
    exact ⟨_, by simpa using hissues, rfl⟩

/-- A document that writes a program is read as it, and kept without what is not part of it. -/
lemma validate_of_written {p : Program} {kept : Json} (hb : ¬ Breaks .program doc)
    (h : p.Written doc kept) :
    validate (some doc) =
      if p.findings = [] then .ok ⟨kept, p⟩ else .error (.findings p.findings) := by
  obtain ⟨hfits, hkept, hagain⟩ := p.written_suits doc kept h
  have htold := check_told .program doc
  have hclean := htold.clean.mpr ⟨hfits, hb⟩
  have hc : check? .program (some doc) = ⟨some kept, [], false⟩ := by
    obtain ⟨hi, hb⟩ := isClean_iff.mp hclean
    have hd := htold.data hclean
    show check .program doc = _
    cases hv : check .program doc
    simp_all
  unfold validate
  rw [hc]
  simp only [Program.written_reads hagain]
  split
  · next hf => simp [hf]
  · next hf => rw [if_neg hf]

/-- Nothing is repeated in a program that validation accepts. -/
lemma validate_distinct {doc : Option Json} {v : Valid} (h : validate doc = .ok v) :
    v.program.Distinct := by
  unfold validate at h
  split at h
  · cases h
  · simp only at h
    split at h
    · next hf =>
      cases h
      exact Program.findings_eq_nil.mp hf
    · cases h
  · cases h

/-- **The documents that validation accepts**: they write a program without repetitions, and the
check does not break off at them. What is kept of a document that writes such a program is always
accepted, and kept as it is. Of the documents that are not accepted, those where the check breaks
off are refused without findings, and the others with some. -/
theorem validate_accepts_written (doc : Json) :
    (∀ v, validate (some doc) = .ok v ↔
      ¬ Breaks .program doc ∧ v.program.Written doc v.doc ∧ v.program.Distinct) ∧
    (∀ v : Valid, v.program.Written doc v.doc → v.program.Distinct →
      validate (some v.doc) = .ok v) ∧
    (Breaks .program doc → validate (some doc) = .error (.misuse .noText)) ∧
    (¬ Breaks .program doc → (∀ v : Valid, v.program.Written doc v.doc → ¬ v.program.Distinct) →
      ∃ fs, fs ≠ [] ∧ validate (some doc) = .error (.findings fs)) := by
  refine ⟨fun v => ⟨fun h => ?_, fun ⟨hb, hw, hd⟩ => ?_⟩, fun v hw hd => ?_,
    validate_of_breaks, fun hb hd => ?_⟩
  · have hb : ¬ Breaks .program doc := fun hb => by
      rw [validate_of_breaks hb] at h
      cases h
    by_cases hf : Fits .program doc
    · have hw := Program.ofJson_written hf
      rw [validate_of_written hb hw] at h
      split at h
      · next hd =>
        cases h
        exact ⟨hb, hw, Program.findings_eq_nil.mp hd⟩
      · cases h
    · obtain ⟨fs, -, he⟩ := validate_of_not_fits hb hf
      rw [he] at h
      cases h
  · rw [validate_of_written hb hw, if_pos (Program.findings_eq_nil.mpr hd)]
  -- what is kept writes the program too, and has no length that is not a text
  · obtain ⟨hfits, hkept, hagain⟩ := v.program.written_suits doc v.doc hw
    have hb : ¬ Breaks .program v.doc := hkept ▸ not_breaks_prune hfits (by simp) .program
    rw [validate_of_written hb hagain, if_pos (Program.findings_eq_nil.mpr hd)]
  · by_cases hf : Fits .program doc
    · have hw := Program.ofJson_written hf
      have hne : (Program.ofJson doc).findings ≠ [] :=
        mt Program.findings_eq_nil.mp (hd ⟨prune .program doc, Program.ofJson doc⟩ hw)
      exact ⟨_, hne, by rw [validate_of_written hb hw, if_neg hne]⟩
    · exact validate_of_not_fits hb hf

end

/-- A program that makes a channel, with this beside the kind of its one expression. -/
def channelProgram (beside : List (String × Json)) : Json :=
  .object [("declarations", .array [.object [("kind", .string "fun"), ("name", .string "main"),
    ("params", .array []), ("body", .object (("kind", .string "new") :: beside))]])]

/-- A member that is not part of the program and claims a length without a text. -/
def strayLength : List (String × Json) :=
  [("name", .object [("length", .object [("toString", .number (.integer 1))])])]

/-- The document writes a program without repetitions, in which the stray member has no part,
but its validation breaks off. -/
theorem strayLength_breaks_off :
    (∃ p : Program, p.Written (channelProgram strayLength) (channelProgram []) ∧ p.Distinct) ∧
      validate (some (channelProgram strayLength)) = .error (.misuse .noText) := by
  have hbody : Expr.channel.Written (.object (("kind", .string "new") :: strayLength))
      (.object [("kind", .string "new")]) :=
    ⟨_, [("kind", .string "new")], rfl, rfl, .cons ⟨rfl, _, rfl, rfl, rfl⟩ .nil⟩
  have hname : Named (.text "main") (.string "main") (.string "main") :=
    ⟨⟨"main", by simp, rfl, rfl⟩, rfl⟩
  refine ⟨⟨⟨[.global ⟨.text "main", .ok [], .channel⟩]⟩, ?_, ?_⟩, rfl⟩
  · refine ⟨_, [_], rfl, rfl, .cons ⟨rfl, _, rfl, [(_, _)], rfl, rfl, .cons ?_ .nil⟩ .nil⟩
    exact ⟨[], rfl, _, [_, _, _, _], rfl, rfl, .cons ⟨rfl, _, rfl, rfl, rfl⟩
      (.cons ⟨rfl, _, rfl, hname⟩ (.cons ⟨rfl, _, rfl, [], rfl, rfl, .nil⟩
        (.cons ⟨rfl, _, rfl, hbody⟩ .nil)))⟩
  · rintro g hg
    cases List.mem_singleton.mp hg
    exact ⟨List.nodup_nil, List.nodup_nil, by simp [Expr.parts]⟩

end Parley
