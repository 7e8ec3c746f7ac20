import Parley.Proofs.Writing

/-!
Programs of valid documents are proper: names are texts, literals have values, cases can be
searched to their end, and nothing stands where an expression is missing.
-/

namespace Parley

/-! ### Literals -/

namespace Literal

lemma ofText_isOk {s : String} (h : Form.isDecimal s.toList = true) : ∃ i, ofText s = .ok i := by
  unfold Form.isDecimal at h
  split at h
  · next ds hs =>
    simp only [Bool.and_eq_true, Bool.not_eq_true', List.isEmpty_eq_false_iff, List.all_eq_true] at h
    exact ⟨_, ofText_negated hs h.2 h.1⟩
  · simp only [Bool.and_eq_true, Bool.not_eq_true', List.isEmpty_eq_false_iff, List.all_eq_true] at h
    exact ⟨_, ofText_digits rfl h.2 h.1⟩

end Literal

/-! ### Expressions -/

open Form

/-- A node of an expression is as validation leaves it. -/
def Expr.Proper : Expr → Prop
  | .var a | .label a | .letIn a _ _ | .pair a _ _ | .lambda a _ => ∃ s, a = .text s
  | .letPair a b _ _ | .natRec _ _ a b _ => (∃ s, a = .text s) ∧ ∃ s, b = .text s
  | .int l | .nat l => l.showable = true ∧ ∃ i, Literal.toInt l = .ok i
  | .caseOf _ bs rest => rest = none ∧ ∀ b ∈ bs, ∃ s, b.1 = .text s
  | .unknown _ _ | .missing _ => False
  | _ => True

lemma Form.Named.text {x : Atom} {j kept : Json} (h : Named x j kept) : ∃ s, x = .text s := by
  obtain ⟨⟨s, -, hs, -⟩, -⟩ := h
  exact ⟨s, hs⟩

lemma Form.Whole.literal {n : Literal} {j kept : Json} (h : Whole n j kept) :
    n.showable = true ∧ ∃ i, Literal.toInt n = .ok i := by
  obtain ⟨⟨i, -, rfl, -⟩ | ⟨s, hs, rfl, -⟩, -⟩ := h
  · exact ⟨rfl, i, rfl⟩
  · obtain ⟨i, hi⟩ := Literal.ofText_isOk (isDecimal_iff.mpr hs)
    exact ⟨rfl, i, hi⟩

lemma Form.Listing.each {forms : List Grammar} {j kept : Json} (h : Listing forms j kept) :
    ∀ form ∈ forms, ∃ i kept, form i kept := by
  obtain ⟨items, -, -, hitems⟩ := h
  induction hitems with
  | nil => simp
  | cons hi _ ih => exact List.forall_mem_cons.mpr ⟨⟨_, _, hi⟩, ih⟩

/-- A node that is written is proper, and its parts are written. -/
lemma Expr.written_node {e : Expr} {j kept : Json} (h : e.Written j kept) :
    e.Proper ∧ ∀ a ∈ e.parts, ∃ i kept, a.Written i kept := by
  cases e with
  | unknown | missing => exact h.elim
  | unit | channel => exact ⟨trivial, by simp [parts]⟩
  | int | nat =>
    obtain ⟨_, -, -, hms⟩ := Tagged.members h
    obtain ⟨_, _, -, hn⟩ := List.forall_mem_singleton.mp hms
    exact ⟨hn.literal, by simp [parts]⟩
  | caseOf a bs rest =>
    cases rest with
    | some => exact h.elim
    | none =>
      obtain ⟨_, -, -, hms⟩ := Tagged.members h
      simp only [List.forall_mem_cons] at hms
      obtain ⟨⟨_, _, -, ha⟩, ⟨_, _, -, hbs⟩, -⟩ := hms
      have hb : ∀ b ∈ bs, (∃ s, b.1 = .text s) ∧ ∃ i kept, b.2.Written i kept := by
        rw [branchForms_eq_map] at hbs
        intro b hb
        obtain ⟨_, _, hform⟩ := hbs.each _ (List.mem_map.mpr ⟨b, hb, rfl⟩)
        obtain ⟨_, -, hms⟩ := WithMembers.members hform
        simp only [List.forall_mem_cons] at hms
        obtain ⟨⟨_, _, -, hlabel⟩, ⟨i, kept, -, hbody⟩, -⟩ := hms
        exact ⟨hlabel.text, i, kept, hbody⟩
      refine ⟨⟨rfl, fun b hm => (hb b hm).1⟩, ?_⟩
      simp only [parts, List.forall_mem_cons, List.forall_mem_map]
      exact ⟨⟨_, _, ha⟩, fun b hm => (hb b hm).2⟩
  | _ =>
    obtain ⟨_, -, -, hms⟩ := Tagged.members h
    simp only [List.forall_mem_cons, HasMember] at hms
    simp only [Proper, parts, List.forall_mem_cons]
    grind [Named.text]

/-- **Expressions that are written are proper.** -/
theorem Expr.written_proper (e : Expr) : ∀ j kept, e.Written j kept → e.Every Proper := by
  induction e using induction_on_parts with
  | h e ih =>
    intro j kept h
    obtain ⟨hnode, hparts⟩ := written_node h
    refine ⟨hnode, fun a ha => ?_⟩
    obtain ⟨i, kept, hi⟩ := hparts a ha
    exact ih a ha i kept hi

/-! ### Programs -/

structure Global.Proper (g : Global) : Prop where
  name : ∃ s, g.name = .text s
  params : ∃ ps, g.params = .ok ps ∧ ∀ p ∈ ps, p.isSome
  body : g.body.Every Expr.Proper

/-- A global of a program that is written has its parts written. -/
lemma Program.written_global {p : Program} {doc kept : Json} (h : p.Written doc kept) {g : Global}
    (hg : .global g ∈ p.declarations) :
    (∃ s, g.name = .text s) ∧ (∃ ps : List Atom, g.params = .ok (ps.map some)) ∧
      ∃ j kept, g.body.Written j kept := by
  obtain ⟨_, -, hm⟩ := WithMembers.members h
  obtain ⟨_, _, -, hds⟩ := List.forall_mem_singleton.mp hm
  obtain ⟨_, _, ps, hps, hw⟩ := hds.each _ (List.mem_map.mpr ⟨_, hg, rfl⟩)
  obtain ⟨_, -, -, hms⟩ := Tagged.members hw
  simp only [List.forall_mem_cons] at hms
  obtain ⟨⟨_, _, -, hname⟩, -, ⟨b, kept, -, hbody⟩, -⟩ := hms
  exact ⟨hname.text, ⟨ps, hps⟩, b, kept, hbody⟩

/-- **The globals of a valid document are proper.** -/
theorem validate_proper {doc : Option Json} {v : Valid} (h : validate doc = .ok v) {g : Global}
    (hg : .global g ∈ v.program.declarations) : g.Proper := by
  obtain ⟨hname, ⟨ps, hps⟩, b, kept, hbody⟩ := Program.written_global (validate_written h) hg
  exact ⟨hname, ⟨_, hps, by simp⟩, g.body.written_proper b kept hbody⟩

/-! ### The discipline of valid programs -/

/-- The parts of valid programs, where every node is besides as `also` says. -/
def Discipline.proper (also : Expr → Prop) : Discipline where
  node e := e.Proper ∧ also e
  param p := p.isSome
  global _ g := g.Proper ∧ g.body.Every also
  ends _ e := ∃ r w, e = ⟨.allocated r, .allocated w⟩
  fault _ := False

lemma Discipline.lawful_proper {also : Expr → Prop}
    (h : ∀ i, i = 0 ∨ i = 1 → also (.int (.number (.integer i)))) : (proper also).Lawful where
  small i hi := ⟨⟨rfl, i, rfl⟩, h i hi⟩
  named _ := rfl
  body hg := hg.1.body.and hg.2
  params hg hps p hp := by
    obtain ⟨ps, hps', hsome⟩ := hg.1.params
    rw [hps] at hps'
    cases hps'
    exact hsome p hp
  fresh n := ⟨⟨n, n + 1, rfl⟩, ⟨n + 1, n, rfl⟩⟩
  grow h := h

section

variable {also : Expr → Prop} {n : Nat}

lemma Value.Obeys.showable {v : Value} (h : v.Obeys (.proper also) n) : v.showable = true := by
  induction h with
  | label h => obtain ⟨⟨s, rfl⟩, -⟩ := h; rfl
  | pair _ _ iha ihb => simp [Value.showable, iha, ihb]
  | channel h => obtain ⟨r, w, rfl⟩ := h; rfl
  | _ => rfl

/-- The ends of channels of a valid program do not depend on what has been allocated. -/
lemma Value.Obeys.anyTime {v : Value} (h : v.Obeys (.proper also) n) (k : Nat) :
    v.Obeys (.proper also) k := by
  induction h with
  | unit => exact .unit
  | label h => exact .label h
  | int i => exact .int i
  | pair _ _ iha ihb => exact .pair iha ihb
  | function params code _ globals ih => exact .function params code ih globals
  | sender h => exact .sender h
  | channel h => exact .channel h

lemma Expr.Proper.caption {e : Expr} (h : e.Proper) : ∃ s, e.caption? = some s := by
  cases e with
  | var | label | letIn | pair | lambda => obtain ⟨s, rfl⟩ := h; exact ⟨_, rfl⟩
  | int | nat =>
    obtain ⟨s, hs⟩ := Option.isSome_iff_exists.mp h.1
    exact ⟨_, by rw [Expr.caption?, hs]; rfl⟩
  | unknown | missing => exact h.elim
  | _ => exact ⟨_, rfl⟩

end

end Parley
