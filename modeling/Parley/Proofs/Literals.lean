import Mathlib.Tactic.IntervalCases
import Parley.Proofs.Acceptance
import Parley.Proofs.Refinement

/-!
Integer literals. The payloads that are accepted are the integers of less than 54 binary digits,
as numbers, and the decimal texts of any length; each denotes an integer, and evaluation comes to
exactly that integer, wherever the literal stands. The text of an integer is itself a payload for
it, and has no needless zeros.
-/

namespace Parley

open Form

namespace Literal

/-! ### What a literal denotes -/

/-- The integer that a literal stands for. -/
inductive Denotes : Literal → Int → Prop
  | number {i : Int} (hi : i.natAbs < 2 ^ 53) : Denotes (.number (.integer i)) i
  | digits {s : String} {ds : List Char} (hs : s.toList = ds) (hne : ds ≠ [])
      (hds : ∀ c ∈ ds, '0' ≤ c ∧ c ≤ '9') : Denotes (.text s) (Nat.ofDigitChars 10 ds 0 : Int)
  | negated {s : String} {ds : List Char} (hs : s.toList = '-' :: ds) (hne : ds ≠ [])
      (hds : ∀ c ∈ ds, '0' ≤ c ∧ c ≤ '9') : Denotes (.text s) (-(Nat.ofDigitChars 10 ds 0 : Int))

lemma Denotes.toInt {n : Literal} {z : Int} (h : Denotes n z) : n.toInt = .ok z := by
  cases h with
  | number hi => rfl
  | digits hs hne hds => exact ofText_digits hs (fun c hc => isDigit_iff.mpr (hds c hc)) hne
  | negated hs hne hds => exact ofText_negated hs (fun c hc => isDigit_iff.mpr (hds c hc)) hne

lemma Denotes.of_whole {n : Literal} {j kept : Json} (h : Whole n j kept) : ∃ z, Denotes n z := by
  obtain ⟨⟨i, hi, rfl, -⟩ | ⟨s, ⟨ds, hne, hds, hs | hs⟩, rfl, -⟩, -⟩ := h
  · exact ⟨i, .number hi⟩
  · exact ⟨_, .digits hs hne hds⟩
  · exact ⟨_, .negated hs hne hds⟩

lemma Denotes.whole {place : Place} {j : Json} {z : Int} (h : Denotes (.ofJson place (some j)) z) :
    Whole (.ofJson place (some j)) j j := by
  cases j with
  | number x =>
    cases h with
    | number hi => exact ⟨.inl ⟨_, hi, rfl, rfl⟩, rfl⟩
  | string s =>
    cases h with
    | digits hs hne hds => exact ⟨.inr ⟨s, ⟨_, hne, hds, .inl hs⟩, rfl, rfl⟩, rfl⟩
    | negated hs hne hds => exact ⟨.inr ⟨s, ⟨_, hne, hds, .inr hs⟩, rfl, rfl⟩, rfl⟩
  | _ => cases h

lemma Denotes.anywhere {place place' : Place} {j : Json} {z : Int}
    (h : Denotes (.ofJson place (some j)) z) : Denotes (.ofJson place' (some j)) z := by
  cases j with
  | number | string => exact h
  | _ => cases h

/-! ### Integers in print -/

/-- A decimal text without zeros in front, and no negative zero. -/
def IsPlain (s : String) : Prop :=
  s = "0" ∨ ∃ d ds, '1' ≤ d ∧ d ≤ '9' ∧ (∀ c ∈ ds, '0' ≤ c ∧ c ≤ '9') ∧
    (s.toList = d :: ds ∨ s.toList = '-' :: d :: ds)

lemma digit_of_mem_toDigits {n : Nat} {c : Char} (h : c ∈ Nat.toDigits 10 n) :
    '0' ≤ c ∧ c ≤ '9' := by
  have hc := Nat.isDigit_of_mem_toDigits (by decide) (by decide) h
  simp only [Char.isDigit, Bool.and_eq_true, decide_eq_true_eq] at hc
  exact hc

/-- The digits of a positive number do not begin with a zero. -/
lemma exists_toDigits {n : Nat} (hn : 0 < n) :
    ∃ d ds, Nat.toDigits 10 n = d :: ds ∧ '1' ≤ d ∧ d ≤ '9' := by
  induction n using Nat.strong_induction_on with
  | h n ih =>
    rcases Nat.lt_or_ge n 10 with hlt | hge
    · refine ⟨_, [], Nat.toDigits_of_lt_base hlt, ?_⟩
      interval_cases n <;> decide
    · obtain ⟨d, ds, hds, hd⟩ := ih (n / 10) (by omega) (by omega)
      refine ⟨d, ds ++ [(n % 10).digitChar], ?_, hd⟩
      rw [Nat.toDigits_of_base_le (by decide) hge, hds]
      rfl

lemma toList_render_natCast (n : Nat) : (Value.int n).render.toList = Nat.toDigits 10 n := by
  show (toString n).toList = _
  rw [Nat.toString_eq_ofList_toDigits, String.toList_ofList]

lemma toList_render_neg {n : Nat} (hn : 0 < n) :
    (Value.int (-n)).render.toList = '-' :: Nat.toDigits 10 n := by
  obtain ⟨k, rfl⟩ : ∃ k, n = k + 1 := ⟨n - 1, by omega⟩
  show ("-" ++ toString (k + 1)).toList = _
  rw [Nat.toString_eq_ofList_toDigits, String.toList_append]
  exact congrArg ('-' :: ·) String.toList_ofList

/-- An integer is a natural number or the opposite of a positive one. -/
lemma sign_cases {P : Int → Prop} (nonneg : ∀ n : Nat, P n) (neg : ∀ n : Nat, 0 < n → P (-n))
    (z : Int) : P z := by
  cases z with
  | ofNat n => exact nonneg n
  | negSucc n => exact neg (n + 1) (Nat.succ_pos n)

lemma isPlain_render (z : Int) : IsPlain (Value.int z).render := by
  have htail : ∀ {n : Nat} {d : Char} {ds : List Char}, Nat.toDigits 10 n = d :: ds →
      ∀ c ∈ ds, '0' ≤ c ∧ c ≤ '9' := fun h c hc =>
    digit_of_mem_toDigits (h ▸ List.mem_cons_of_mem _ hc)
  induction z using sign_cases with
  | nonneg n =>
    rcases Nat.eq_zero_or_pos n with rfl | hn
    · exact .inl rfl
    · obtain ⟨d, ds, hds, h1, h9⟩ := exists_toDigits hn
      exact .inr ⟨d, ds, h1, h9, htail hds, .inl (by rw [toList_render_natCast, hds])⟩
  | neg n hn =>
    obtain ⟨d, ds, hds, h1, h9⟩ := exists_toDigits hn
    exact .inr ⟨d, ds, h1, h9, htail hds, .inr (by rw [toList_render_neg hn, hds])⟩

lemma denotes_render (z : Int) : Denotes (.text (Value.int z).render) z := by
  have hvalue : ∀ n : Nat, Nat.ofDigitChars 10 (Nat.toDigits 10 n) 0 = n := fun n =>
    Nat.ofDigitChars_ten_toDigits
  induction z using sign_cases with
  | nonneg n =>
    have h := Denotes.digits (toList_render_natCast n) Nat.toDigits_ne_nil
      fun c => digit_of_mem_toDigits
    rwa [hvalue] at h
  | neg n hn =>
    have h := Denotes.negated (toList_render_neg hn) Nat.toDigits_ne_nil
      fun c => digit_of_mem_toDigits
    rwa [hvalue] at h

/-! ### Programs that are a literal -/

inductive Kind
  | int | nat

namespace Kind

def name : Kind → String
  | int => "int"
  | nat => "nat"

def expr : Kind → Literal → Expr
  | int => .int
  | nat => .nat

def document (kind : Kind) (payload : Json) : Json :=
  .object [("declarations", .array [.object [("kind", .string "fun"), ("name", .string "main"),
    ("params", .array []),
    ("body", .object [("kind", .string kind.name), ("value", payload)])]])]

def program (kind : Kind) (n : Literal) : Program :=
  ⟨[.global ⟨.text "main", .ok [], kind.expr n⟩]⟩

/-- The payload is accepted as it is, and the run of its program ends with the integer. -/
structure Yields (kind : Kind) (j : Json) (z : Int) : Prop where
  valid : validate (some (kind.document j)) =
    .ok ⟨kind.document j, kind.program (.ofJson [] (some j))⟩
  runs : ∀ policy : Policy, policy.forbids 1 = false →
    ∃ fuel f, interpret fuel policy (some (kind.document j)) = some f ∧ f.outcome = .ok (.int z)

variable {n : Literal} {j : Json} {z : Int}

lemma written (kind : Kind) (h : Whole n j j) :
    (kind.program n).Written (kind.document j) (kind.document j) := by
  have hbody : (kind.expr n).Written (.object [("kind", .string kind.name), ("value", j)])
      (.object [("kind", .string kind.name), ("value", j)]) := by
    cases kind <;> exact ⟨_, [("kind", _), ("value", j)], rfl, rfl,
      .cons ⟨rfl, _, rfl, rfl, rfl⟩ (.cons ⟨rfl, _, rfl, h⟩ .nil)⟩
  have hname : Named (.text "main") (.string "main") (.string "main") :=
    ⟨⟨"main", by simp, rfl, rfl⟩, rfl⟩
  refine ⟨_, [_], rfl, rfl, .cons ⟨rfl, _, rfl, [(_, _)], rfl, rfl, .cons ?_ .nil⟩ .nil⟩
  exact ⟨[], rfl, _, [_, _, _, _], rfl, rfl, .cons ⟨rfl, _, rfl, rfl, rfl⟩
    (.cons ⟨rfl, _, rfl, hname⟩ (.cons ⟨rfl, _, rfl, [], rfl, rfl, .nil⟩
      (.cons ⟨rfl, _, rfl, hbody⟩ .nil)))⟩

lemma validate_document (kind : Kind) (h : Whole n j j) :
    validate (some (kind.document j)) = .ok ⟨kind.document j, kind.program n⟩ := by
  have hw := kind.written h
  obtain ⟨hfits, hkept, -⟩ := (kind.program n).written_suits _ _ hw
  have hb : ¬ Breaks .program (kind.document j) := by
    rw [hkept]
    exact not_breaks_prune hfits (by simp) .program
  have hnone : (kind.program n).findings = [] := by cases kind <;> rfl
  rw [validate_of_written hb hw, if_pos hnone]

lemma written_denotes {kind : Kind} {kept : Json} (h : (kind.expr n).Written j kept) :
    ∃ z, Denotes n z := by
  cases kind <;>
  · obtain ⟨_, -, -, hms⟩ := Tagged.members h
    obtain ⟨_, _, -, hn⟩ := List.forall_mem_singleton.mp hms
    exact Denotes.of_whole hn

/-- Only a payload that denotes an integer is accepted. -/
lemma denotes_of_validate {kind : Kind} {v : Valid}
    (h : validate (some (kind.document j)) = .ok v) : ∃ z, Denotes (.ofJson [] (some j)) z := by
  have hfits : Fits .program (kind.document j) := by
    by_contra hf
    by_cases hb : Breaks .program (kind.document j)
    · rw [validate_of_breaks hb] at h
      cases h
    · obtain ⟨fs, -, he⟩ := validate_of_not_fits hb hf
      rw [he] at h
      cases h
  have hread : Program.ofJson (kind.document j) = kind.program (.ofJson
      [.key "value", .key "body", .index 0, .key "declarations"] (some j)) := by
    cases kind <;> rfl
  have hw := Program.ofJson_written hfits
  rw [hread] at hw
  obtain ⟨-, -, i, kept, hbody⟩ := Program.written_global hw (List.mem_singleton_self _)
  obtain ⟨z, hz⟩ := written_denotes hbody
  exact ⟨z, hz.anywhere⟩

/-! ### Evaluation -/

/-- A literal comes to its integer on the spot, in every state of every run. -/
lemma evalCounted_expr (kind : Kind) (h : Denotes n z) (m : Machine) (env : Env) (k : Stack) :
    m.evalCounted (kind.expr n) env k =
      (m.trace (.enter (kind.expr n).caption)).done (kind.expr n) (.int z) k := by
  have hshown : n.showable = true := by cases h <;> rfl
  have hproper : (kind.expr n).Proper := by cases kind <;> exact ⟨hshown, z, h.toInt⟩
  rw [Machine.evalCounted_of_proper hproper]
  cases kind <;> simp only [expr, Machine.evalParts, h.toInt]

/-- The run of a literal: with or without a pause, and traced or not. -/
lemma runs_of_denotes (kind : Kind) (h : Denotes n z) {policy : Policy} (env : Env)
    (hp : policy.forbids 1 = false) : ∃ f,
      Finished.ofMachine 8 0 (({ policy } : Machine).eval (kind.expr n) env
        [.pass, .pass, .report 0]) = some f ∧ f.outcome = .ok (.int z) := by
  cases hpause : policy.pauses 1 <;> cases htrace : policy.tracing <;>
    simp [Finished.ofMachine, Machine.drain, Machine.runUntil, Machine.eval, Machine.check, hp,
      hpause, Machine.resume, Machine.quiet, Machine.step, Machine.perform, Machine.accept,
      kind.evalCounted_expr h, Machine.trace, htrace, Machine.done, Machine.note, Machine.canTrace,
      Value.showable, Machine.report, Machine.outcome?, Guard.conclude_some]

lemma Yields.of_denotes (kind : Kind) (h : Denotes (.ofJson [] (some j)) z) : kind.Yields j z := by
  have hvalid := kind.validate_document h.whole
  refine ⟨hvalid, fun policy hp => ?_⟩
  obtain ⟨f, hf, ho⟩ :=
    kind.runs_of_denotes h (kind.program (.ofJson [] (some j))).globals hp
  refine ⟨8, f, ?_, ho⟩
  rw [← hf, interpret, Machine.startDocument, hvalid]
  cases kind <;> rfl

/-- The literals inside an expression denote integers, and come to them. -/
lemma every_denotes (kind : Kind) (e : Expr) : ∀ j kept, e.Written j kept →
    e.Every fun a => ∀ n, a = kind.expr n → ∃ z, Denotes n z ∧ ∀ (m : Machine) env k,
      m.evalCounted a env k = (m.trace (.enter a.caption)).done a (.int z) k := by
  induction e using Expr.induction_on_parts with
  | h e ih =>
    intro j kept h
    refine ⟨fun n he => ?_, fun a ha => ?_⟩
    · subst he
      obtain ⟨z, hz⟩ := written_denotes h
      exact ⟨z, hz, kind.evalCounted_expr hz⟩
    · obtain ⟨i, kept, hi⟩ := (Expr.written_node h).2 a ha
      exact ih a ha i kept hi

end Kind

/-- **Literals come to exactly what they denote.** A payload is accepted if and only if it
denotes an integer; its program is kept as it is, and its run ends with that integer. Inside any
valid document every literal denotes an integer and comes to it, in every state of every run. The
text of an integer has no needless zeros, and as a payload it comes to the integer; so does the
integer as a number, if it has less than 54 binary digits, and it shows as the same text. -/
theorem literals_come_to_what_they_denote (kind : Kind) :
    (∀ j, (∃ v, validate (some (kind.document j)) = .ok v) ↔
      ∃ z, Denotes (.ofJson [] (some j)) z) ∧
    (∀ j z, Denotes (.ofJson [] (some j)) z → kind.Yields j z) ∧
    (∀ doc v, validate doc = .ok v → ∀ g, .global g ∈ v.program.declarations →
      g.body.Every fun e => ∀ n, e = kind.expr n → ∃ z, Denotes n z ∧ ∀ (m : Machine) env k,
        m.evalCounted e env k = (m.trace (.enter e.caption)).done e (.int z) k) ∧
    (∀ z, IsPlain (Value.int z).render ∧ kind.Yields (.string (Value.int z).render) z) ∧
    (∀ i : Int, i.natAbs < 2 ^ 53 → kind.Yields (.number (.integer i)) i ∧
      (Number.integer i).toText = (Value.int i).render) := by
  refine ⟨fun j => ⟨fun ⟨v, hv⟩ => Kind.denotes_of_validate hv, fun ⟨z, hz⟩ => ?_⟩,
    fun j z => Kind.Yields.of_denotes kind, fun doc v hv g hg => ?_,
    fun z => ⟨isPlain_render z, ?_⟩, fun i hi => ⟨?_, ?_⟩⟩
  · exact ⟨_, (Kind.Yields.of_denotes kind hz).valid⟩
  · obtain ⟨-, -, i, kept, hbody⟩ := Program.written_global (validate_written hv) hg
    exact kind.every_denotes g.body i kept hbody
  · exact .of_denotes kind (denotes_render z)
  · exact .of_denotes kind (.number hi)
  · exact Number.toText_integer hi

/-- A natural number with a minus, zeros in front and more digits than a number can have. -/
theorem negatedZeros_come_to_integer :
    Kind.nat.Yields (.string "-00123456789012345678901234567890")
      (-123456789012345678901234567890) := by
  have hds : "00123456789012345678901234567890".toList.all Json.Parser.isDigit = true := by decide
  exact (literals_come_to_what_they_denote .nat).2.1 _ _
    (.negated rfl (by decide) fun c hc => isDigit_iff.mp (List.all_eq_true.mp hds c hc))

end Literal

end Parley
