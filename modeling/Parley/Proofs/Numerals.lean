import Parley.Proofs.Literals
import Parley.Proofs.Rounding

/-!
Numbers in print. However its shortest digits are laid out, the text of a number reads back as the
decimal that they stand for; so no two binary64 values show as the same text.
-/

namespace Parley.Number

open Json.Parser

/-! ### Reading a numeral -/

/-- A decimal as it is laid out: the digits before the point, those behind it, and the exponent,
if there is one. -/
structure Numeral where
  whole : List Char
  fraction : List Char
  exponent : Option Int

namespace Numeral

/-- The point stands only before digits. -/
def pointed : List Char → List Char
  | [] => []
  | fs => '.' :: fs

lemma pointed_of_ne_nil {fs : List Char} (h : fs ≠ []) : pointed fs = '.' :: fs := by
  cases fs with
  | nil => exact absurd rfl h
  | cons f fs => rfl

def scaled : Option Int → List Char
  | none => []
  | some e => 'e' :: (if e < 0 then '-' else '+') :: Nat.toDigits 10 e.natAbs

def text (n : Numeral) : List Char := n.whole ++ (pointed n.fraction ++ scaled n.exponent)

def value (n : Numeral) : ℚ :=
  digitsValue (n.whole ++ n.fraction) * 10 ^ (n.exponent.getD 0 - n.fraction.length)

/-- Digits, and no zero in front of the others. -/
structure Valid (n : Numeral) : Prop where
  whole : n.whole = ['0'] ∨ ∃ d ds, n.whole = d :: ds ∧ d ≠ '0'
  digits : ∀ c ∈ n.whole ++ n.fraction, isDigit c = true

end Numeral

def decimal? (cs : List Char) : Option ℚ := do
  let (ws, cs) ← whole cs
  let (fs, cs) ← fractionPart cs
  let (e, _) ← exponentPart cs
  some (digitsValue (ws ++ fs) * 10 ^ (e - fs.length))

lemma digits1_append {ds rest : List Char} (hds : ∀ c ∈ ds, isDigit c = true) (hne : ds ≠ [])
    (hrest : ∀ c ∈ rest.head?, isDigit c = false) : digits1 (ds ++ rest) = some (ds, rest) := by
  have hstop : rest.takeWhile isDigit = [] ∧ rest.dropWhile isDigit = rest := by
    cases rest with
    | nil => exact ⟨rfl, rfl⟩
    | cons c rest => simp [List.takeWhile, List.dropWhile, hrest c rfl]
  have hspan : (ds ++ rest).span isDigit = (ds, rest) := by
    rw [List.span_eq_takeWhile_dropWhile, List.takeWhile_append_of_pos hds,
      List.dropWhile_append_of_pos hds, hstop.1, hstop.2, List.append_nil]
  cases ds with
  | nil => exact absurd rfl hne
  | cons d ds => rw [digits1, hspan]

lemma isDigit_of_mem_toDigits {n : Nat} {c : Char} (h : c ∈ Nat.toDigits 10 n) :
    isDigit c = true :=
  Form.isDigit_iff.mpr (Literal.digit_of_mem_toDigits h)

namespace Numeral

lemma head_scaled (e : Option Int) : ∀ c ∈ (scaled e).head?, c = 'e' := by
  cases e with
  | none => simp [scaled]
  | some e => simp [scaled]

lemma head_pointed (fs : List Char) (e : Option Int) :
    ∀ c ∈ (pointed fs ++ scaled e).head?, c = '.' ∨ c = 'e' := by
  cases fs with
  | nil => exact fun c hc => .inr (head_scaled e c hc)
  | cons f fs => simp [pointed]

lemma exponentPart_scaled (e : Option Int) : exponentPart (scaled e) = some (e.getD 0, []) := by
  cases e with
  | none => rfl
  | some e =>
    have hread : ∀ negative, exponentDigits negative (Nat.toDigits 10 e.natAbs) =
        some (if negative then -(e.natAbs : Int) else e.natAbs, []) := fun negative => by
      have hdigits : digits1 (Nat.toDigits 10 e.natAbs ++ []) = some (_, []) :=
        digits1_append (fun c => isDigit_of_mem_toDigits) Nat.toDigits_ne_nil (by simp)
      rw [List.append_nil] at hdigits
      simp only [exponentDigits, hdigits, Option.map_some, Literal.digitsValue_eq,
        Nat.ofDigitChars_ten_toDigits]
    by_cases he : e < 0
    · have hscaled : scaled (some e) = 'e' :: '-' :: Nat.toDigits 10 e.natAbs := by
        rw [scaled, if_pos he]
      rw [hscaled]
      refine (hread true).trans ?_
      rw [if_pos rfl, Int.ofNat_natAbs_of_nonpos he.le, neg_neg]
      rfl
    · have hscaled : scaled (some e) = 'e' :: '+' :: Nat.toDigits 10 e.natAbs := by
        rw [scaled, if_neg he]
      rw [hscaled]
      refine (hread false).trans ?_
      rw [if_neg Bool.false_ne_true, Int.natAbs_of_nonneg (by omega)]
      rfl

lemma fractionPart_pointed {fs : List Char} (hfs : ∀ c ∈ fs, isDigit c = true) (e : Option Int) :
    fractionPart (pointed fs ++ scaled e) = some (fs, scaled e) := by
  cases fs with
  | nil => cases e <;> rfl
  | cons f fs =>
    refine digits1_append hfs (List.cons_ne_nil f fs) fun c hc => ?_
    rw [head_scaled e c hc]
    decide

lemma whole_text {n : Numeral} (h : n.Valid) :
    Json.Parser.whole n.text = some (n.whole, pointed n.fraction ++ scaled n.exponent) := by
  obtain hzero | ⟨d, ds, hd, hne⟩ := h.whole
  · rw [text, hzero]
    rfl
  · have hread := digits1_append (fun c hc => h.digits c (List.mem_append_left _ hc))
      (by rw [hd]; exact List.cons_ne_nil d ds) fun c hc => by
        rcases head_pointed n.fraction n.exponent c hc with rfl | rfl <;> decide
    rw [text]
    unfold Json.Parser.whole
    split
    · next hcs =>
      rw [hd] at hcs
      exact absurd (List.cons.inj hcs).1 hne
    · exact hread

lemma Valid.no_marks {n : Numeral} (h : n.Valid) : ∀ c ∈ n.text, c ≠ '/' ∧ c ≠ '>' := by
  have hdigit : ∀ {c : Char}, isDigit c = true → c ≠ '/' ∧ c ≠ '>' := by
    intro c hc
    constructor <;> (rintro rfl; cases hc)
  have hpointed : ∀ c ∈ pointed n.fraction, c ≠ '/' ∧ c ≠ '>' := by
    cases hf : n.fraction with
    | nil => exact List.forall_mem_nil _
    | cons f fs =>
      refine List.forall_mem_cons.mpr ⟨by decide, fun c hc => hdigit (h.digits c ?_)⟩
      exact List.mem_append_right _ (hf ▸ hc)
  have hscaled : ∀ c ∈ scaled n.exponent, c ≠ '/' ∧ c ≠ '>' := by
    cases n.exponent with
    | none => exact List.forall_mem_nil _
    | some e =>
      refine List.forall_mem_cons.mpr ⟨by decide, List.forall_mem_cons.mpr ⟨?_, fun c hc =>
        hdigit (isDigit_of_mem_toDigits hc)⟩⟩
      split <;> decide
  refine List.forall_mem_append.mpr ⟨fun c hc => ?_, List.forall_mem_append.mpr ⟨hpointed, hscaled⟩⟩
  exact hdigit (h.digits c (List.mem_append_left _ hc))

/-- A numeral reads back as the decimal that it stands for. -/
lemma decimal?_text {n : Numeral} (h : n.Valid) : decimal? n.text = some n.value := by
  have hfraction : ∀ c ∈ n.fraction, isDigit c = true := fun c hc =>
    h.digits c (List.mem_append_right _ hc)
  simp only [decimal?, whole_text h, fractionPart_pointed hfraction, exponentPart_scaled,
    Option.bind_eq_bind, Option.bind_some, value]

end Numeral

/-! ### The layout of digits -/

namespace Digits

/-- The ways in which digits are laid out. -/
inductive Layout (d : Digits) : Numeral → Prop
  | whole (z : Nat) (h : d.point = digitCount d.digits + z) :
      Layout d ⟨Nat.toDigits 10 d.digits ++ List.replicate z '0', [], none⟩
  | inside (p : Nat) (hpos : 0 < p) (hlt : p < digitCount d.digits) (h : d.point = p) :
      Layout d ⟨(Nat.toDigits 10 d.digits).take p, (Nat.toDigits 10 d.digits).drop p, none⟩
  | below (z : Nat) (h : d.point = -z) :
      Layout d ⟨['0'], List.replicate z '0' ++ Nat.toDigits 10 d.digits, none⟩
  | scaled : Layout d ⟨(Nat.toDigits 10 d.digits).take 1, (Nat.toDigits 10 d.digits).drop 1,
      some (d.point - 1)⟩

variable {d : Digits} {n : Numeral}

lemma exists_layout (d : Digits) : ∃ n, Layout d n ∧ d.toText.toList = n.text := by
  obtain ⟨ds, hds⟩ : ∃ ds, ds = Nat.toDigits 10 d.digits := ⟨_, rfl⟩
  obtain ⟨t, ht, htext⟩ : ∃ t : String, t.toList = Numeral.scaled (some (d.point - 1)) ∧ d.toText =
      if (ds.length : Int) ≤ d.point ∧ d.point ≤ 21 then
        String.ofList ds ++ String.ofList (List.replicate (d.point - ds.length).toNat '0')
      else if 0 < d.point ∧ d.point ≤ 21 then
        String.ofList (ds.take d.point.toNat) ++ "." ++ String.ofList (ds.drop d.point.toNat)
      else if -6 < d.point ∧ d.point ≤ 0 then
        "0." ++ String.ofList (List.replicate (-d.point).toNat '0') ++ String.ofList ds
      else if ds.length = 1 then String.ofList ds ++ t
      else String.ofList (ds.take 1) ++ "." ++ String.ofList (ds.drop 1) ++ t := by
    refine ⟨if d.point - 1 < 0 then "e-" ++ toString (d.point - 1).natAbs
      else "e+" ++ toString (d.point - 1).natAbs, ?_, hds ▸ rfl⟩
    rw [Numeral.scaled, Nat.toString_eq_ofList_toDigits]
    split <;> simp
  have hcount : ds.length = digitCount d.digits := hds ▸ rfl
  have hpos : 0 < ds.length := hds ▸ Nat.length_toDigits_pos
  have hpoint : ∀ {fs : List Char}, 0 < fs.length → Numeral.pointed fs = '.' :: fs := fun h =>
    Numeral.pointed_of_ne_nil (List.length_pos_iff.mp h)
  rw [htext]
  -- all digits before the point, some of them, none of them, or an exponent
  split
  · refine ⟨_, .whole (d.point - ds.length).toNat (by omega), ?_⟩
    simp [Numeral.text, Numeral.pointed, Numeral.scaled, hds]
  · split
    · refine ⟨_, .inside d.point.toNat (by omega) (by omega) (by omega), ?_⟩
      rw [← hds, Numeral.text, hpoint (by rw [List.length_drop]; omega)]
      simp [Numeral.scaled]
    · split
      · refine ⟨_, .below (-d.point).toNat (by omega), ?_⟩
        rw [← hds, Numeral.text, hpoint (by rw [List.length_append]; omega)]
        simp [Numeral.scaled]
      · refine ⟨_, .scaled, ?_⟩
        rw [← hds, Numeral.text]
        split
        · next hone =>
          simp [List.take_of_length_le hone.le, List.drop_of_length_le hone.le, ht,
            Numeral.pointed]
        · rw [hpoint (by rw [List.length_drop]; omega)]
          simp [ht]

lemma Layout.valid (hn : Layout d n) (h : 0 < d.digits) : n.Valid := by
  obtain ⟨c, cs, hcs, hc, -⟩ := Literal.exists_toDigits h
  have hne : c ≠ '0' := by
    rintro rfl
    exact absurd hc (by decide)
  have hdigits : ∀ b ∈ Nat.toDigits 10 d.digits, isDigit b = true := fun b =>
    isDigit_of_mem_toDigits
  have hzeros : ∀ {k : Nat}, ∀ b ∈ List.replicate k '0', isDigit b = true := fun b hb => by
    rw [List.eq_of_mem_replicate hb]
    decide
  have htake : ∀ p, 0 < p → ∃ ds, (Nat.toDigits 10 d.digits).take p = c :: ds := fun p hp =>
    ⟨cs.take (p - 1), by rw [hcs, List.take_cons hp]⟩
  cases hn with
  | whole z =>
    refine ⟨.inr ⟨c, cs ++ List.replicate z '0', by rw [hcs, List.cons_append], hne⟩, ?_⟩
    rw [List.append_nil]
    exact List.forall_mem_append.mpr ⟨hdigits, hzeros⟩
  | inside p hpos =>
    obtain ⟨ds, hds⟩ := htake p hpos
    exact ⟨.inr ⟨c, ds, hds, hne⟩, by rwa [List.take_append_drop]⟩
  | below z =>
    refine ⟨.inl rfl, List.forall_mem_append.mpr ⟨List.forall_mem_singleton.mpr rfl, ?_⟩⟩
    exact List.forall_mem_append.mpr ⟨hzeros, hdigits⟩
  | scaled =>
    obtain ⟨ds, hds⟩ := htake 1 one_pos
    exact ⟨.inr ⟨c, ds, hds, hne⟩, by rwa [List.take_append_drop]⟩

lemma Layout.value (hn : Layout d n) (h : 0 < d.digits) : n.value = d.value := by
  have hvalue : ∀ k, digitsValue (Nat.toDigits 10 k) = k := fun k => by
    rw [Literal.digitsValue_eq, Nat.ofDigitChars_ten_toDigits]
  have hcount : (Nat.toDigits 10 d.digits).length = digitCount d.digits := rfl
  have hpos : 0 < digitCount d.digits := Nat.length_toDigits_pos
  cases hn with
  | whole z hpoint =>
    have hexp : d.point - digitCount d.digits = z := by omega
    rw [Numeral.value, List.append_nil, ← toDigits_mul_ten_pow h, hvalue, Digits.value, hexp]
    simp
  | inside p _ hlt hpoint =>
    have hexp : d.point - digitCount d.digits = 0 - ((digitCount d.digits - p : Nat) : Int) := by
      omega
    rw [Numeral.value, List.take_append_drop, hvalue, Digits.value, hexp, List.length_drop]
    rfl
  | below z hpoint =>
    have hzeros : digitsValue (['0'] ++ (List.replicate z '0' ++ Nat.toDigits 10 d.digits)) =
        d.digits := by
      rw [← List.append_assoc, List.singleton_append, ← List.replicate_succ,
        Literal.digitsValue_eq, Nat.ofDigitChars_append, Nat.ofDigitChars_replicate_zero,
        mul_zero, Nat.ofDigitChars_ten_toDigits]
    rw [Numeral.value, hzeros, Digits.value]
    congr 2
    simp only [Option.getD_none, List.length_append, List.length_replicate]
    omega
  | scaled =>
    rw [Numeral.value, List.take_append_drop, hvalue, Digits.value]
    congr 2
    simp only [Option.getD_some, List.length_drop]
    omega

end Digits

/-! ### The text of a number -/

def value? : Number → Option ℚ
  | integer n => some n
  | fraction m k => some (m / 2 ^ (k + 1))
  | infinite _ => none

lemma eq_infinite {x : Number} (h : x.value? = none) : ∃ b, x = infinite b := by
  cases x with
  | infinite b => exact ⟨b, rfl⟩
  | _ => cases h

/-- The decimal `r` rounds to the magnitude `v`. -/
def Approximates (r v : ℚ) : Prop :=
  v = 0 ∧ r = 0 ∨ ∃ m e, Normal m e ∧ (m : ℚ) * 2 ^ e = v ∧ RoundsTo r m e

lemma Approximates.unique {r v v' : ℚ} (h : Approximates r v) (h' : Approximates r v') :
    v = v' := by
  obtain ⟨hv, hr⟩ | ⟨m, e, hm, hv, hr⟩ := h
  · obtain ⟨hv', -⟩ | ⟨m', e', hm', -, hr'⟩ := h'
    · rw [hv, hv']
    · exact absurd hr (hr'.pos hm'.pos).ne'
  · obtain ⟨-, hr'⟩ | ⟨m', e', hm', hv', hr'⟩ := h'
    · exact absurd hr' (hr.pos hm.pos).ne'
    · obtain ⟨rfl, rfl⟩ := hr.unique hm hm' hr'
      rw [← hv, hv']

/-- The text of a magnitude is a numeral for a decimal that rounds to it. -/
lemma exists_numeral {num den M : Nat} {E : Int} (hden : 0 < den) (hM : M < 2 ^ 53)
    (hE : -1074 ≤ E) (h : (num / den : ℚ) = M * 2 ^ E) :
    ∃ l : Numeral, l.Valid ∧ Approximates l.value (num / den) ∧
      (if num = 0 then "0" else (shortest num den).toText).toList = l.text := by
  split
  · next hnum =>
    refine ⟨⟨['0'], [], none⟩, ⟨.inl rfl, List.forall_mem_singleton.mpr rfl⟩, .inl ⟨?_, ?_⟩, rfl⟩
    · rw [hnum, Nat.cast_zero, zero_div]
    · simp [Numeral.value, digitsValue]
  · next hnum =>
    obtain ⟨m, e, hm, hvalue, hdigits, hround⟩ :=
      exists_shortest (Nat.pos_of_ne_zero hnum) hden hM hE h
    obtain ⟨l, hl, htext⟩ := Digits.exists_layout (shortest num den)
    rw [← hl.value hdigits] at hround
    exact ⟨l, hl.valid hdigits, .inr ⟨m, e, hm, hvalue, hround⟩, htext⟩

def signed? : List Char → Option (Bool × ℚ)
  | '-' :: cs => (decimal? cs).map (true, ·)
  | cs => (decimal? cs).map (false, ·)

lemma signed?_of_decimal? {cs : List Char} {r : ℚ} (h : decimal? cs = some r) :
    signed? cs = some (false, r) := by
  unfold signed?
  split
  · cases h
  · rw [h, Option.map_some]

lemma signed?_infinite (b : Bool) : signed? (infinite b).toText.toList = none := by
  cases b <;> rfl

/-- A finite number shows as its sign and the shortest digits of its magnitude. -/
lemma exists_shortest_toText {x : Number} (h : x.IsBinary64) {v : ℚ} (hv : x.value? = some v) :
    ∃ (m : Int) (den M : Nat) (E : Int), 0 < den ∧ M < 2 ^ 53 ∧ -1074 ≤ E ∧
      (m.natAbs / den : ℚ) = M * 2 ^ E ∧ v = m / den ∧
      x.toText = (if m < 0 then "-" else "") ++
        if m.natAbs = 0 then "0" else (shortest m.natAbs den).toText := by
  cases x with
  | integer i =>
    obtain ⟨M, E, hM, -, hi⟩ := h
    refine ⟨i, 1, M, E, Nat.one_pos, hM, by omega, ?_, ?_, ?_⟩
    · rw [hi, zpow_natCast]
      push_cast
      exact div_one _
    · rw [Nat.cast_one, div_one]
      exact (Option.some.inj hv).symm
    · cases i with
      | ofNat n => exact String.empty_append.symm
      | negSucc n =>
        rw [if_pos (Int.negSucc_lt_zero n)]
        rfl
  | fraction m k =>
    obtain ⟨hm, -, hk⟩ := h
    refine ⟨m, 2 ^ (k + 1), m.natAbs, -((k + 1 : Nat) : Int), Nat.two_pow_pos _, hm, by omega,
      ?_, ?_, rfl⟩
    · rw [zpow_neg, zpow_natCast, div_eq_mul_inv]
      push_cast
      rfl
    · push_cast
      exact (Option.some.inj hv).symm
  | infinite b => cases hv

/-- A finite number shows as its sign and a numeral for a decimal that rounds to its magnitude. -/
lemma exists_toText {x : Number} (h : x.IsBinary64) {v : ℚ} (hv : x.value? = some v) :
    ∃ l : Numeral, l.Valid ∧ Approximates l.value |v| ∧
      x.toText.toList = (if v < 0 then ['-'] else []) ++ l.text := by
  obtain ⟨m, den, M, E, hden, hM, hE, hrep, rfl, htext⟩ := exists_shortest_toText h hv
  obtain ⟨l, hl, happrox, hshown⟩ := exists_numeral hden hM hE hrep
  have hden' : (0 : ℚ) < den := by exact_mod_cast hden
  have habs : (m.natAbs / den : ℚ) = |(m / den : ℚ)| := by
    rw [abs_div, abs_of_pos hden', Nat.cast_natAbs, Int.cast_abs]
  have hsign : (m / den : ℚ) < 0 ↔ m < 0 := by
    rw [div_lt_iff₀ hden', zero_mul, Int.cast_lt_zero]
  refine ⟨l, hl, habs ▸ happrox, ?_⟩
  rw [htext, String.toList_append, hshown]
  simp only [hsign]
  split <;> rfl

/-- The text of a finite number reads as its sign and a decimal that rounds to its magnitude. -/
lemma exists_signed? {x : Number} (h : x.IsBinary64) {v : ℚ} (hv : x.value? = some v) :
    ∃ r, signed? x.toText.toList = some (decide (v < 0), r) ∧ Approximates r |v| := by
  obtain ⟨l, hl, happrox, htext⟩ := exists_toText h hv
  have hread := Numeral.decimal?_text hl
  refine ⟨l.value, ?_, happrox⟩
  rw [htext]
  split
  · next hneg =>
    rw [decide_eq_true hneg]
    exact congrArg (Option.map (true, ·)) hread
  · next hpos =>
    rw [decide_eq_false hpos]
    exact signed?_of_decimal? hread

/-- No number in print holds a slash or a closing bracket. -/
lemma IsBinary64.no_marks {x : Number} (h : x.IsBinary64) :
    ∀ c ∈ x.toText.toList, c ≠ '/' ∧ c ≠ '>' := by
  cases hv : x.value? with
  | none =>
    obtain ⟨b, rfl⟩ := eq_infinite hv
    have hword : ((infinite b).toText.toList.all fun c => c ≠ '/' ∧ c ≠ '>') = true := by
      cases b <;> decide
    exact fun c hc => of_decide_eq_true (List.all_eq_true.mp hword c hc)
  | some v =>
    obtain ⟨l, hl, -, htext⟩ := exists_toText h hv
    rw [htext]
    refine List.forall_mem_append.mpr ⟨?_, hl.no_marks⟩
    split
    · exact List.forall_mem_singleton.mpr (by decide)
    · exact List.forall_mem_nil _

/-- A fraction with an odd numerator is in lowest terms. -/
lemma eq_of_odd {m m' : Int} {k k' : Nat} (hm : m % 2 = 1) (hm' : m' % 2 = 1 ∨ k' = 0)
    (h : (m : ℚ) / 2 ^ k = m' / 2 ^ k') : m = m' ∧ k = k' := by
  have hcross : m * 2 ^ k' = m' * 2 ^ k := by
    rw [div_eq_div_iff (by positivity) (by positivity)] at h
    exact_mod_cast h
  have hodd : ∀ {a b : Int} {d : Nat}, a % 2 = 1 → a = b * 2 ^ d → d = 0 := by
    intro a b d ha he
    cases d with
    | zero => rfl
    | succ d =>
      rw [pow_succ, ← mul_assoc] at he
      omega
  have hcancel : ∀ {a b : Int} {j d : Nat}, a * 2 ^ j = b * 2 ^ (j + d) → a = b * 2 ^ d := by
    intro a b j d he
    rw [pow_add, mul_comm ((2 : Int) ^ j), ← mul_assoc] at he
    exact mul_right_cancel₀ (by positivity) he
  rcases Nat.le_total k' k with hle | hle
  · obtain ⟨d, rfl⟩ := Nat.exists_eq_add_of_le hle
    have he := hcancel hcross
    obtain rfl := hodd hm he
    exact ⟨by simpa using he, rfl⟩
  · obtain ⟨d, rfl⟩ := Nat.exists_eq_add_of_le hle
    have he := hcancel hcross.symm
    obtain rfl : d = 0 := hm'.elim (fun h => hodd h he) (by omega)
    exact ⟨by simpa using he.symm, rfl⟩

lemma value?_inj {x y : Number} (hx : x.IsBinary64) (hy : y.IsBinary64) {v : ℚ}
    (hxv : x.value? = some v) (hyv : y.value? = some v) : x = y := by
  have hwhole : ∀ {i m : Int} {k : Nat}, (fraction m k).IsBinary64 →
      (i : ℚ) ≠ m / 2 ^ (k + 1) := by
    intro i m k h he
    obtain ⟨-, hk⟩ := eq_of_odd h.2.1 (.inr rfl) (he.symm.trans (by rw [pow_zero, div_one]))
    omega
  have heq := hxv.trans hyv.symm
  cases x with
  | integer i =>
    cases y with
    | integer j => exact congrArg integer (Int.cast_injective (Option.some.inj heq))
    | fraction m k => exact absurd (Option.some.inj heq) (hwhole hy)
    | infinite b => cases hyv
  | fraction m k =>
    cases y with
    | integer j => exact absurd (Option.some.inj heq).symm (hwhole hx)
    | fraction m' k' =>
      obtain ⟨rfl, hk⟩ := eq_of_odd hx.2.1 (.inl hy.2.1) (Option.some.inj heq)
      rw [Nat.succ.inj hk]
    | infinite b => cases hyv
  | infinite b => cases hxv

/-- **The text of a number tells it**: no two binary64 values have the same. -/
theorem toText_inj {x y : Number} (hx : x.IsBinary64) (hy : y.IsBinary64)
    (h : x.toText = y.toText) : x = y := by
  cases hxv : x.value? with
  | none =>
    obtain ⟨a, rfl⟩ := eq_infinite hxv
    cases hyv : y.value? with
    | none =>
      obtain ⟨b, rfl⟩ := eq_infinite hyv
      cases a <;> cases b <;> first | rfl | exact absurd h (by decide)
    | some w =>
      obtain ⟨r, hr, -⟩ := exists_signed? hy hyv
      rw [← h, signed?_infinite] at hr
      cases hr
  | some v =>
    obtain ⟨r, hr, happrox⟩ := exists_signed? hx hxv
    cases hyv : y.value? with
    | none =>
      obtain ⟨b, rfl⟩ := eq_infinite hyv
      rw [h, signed?_infinite] at hr
      cases hr
    | some w =>
      obtain ⟨s, hs, happrox'⟩ := exists_signed? hy hyv
      rw [h, hs] at hr
      obtain ⟨hsign, rfl⟩ := Prod.mk.inj (Option.some.inj hr)
      have hsign' : w < 0 ↔ v < 0 := decide_eq_decide.mp hsign
      have habs : |v| = |w| := happrox.unique happrox'
      -- signs are equal, and equal decimals round to one magnitude
      have hvw : v = w := by
        rcases lt_or_ge v 0 with hneg | hpos
        · rw [abs_of_neg hneg, abs_of_neg (hsign'.mpr hneg)] at habs
          exact neg_inj.mp habs
        · have hpos' : 0 ≤ w := not_lt.mp fun hw => hpos.not_gt (hsign'.mp hw)
          rwa [abs_of_nonneg hpos, abs_of_nonneg hpos'] at habs
      exact value?_inj hx hy hxv (hvw ▸ hyv)

end Parley.Number
