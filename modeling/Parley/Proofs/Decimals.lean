import Mathlib.Algebra.Order.Ring.Nat
import Mathlib.Tactic.Lemma
import Mathlib.Tactic.NormNum
import Mathlib.Tactic.Ring
import Parley.Form.Check

/-!
Decimal texts and the integers they stand for. A text of digits is read as the integer that they
write, with any number of zeros in front, both as a literal and as a number; a number that is an
integer of less than 54 binary digits shows as its decimal text.
-/

namespace Parley

/-! ### Digits -/

lemma Form.isDigit_iff {c : Char} : Json.Parser.isDigit c = true ↔ '0' ≤ c ∧ c ≤ '9' := by
  simp [Json.Parser.isDigit]

namespace Literal

open Json.Parser

lemma toNat_of_isDigit {c : Char} (h : isDigit c = true) : 48 ≤ c.toNat ∧ c.toNat ≤ 57 := by
  simp only [isDigit, Bool.and_eq_true, decide_eq_true_eq] at h
  exact ⟨h.1, h.2⟩

lemma isBlank_of_isDigit {c : Char} (h : isDigit c = true) : isBlank c = false := by
  have hn := toNat_of_isDigit h
  simp only [isBlank, Bool.or_eq_false_iff, Bool.and_eq_false_iff, decide_eq_false_iff_not]
  omega

lemma digit?_eq {c : Char} (h : isDigit c = true) : digit? 10 c = some (c.toNat - '0'.toNat) := by
  have hn := toNat_of_isDigit h
  simp only [isDigit, Bool.and_eq_true, decide_eq_true_eq] at h
  have h0 : '0'.toNat = 48 := rfl
  simp only [digit?, hexDigit?, h, and_self, if_true, h0]
  rw [if_pos (by omega)]

lemma digitsFrom_eq {cs : List Char} (h : ∀ c ∈ cs, isDigit c = true) (n : Nat) :
    digitsFrom 10 n cs = some (Nat.ofDigitChars 10 cs n) := by
  induction cs generalizing n with
  | nil => rfl
  | cons c cs ih =>
    obtain ⟨hc, hcs⟩ := List.forall_mem_cons.mp h
    rw [digitsFrom, digit?_eq hc, Nat.ofDigitChars_cons, Nat.mul_comm 10 n]
    exact ih hcs _

lemma digits?_eq {cs : List Char} (h : ∀ c ∈ cs, isDigit c = true) (hne : cs ≠ []) :
    digits? 10 cs = some (Nat.ofDigitChars 10 cs 0) := by
  cases cs with
  | nil => exact absurd rfl hne
  | cons c cs => exact digitsFrom_eq h 0

lemma digitsValue_eq (cs : List Char) : digitsValue cs = Nat.ofDigitChars 10 cs 0 := by
  unfold digitsValue
  rw [Nat.ofDigitChars_eq_foldl]
  simp only [Nat.mul_comm]

/-- Digits alone are an integer text, whatever they begin with. -/
lemma integer?_eq {cs : List Char} (h : ∀ c ∈ cs, isDigit c = true) (hne : cs ≠ []) :
    integer? cs = some (Nat.ofDigitChars 10 cs 0 : Int) := by
  have hdigits := digits?_eq h hne
  unfold integer?
  split
  · exact absurd rfl hne
  · exact absurd (h '-' (List.mem_cons_self ..)) (by decide)
  · exact absurd (h '+' (List.mem_cons_self ..)) (by decide)
  · next c cs =>
    -- behind a zero comes a digit, so no base is announced
    obtain ⟨-, hcs⟩ := List.forall_mem_cons.mp h
    have hc := toNat_of_isDigit (hcs c (List.mem_cons_self ..))
    have hx : ∀ d : Char, 57 < d.toNat → c ≠ d := fun d hd he => by subst he; omega
    rw [if_neg (by simp [hx 'x' (by decide), hx 'X' (by decide)]),
      if_neg (by simp [hx 'o' (by decide), hx 'O' (by decide)]),
      if_neg (by simp [hx 'b' (by decide), hx 'B' (by decide)]), digits?_eq hcs (by simp)]
    rfl
  · rw [hdigits]
    rfl

lemma dropWhile_eq_self {p : Char → Bool} {cs : List Char} (h : ∀ c ∈ cs, p c = false) :
    cs.dropWhile p = cs := by
  cases cs with
  | nil => rfl
  | cons c cs => simp [List.dropWhile, h c (List.mem_cons_self ..)]

lemma trim_eq_self {cs : List Char} (h : ∀ c ∈ cs, isBlank c = false) : trim cs = cs := by
  unfold trim
  rw [dropWhile_eq_self h, dropWhile_eq_self (by simpa using h), List.reverse_reverse]

lemma trim_digits {cs : List Char} (h : ∀ c ∈ cs, isDigit c = true) : trim cs = cs :=
  trim_eq_self fun c hc => isBlank_of_isDigit (h c hc)

lemma ofText_digits {s : String} {cs : List Char} (hs : s.toList = cs)
    (h : ∀ c ∈ cs, isDigit c = true) (hne : cs ≠ []) :
    ofText s = .ok (Nat.ofDigitChars 10 cs 0 : Int) := by
  rw [ofText, hs, trim_digits h, integer?_eq h hne]

lemma ofText_negated {s : String} {cs : List Char} (hs : s.toList = '-' :: cs)
    (h : ∀ c ∈ cs, isDigit c = true) (hne : cs ≠ []) :
    ofText s = .ok (-(Nat.ofDigitChars 10 cs 0 : Int)) := by
  have htrim : trim ('-' :: cs) = '-' :: cs :=
    trim_eq_self (List.forall_mem_cons.mpr ⟨by decide, fun c hc => isBlank_of_isDigit (h c hc)⟩)
  have hint : integer? ('-' :: cs) = some (-(Nat.ofDigitChars 10 cs 0 : Int)) := by
    rw [integer?, digits?_eq h hne]
    rfl
  rw [ofText, hs, htrim, hint]

end Literal

namespace Number

/-! ### Integers as numbers -/

lemma roundDiv_mul (q : Nat) {den : Nat} (hden : 0 < den) : roundDiv (q * den) den = q := by
  simp only [roundDiv, Nat.mul_mod_left, Nat.mul_div_cancel _ hden]
  rw [if_pos (by omega)]

lemma div_le_roundDiv (num den : Nat) : num / den ≤ roundDiv num den := by
  simp only [roundDiv]
  split
  · exact Nat.le_refl _
  · split
    · exact Nat.le_succ _
    · exact Nat.le_add_right _ _

lemma scale_natCast (num den e : Nat) : scale num den (e : Int) = (num, den * 2 ^ e) := rfl

lemma scale_neg (num den : Nat) {e : Nat} (he : 0 < e) :
    scale num den (-(e : Int)) = (num * 2 ^ e, den) := by
  obtain ⟨k, rfl⟩ : ∃ k, e = k + 1 := ⟨e - 1, by omega⟩
  rfl

/-- An integer of `k + 1` binary digits has the exponent `k - 52`. -/
lemma exponentOf_integer {n : Nat} (hn : 0 < n) : exponentOf n 1 = (n.log2 : Int) - 52 := by
  have hlow : 2 ^ n.log2 ≤ n := Nat.log2_self_le (by omega)
  have hone : Nat.log2 1 = 0 := rfl
  have hfull : (scale n 1 ((n.log2 : Int) - (0 : Nat) - 53)).2 * 2 ^ 53 ≤
      (scale n 1 ((n.log2 : Int) - (0 : Nat) - 53)).1 := by
    rcases Nat.lt_or_ge n.log2 53 with hlog | hlog
    · have he : (n.log2 : Int) - (0 : Nat) - 53 = -((53 - n.log2 : Nat) : Int) := by omega
      have hsum : n.log2 + (53 - n.log2) = 53 := by omega
      rw [he, scale_neg _ _ (by omega)]
      calc 1 * 2 ^ 53 = 2 ^ n.log2 * 2 ^ (53 - n.log2) := by rw [one_mul, ← pow_add, hsum]
        _ ≤ n * 2 ^ (53 - n.log2) := Nat.mul_le_mul_right _ hlow
    · have he : (n.log2 : Int) - (0 : Nat) - 53 = ((n.log2 - 53 : Nat) : Int) := by omega
      have hsum : n.log2 - 53 + 53 = n.log2 := by omega
      rw [he, scale_natCast]
      calc 1 * 2 ^ (n.log2 - 53) * 2 ^ 53 = 2 ^ n.log2 := by rw [one_mul, ← pow_add, hsum]
        _ ≤ n := hlow
  simp only [exponentOf, hone, Nat.pow_eq]
  rw [if_pos hfull]
  omega

/-- An integer of more than 1024 binary digits is beyond all numbers. -/
lemma nearest_of_large (negative : Bool) {n : Nat} (h : 1024 ≤ n.log2) :
    nearest negative n 1 = infinite negative := by
  have hpos : 0 < n := by
    rcases Nat.eq_zero_or_pos n with rfl | hpos
    · rw [Nat.log2_zero] at h
      omega
    · exact hpos
  have hle : 52 ≤ n.log2 := by omega
  have hsum : 52 + (n.log2 - 52) = n.log2 := by omega
  have hexp : exponentOf n 1 = .ofNat (n.log2 - 52) := by
    rw [exponentOf_integer hpos]
    exact (Int.ofNat_sub hle).symm
  have hround : 2 ^ 52 ≤ roundDiv n (1 * 2 ^ (n.log2 - 52)) := by
    refine le_trans ?_ (div_le_roundDiv _ _)
    rw [one_mul, Nat.le_div_iff_mul_le (Nat.two_pow_pos _), ← pow_add, hsum]
    exact Nat.log2_self_le hpos.ne'
  -- rounding does not take a binary digit away
  have hlarge : 2 ^ n.log2 ≤ roundDiv n (1 * 2 ^ (n.log2 - 52)) * 2 ^ (n.log2 - 52) :=
    calc 2 ^ n.log2 = 2 ^ 52 * 2 ^ (n.log2 - 52) := by rw [← pow_add, hsum]
      _ ≤ roundDiv n (1 * 2 ^ (n.log2 - 52)) * 2 ^ (n.log2 - 52) := Nat.mul_le_mul_right _ hround
  have hne : roundDiv n (1 * 2 ^ (n.log2 - 52)) * 2 ^ (n.log2 - 52) ≠ 0 :=
    (lt_of_lt_of_le (Nat.two_pow_pos _) hlarge).ne'
  have hbinary : binary n 1 = (roundDiv n (1 * 2 ^ (n.log2 - 52)), .ofNat (n.log2 - 52)) := by
    rw [binary, hexp]
    rfl
  rw [nearest, if_neg hpos.ne', hbinary]
  exact if_pos (h.trans ((Nat.le_log2 hne).mpr hlarge))

lemma ten_pow_le {n k : Nat} (hk : 0 < k) (h : k < digitCount n) : 10 ^ k ≤ n :=
  Nat.le_of_not_lt fun hlt =>
    absurd ((Nat.length_toDigits_le_iff (by decide) hk).mpr hlt) (Nat.not_le_of_lt h)

lemma log2_of_ten_pow {n : Nat} (h : 10 ^ (62 * 5) ≤ n) : 1024 ≤ n.log2 := by
  have hpow : 2 ^ (205 * 5) ≤ n :=
    calc 2 ^ (205 * 5) = (2 ^ 205) ^ 5 := pow_mul 2 205 5
      _ ≤ (10 ^ 62) ^ 5 := Nat.pow_le_pow_left (by norm_num) 5
      _ = 10 ^ (62 * 5) := (pow_mul 10 62 5).symm
      _ ≤ n := h
  have hpos : 0 < n := lt_of_lt_of_le (Nat.two_pow_pos (205 * 5)) hpow
  have hlog := (Nat.le_log2 hpos.ne').mpr hpow
  omega

/-- A decimal without a fraction is read as the integer that it is, rounded. -/
lemma ofDecimal_zero (negative : Bool) (n : Nat) :
    ofDecimal negative n 0 = nearest negative n 1 := by
  unfold ofDecimal
  split
  · next h => simp [h, nearest]
  · split
    · next h =>
      have hcount : 62 * 5 < digitCount n := by omega
      exact (nearest_of_large negative (log2_of_ten_pow (ten_pow_le (by decide) hcount))).symm
    · rw [if_neg (by omega)]
      show nearest negative (n * Nat.pow 10 0) 1 = _
      rw [Nat.pow_eq, pow_zero, mul_one]

/-- An integer of at most 53 binary digits is a number as it is. -/
lemma binary_of_small {n : Nat} (hn : 0 < n) (hsmall : n < 2 ^ 53) :
    binary n 1 = (n * 2 ^ (52 - n.log2), -((52 - n.log2 : Nat) : Int)) := by
  have hlog : n.log2 < 53 := (Nat.log2_lt hn.ne').mpr hsmall
  have hexp : exponentOf n 1 = -((52 - n.log2 : Nat) : Int) := by
    rw [exponentOf_integer hn]
    omega
  rw [binary, hexp]
  rcases Nat.eq_zero_or_pos (52 - n.log2) with hzero | hpos
  · have hscale : scale n 1 (-((0 : Nat) : Int)) = (n * 1, 1) := by rw [mul_one]; rfl
    rw [hzero, hscale, pow_zero, roundDiv_mul n Nat.one_pos, mul_one]
  · have hround := roundDiv_mul (n * 2 ^ (52 - n.log2)) Nat.one_pos
    rw [mul_one] at hround
    rw [scale_neg _ _ hpos, hround]

/-! ### Integers in print -/

lemma Interval.holds_of_onGrid {i : Interval} {c : Nat} {x : Int} (h : i.onGrid x = some c) :
    i.holds c x = true := by
  have hcases : ∀ near far : Nat, (if i.holds near x then some near
      else if i.holds far x then some far else none) = some c → i.holds c x = true := by
    intro near far hc
    split at hc
    · next hnear => cases hc; exact hnear
    · split at hc
      · next hfar => cases hc; exact hfar
      · cases hc
  exact hcases _ _ h

/-- The rounding interval of an integer holds no other integer. -/
structure Interval.Around (i : Interval) (n : Nat) : Prop where
  unit : 4 ≤ i.unit
  mid : i.mid = n * i.unit
  low : i.mid ≤ i.low + 2 ∧ i.low < i.mid
  high : i.high = i.mid + 2

lemma interval_around {n : Nat} (hn : 0 < n) (s : Nat) :
    (interval (n * 2 ^ s) (-(s : Int))).Around n := by
  have hpow : 0 < 2 ^ s := Nat.two_pow_pos s
  have hm : 0 < n * 2 ^ s := Nat.mul_pos hn hpow
  obtain ⟨low, hlow, hbounds⟩ : ∃ low, low = (if n * 2 ^ s = Nat.pow 2 52 ∧ -1074 < -(s : Int)
      then 4 * (n * 2 ^ s) - 1 else 4 * (n * 2 ^ s) - 2) ∧
      4 * (n * 2 ^ s) ≤ low + 2 ∧ low < 4 * (n * 2 ^ s) := by
    refine ⟨_, rfl, ?_⟩
    split <;> omega
  cases s with
  | zero =>
    have hi : interval (n * 2 ^ 0) (-((0 : Nat) : Int)) =
        ⟨low * 1, 4 * (n * 2 ^ 0) * 1, (4 * (n * 2 ^ 0) + 2) * 1, 4, n * 2 ^ 0 % 2 = 0⟩ := by
      rw [hlow]
      rfl
    rw [hi]
    refine ⟨Nat.le_refl _, ?_, ?_, ?_⟩ <;> simp only [pow_zero, mul_one] at hbounds ⊢
    · omega
    · exact hbounds
  | succ s =>
    have hi : interval (n * 2 ^ (s + 1)) (-((s + 1 : Nat) : Int)) =
        ⟨low, 4 * (n * 2 ^ (s + 1)), 4 * (n * 2 ^ (s + 1)) + 2, 4 * 2 ^ (s + 1),
          n * 2 ^ (s + 1) % 2 = 0⟩ := by
      rw [hlow]
      rfl
    rw [hi]
    refine ⟨?_, ?_, hbounds, rfl⟩
    · exact Nat.le_mul_of_pos_right 4 hpow
    · exact Nat.mul_left_comm ..

namespace Interval.Around

variable {i : Interval} {n : Nat}

lemma holds_iff (h : i.Around n) (c g : Nat) : i.holds c g = true ↔ c * 10 ^ g = n := by
  obtain ⟨hunit, hmid, ⟨hlow, hlow'⟩, hhigh⟩ := h
  have hdef : i.holds c g = if i.closed then
      decide (i.low * 1 ≤ c * 10 ^ g * i.unit ∧ c * 10 ^ g * i.unit ≤ i.high * 1)
      else decide (i.low * 1 < c * 10 ^ g * i.unit ∧ c * 10 ^ g * i.unit < i.high * 1) := rfl
  have hkey : (i.low * 1 ≤ c * 10 ^ g * i.unit ∧ c * 10 ^ g * i.unit ≤ i.high * 1) ↔
      c * 10 ^ g = n := by
    constructor
    · rintro ⟨h1, h2⟩
      -- neighbours lie at least four apart, the ends of the interval at most two
      rcases Nat.lt_trichotomy (c * 10 ^ g) n with hlt | heq | hgt
      · have := Nat.mul_le_mul_right i.unit (Nat.succ_le_of_lt hlt)
        rw [Nat.succ_mul] at this
        omega
      · exact heq
      · have := Nat.mul_le_mul_right i.unit (Nat.succ_le_of_lt hgt)
        rw [Nat.succ_mul] at this
        omega
    · intro heq
      rw [heq]
      omega
  rw [hdef]
  split
  · rw [decide_eq_true_eq, hkey]
  · rw [decide_eq_true_eq]
    refine ⟨fun ⟨h1, h2⟩ => hkey.mp ⟨h1.le, h2.le⟩, fun heq => ?_⟩
    rw [heq]
    omega

lemma quotient_eq (h : i.Around n) (g : Nat) : i.quotient g = (n * i.unit, i.unit * 10 ^ g) :=
  congrArg (·, _) h.mid

lemma magnitude_eq (h : i.Around n) (hn : 0 < n) : i.magnitude = (digitCount n : Int) - 1 := by
  have hunit : 0 < i.unit := by have := h.unit; omega
  have hle : i.unit ≤ i.mid := h.mid ▸ Nat.le_mul_of_pos_left _ hn
  rw [magnitude, if_pos hle, h.mid, Nat.mul_div_cancel _ hunit]

lemma of_onGrid (h : i.Around n) {c g : Nat} (hc : i.onGrid g = some c) : c * 10 ^ g = n :=
  (h.holds_iff c g).mp (holds_of_onGrid hc)

lemma onGrid_zero (h : i.Around n) : i.onGrid ((0 : Nat) : Int) = some n := by
  have hunit : 0 < i.unit := by have := h.unit; omega
  have hnear : roundDiv (n * i.unit) (i.unit * 10 ^ 0) = n := by
    rw [pow_zero, mul_one]
    exact roundDiv_mul n hunit
  have hholds : i.holds n ((0 : Nat) : Int) = true := (h.holds_iff n 0).mpr (by simp)
  simp only [onGrid, h.quotient_eq, hnear, hholds, if_true]

/-- The fewest digits of an integer are its own, up to zeros at the end. -/
lemma exists_fewest (h : i.Around n) (hn : 0 < n)
    (hcount : digitCount n ≤ 17) :
    ∃ c g : Nat, c * 10 ^ g = n ∧ i.fewest = ⟨stripZeros 20 c, digitCount c + g⟩ := by
  have hpos : 0 < digitCount n := Nat.length_toDigits_pos
  obtain ⟨F, hF⟩ : ∃ F : Int → Option (Nat × Int), F = fun g => (i.onGrid g).map fun c => (c, g) :=
    ⟨_, rfl⟩
  have hgrid : ∀ p < digitCount n,
      i.magnitude - (p : Int) = ((digitCount n - 1 - p : Nat) : Int) := by
    intro p hp
    rw [h.magnitude_eq hn]
    omega
  -- the grid of the integers is among those that are tried, and no finer one comes before it
  obtain ⟨c, g, hc, hfind⟩ : ∃ c g : Nat, c * 10 ^ g = n ∧
      ((List.range 17).map fun p : Nat => i.magnitude - p).findSome? F = some (c, (g : Int)) := by
    have hsplit : List.range 17 = List.range (digitCount n) ++
        (List.range (17 - digitCount n)).map (digitCount n + ·) := by
      rw [← List.range_add]
      congr 1
      omega
    rw [List.findSome?_map, hsplit, List.findSome?_append]
    cases hcoarse : (List.range (digitCount n)).findSome? (F ∘ fun p : Nat => i.magnitude - p) with
    | none =>
      have hzero := List.findSome?_eq_none_iff.mp hcoarse (digitCount n - 1)
        (List.mem_range.mpr (by omega))
      simp only [hF, Function.comp_apply, hgrid _ (Nat.sub_lt hpos Nat.one_pos), Nat.sub_self,
        h.onGrid_zero, Option.map_some, reduceCtorEq] at hzero
    | some r =>
      obtain ⟨p, hp, hr⟩ := List.exists_of_findSome?_eq_some hcoarse
      simp only [hF, Function.comp_apply, hgrid p (List.mem_range.mp hp)] at hr
      obtain ⟨c, hc, rfl⟩ := Option.map_eq_some_iff.mp hr
      exact ⟨c, _, h.of_onGrid hc, rfl⟩
  refine ⟨c, g, hc, ?_⟩
  rw [hF] at hfind
  rw [fewest, hfind]

end Interval.Around

lemma exists_stripZeros (fuel c : Nat) : ∃ t, c = stripZeros fuel c * 10 ^ t := by
  induction fuel generalizing c with
  | zero => exact ⟨0, by simp [stripZeros]⟩
  | succ fuel ih =>
    rw [stripZeros]
    split
    · next h =>
      obtain ⟨t, ht⟩ := ih (c / 10)
      refine ⟨t + 1, ?_⟩
      rw [pow_succ, ← mul_assoc, ← ht]
      omega
    · exact ⟨0, by simp⟩

lemma toDigits_mul_ten_pow {a : Nat} (ha : 0 < a) (k : Nat) :
    Nat.toDigits 10 (a * 10 ^ k) = Nat.toDigits 10 a ++ List.replicate k '0' := by
  induction k with
  | zero => simp
  | succ k ih =>
    have hstep : a * 10 ^ (k + 1) = 10 * (a * 10 ^ k) + 0 := by ring
    have hpos : 0 < a * 10 ^ k := Nat.mul_pos ha (Nat.pow_pos (by omega))
    rw [hstep, ← Nat.toDigits_append_toDigits (by omega) hpos (by omega), ih, Nat.toDigits_zero,
      List.append_assoc, List.replicate_succ']

lemma shortest_toText {n : Nat} (hn : 0 < n) (hsmall : n < 2 ^ 53) :
    (shortest n 1).toText = String.ofList (Nat.toDigits 10 n) := by
  have hcount : (Nat.toDigits 10 n).length ≤ 16 :=
    (Nat.length_toDigits_le_iff (by omega) (by omega)).mpr (hsmall.trans (by norm_num))
  have haround := interval_around hn (52 - n.log2)
  obtain ⟨c, g, hc, hfewest⟩ := haround.exists_fewest hn (hcount.trans (by omega))
  have hshort : shortest n 1 = ⟨stripZeros 20 c, digitCount c + g⟩ := by
    rw [shortest, binary_of_small hn hsmall, hfewest]
  obtain ⟨t, ht⟩ := exists_stripZeros 20 c
  obtain ⟨a, ha⟩ : ∃ a, a = stripZeros 20 c := ⟨_, rfl⟩
  rw [← ha] at ht hshort
  have hpos : 0 < a := by
    rcases Nat.eq_zero_or_pos a with rfl | hpos
    · rw [zero_mul] at ht
      rw [ht, zero_mul] at hc
      omega
    · exact hpos
  have hdigits : Nat.toDigits 10 n = Nat.toDigits 10 a ++ List.replicate (t + g) '0' := by
    rw [← toDigits_mul_ten_pow hpos, pow_add, ← mul_assoc, ← ht, hc]
  have hlength : digitCount c = (Nat.toDigits 10 a).length + t := by
    rw [digitCount, ht, toDigits_mul_ten_pow hpos, List.length_append, List.length_replicate]
  rw [hdigits, List.length_append, List.length_replicate] at hcount
  have hzeros : ((digitCount c : Int) + g - (Nat.toDigits 10 a).length).toNat = t + g := by omega
  rw [hshort, hdigits, String.ofList_append, ← hzeros]
  refine if_pos ⟨?_, ?_⟩ <;> simp only <;> omega

/-- **The text of an integer of less than 54 binary digits** is its decimal text. -/
theorem toText_integer {i : Int} (h : i.natAbs < 2 ^ 53) : (integer i).toText = toString i := by
  have hmagnitude : ∀ n : Nat, n < 2 ^ 53 →
      (if n = 0 then "0" else (shortest n 1).toText) = toString n := by
    intro n hn
    rw [Nat.toString_eq_ofList_toDigits]
    split
    · next hz => subst hz; rfl
    · next hz => exact shortest_toText (Nat.pos_of_ne_zero hz) hn
  cases i with
  | ofNat n => exact hmagnitude n h
  | negSucc n => exact congrArg ("-" ++ ·) (hmagnitude (n + 1) h)

end Number

end Parley
