import Mathlib.Algebra.Order.Field.Power
import Mathlib.Algebra.Order.Ring.Rat
import Mathlib.Tactic.FieldSimp
import Mathlib.Tactic.Linarith
import Mathlib.Tactic.Positivity
import Parley.Proofs.Decimals

/-!
Rounding to binary64. Whatever decimal is read becomes a binary64 value. No real rounds to two of
them, and the shortest digits of a value are a decimal that rounds to it, so they tell values apart.
-/

namespace Parley.Number

/-! ### Significands and exponents -/

/-- A significand and an exponent as binary64 has them: all 53 binary digits are in use, but for
the least exponent. -/
structure Normal (m : Nat) (e : Int) : Prop where
  pos : 0 < m
  lt : m < 2 ^ 53
  least : -1074 ≤ e
  full : -1074 < e → 2 ^ 52 ≤ m

/-- The lower end of the reals that round to `m * 2 ^ e`, in quarters of the last binary digit. -/
def lowEnd (m : Nat) (e : Int) : Nat := if m = 2 ^ 52 ∧ -1074 < e then 4 * m - 1 else 4 * m - 2

/-- The real `r` rounds to `m * 2 ^ e`; the ends of the range do if `m` is even. -/
def RoundsTo (r : ℚ) (m : Nat) (e : Int) : Prop :=
  if m % 2 = 0 then lowEnd m e * 2 ^ e ≤ 4 * r ∧ 4 * r ≤ (4 * m + 2) * 2 ^ e
  else lowEnd m e * 2 ^ e < 4 * r ∧ 4 * r < (4 * m + 2) * 2 ^ e

variable {m m' : Nat} {e e' : Int} {r s : ℚ}

lemma le_lowEnd (m : Nat) (e : Int) : 4 * m ≤ lowEnd m e + 2 := by
  unfold lowEnd
  split <;> omega

lemma RoundsTo.le (h : RoundsTo r m e) :
    lowEnd m e * 2 ^ e ≤ 4 * r ∧ 4 * r ≤ (4 * m + 2) * 2 ^ e := by
  unfold RoundsTo at h
  split at h
  · exact h
  · exact ⟨h.1.le, h.2.le⟩

lemma RoundsTo.lt_of_odd (h : RoundsTo r m e) (hm : m % 2 ≠ 0) :
    lowEnd m e * 2 ^ e < 4 * r ∧ 4 * r < (4 * m + 2) * 2 ^ e := by
  unfold RoundsTo at h
  rwa [if_neg hm] at h

lemma roundsTo_of_lt (hlow : lowEnd m e * 2 ^ e < 4 * r) (hhigh : 4 * r < (4 * m + 2) * 2 ^ e) :
    RoundsTo r m e := by
  unfold RoundsTo
  split
  · exact ⟨hlow.le, hhigh.le⟩
  · exact ⟨hlow, hhigh⟩

lemma RoundsTo.pos (h : RoundsTo r m e) (hm : 0 < m) : 0 < r := by
  have hlow : 0 < lowEnd m e := by
    have := le_lowEnd m e
    omega
  have hend : (0 : ℚ) < lowEnd m e * 2 ^ e := by positivity
  linarith [h.le.1]

/-- The range of a value ends before that of the next begins. Where the two meet, one of the
significands is odd. -/
lemma Normal.ends_apart (h : Normal m e) (h' : Normal m' e') (hlt : e < e' ∨ e = e' ∧ m < m') :
    (4 * m + 2) * 2 ^ e ≤ (lowEnd m' e' * 2 ^ e' : ℚ) ∧
      (m % 2 = 0 → m' % 2 = 0 → (4 * m + 2) * 2 ^ e < (lowEnd m' e' * 2 ^ e' : ℚ)) := by
  have hpow : (0 : ℚ) < 2 ^ e := by positivity
  obtain he | ⟨rfl, hm⟩ := hlt
  · have hdouble : (2 * 2 ^ e : ℚ) ≤ 2 ^ e' := by
      rw [← zpow_one_add₀ (by norm_num)]
      exact zpow_le_zpow_right₀ (by norm_num) (by omega)
    have hstep : (2 * lowEnd m' e' * 2 ^ e : ℚ) ≤ lowEnd m' e' * 2 ^ e' := by
      calc (2 * lowEnd m' e' * 2 ^ e : ℚ) = lowEnd m' e' * (2 * 2 ^ e) := by ring
        _ ≤ lowEnd m' e' * 2 ^ e' := by gcongr
    have hleast := lt_of_le_of_lt h.least he
    have hfull := h'.full hleast
    have hm := h.lt
    have hends : 4 * m + 2 ≤ 2 * lowEnd m' e' ∧ (m % 2 = 0 → 4 * m + 2 < 2 * lowEnd m' e') := by
      unfold lowEnd
      split <;> omega
    refine ⟨le_trans ?_ hstep, fun heven _ => lt_of_lt_of_le ?_ hstep⟩
    · exact mul_le_mul_of_nonneg_right (by exact_mod_cast hends.1) hpow.le
    · exact mul_lt_mul_of_pos_right (by exact_mod_cast hends.2 heven) hpow
  · have hlow := le_lowEnd m' e
    refine ⟨mul_le_mul_of_nonneg_right ?_ hpow.le, fun h2 h2' => mul_lt_mul_of_pos_right ?_ hpow⟩
    · exact_mod_cast (by omega : 4 * m + 2 ≤ lowEnd m' e)
    · exact_mod_cast (by omega : 4 * m + 2 < lowEnd m' e)

lemma RoundsTo.lt (h : Normal m e) (h' : Normal m' e') (hlt : e < e' ∨ e = e' ∧ m < m')
    (hr : RoundsTo r m e) (hs : RoundsTo s m' e') : r < s := by
  obtain ⟨hle, hstrict⟩ := h.ends_apart h' hlt
  by_cases hm : m % 2 = 0
  · by_cases hm' : m' % 2 = 0
    · linarith [hr.le.2, hs.le.1, hstrict hm hm']
    · linarith [hr.le.2, (hs.lt_of_odd hm').1]
  · linarith [(hr.lt_of_odd hm).2, hs.le.1]

/-- **A real rounds to one value at most.** -/
theorem RoundsTo.unique (h : Normal m e) (h' : Normal m' e') (hr : RoundsTo r m e)
    (hr' : RoundsTo r m' e') : m = m' ∧ e = e' := by
  rcases lt_trichotomy e e' with he | he | he
  · exact absurd (hr.lt h h' (.inl he) hr') (lt_irrefl r)
  · rcases Nat.lt_trichotomy m m' with hm | hm | hm
    · exact absurd (hr.lt h h' (.inr ⟨he, hm⟩) hr') (lt_irrefl r)
    · exact ⟨hm, he⟩
    · exact absurd (hr'.lt h' h (.inr ⟨he.symm, hm⟩) hr) (lt_irrefl r)
  · exact absurd (hr'.lt h' h (.inl he) hr) (lt_irrefl r)

/-- Sixteen decimal digits behind the first are enough: half a step of so fine a grid does not
leave the range. -/
lemma Normal.roundsTo_of_near (hm : Normal m e) {g : ℚ} (hg : g * 10 ^ 16 ≤ m * 2 ^ e)
    (hlow : 2 * (m * 2 ^ e) ≤ 2 * r + g) (hhigh : 2 * r ≤ 2 * (m * 2 ^ e) + g) :
    RoundsTo r m e := by
  have hpow : (0 : ℚ) < 2 ^ e := by positivity
  have hlt : (m : ℚ) < 2 ^ 53 := by exact_mod_cast hm.lt
  have hfine : g < 2 ^ e := by
    linarith [mul_lt_mul_of_pos_right hlt hpow]
  refine roundsTo_of_lt ?_ (by linarith)
  have hpos := hm.pos
  unfold lowEnd
  split
  · next h =>
    -- below a power of two the range is half as wide, but then the grid is twice as fine
    rw [h.1] at hg hlow ⊢
    push_cast at hg hlow ⊢
    linarith
  · have hcast : ((4 * m - 2 : Nat) : ℚ) = 4 * m - 2 := by
      rw [Nat.cast_sub (by omega)]
      push_cast
      rfl
    rw [hcast, sub_mul]
    linarith

/-- Even the least value there is has its first decimal digit within 358 places. -/
lemma Normal.one_le_mul_ten_pow (hm : Normal m e) {k : Nat} (hk : 358 ≤ k) :
    (1 : ℚ) ≤ m * 2 ^ e * 10 ^ k := by
  have hten : (2 : ℚ) ^ 1074 ≤ 10 ^ k := by
    calc (2 : ℚ) ^ (3 * 358) = (2 ^ 3) ^ 358 := pow_mul 2 3 358
      _ ≤ 10 ^ 358 := pow_le_pow_left₀ (by norm_num) (by norm_num) 358
      _ ≤ 10 ^ k := pow_le_pow_right₀ (by norm_num) hk
  have hleast : (2 ^ 1074 : ℚ)⁻¹ ≤ 2 ^ e := by
    rw [← zpow_natCast, ← zpow_neg]
    exact zpow_le_zpow_right₀ (by norm_num) hm.least
  calc (1 : ℚ) = (2 ^ 1074)⁻¹ * 2 ^ 1074 := (inv_mul_cancel₀ (by positivity)).symm
    _ ≤ 2 ^ e * 10 ^ k := by gcongr
    _ ≤ m * 2 ^ e * 10 ^ k := by
      rw [mul_assoc]
      exact le_mul_of_one_le_left (by positivity) (by exact_mod_cast hm.pos)

/-! ### The binary form of a value -/

def shift (b num den : Nat) : Int → Nat × Nat
  | .ofNat e => (num, den * b ^ e)
  | .negSucc e => (num * b ^ (e + 1), den)

lemma shift_snd_pos {b : Nat} (hb : 0 < b) (num : Nat) {den : Nat} (hden : 0 < den) (e : Int) :
    0 < (shift b num den e).2 := by
  cases e with
  | ofNat e => exact Nat.mul_pos hden (Nat.pow_pos hb)
  | negSucc e => exact hden

lemma shift_fst {b : Nat} (hb : 0 < b) (num : Nat) {den : Nat} (hden : 0 < den) (e : Int) :
    ((shift b num den e).1 : ℚ) = num / den / b ^ e * (shift b num den e).2 := by
  have hb' : (b : ℚ) ≠ 0 := by positivity
  have hden' : (den : ℚ) ≠ 0 := by positivity
  cases e with
  | ofNat e =>
    simp only [shift, Int.ofNat_eq_natCast, zpow_natCast]
    push_cast
    field_simp
  | negSucc e =>
    simp only [shift, zpow_negSucc]
    push_cast
    field_simp

lemma scale_eq_shift (num den : Nat) (e : Int) : scale num den e = shift 2 num den e := by
  cases e <;> rfl

lemma roundDiv_near {num den : Nat} (hden : 0 < den) {y : ℚ} (hy : (num : ℚ) = y * den) :
    2 * y ≤ 2 * roundDiv num den + 1 ∧ 2 * roundDiv num den ≤ 2 * y + 1 := by
  have hnear : 2 * num ≤ 2 * roundDiv num den * den + den ∧
      2 * roundDiv num den * den ≤ 2 * num + den := by
    have hdiv := Nat.div_add_mod num den
    have hmod := Nat.mod_lt num hden
    have hdown : 2 * (num / den) * den = 2 * (den * (num / den)) := by ring
    have hup : 2 * (num / den + 1) * den = 2 * (den * (num / den)) + 2 * den := by ring
    simp only [roundDiv]
    split
    · omega
    · split
      · omega
      · rcases Nat.mod_two_eq_zero_or_one (num / den) with h | h
        · rw [h, add_zero]
          omega
        · rw [h]
          omega
  have hden' : (0 : ℚ) < den := by exact_mod_cast hden
  obtain ⟨hlow, hhigh⟩ : 2 * (num : ℚ) ≤ 2 * roundDiv num den * den + den ∧
      2 * (roundDiv num den : ℚ) * den ≤ 2 * num + den := by exact_mod_cast hnear
  rw [hy] at hlow hhigh
  constructor
  · exact le_of_mul_le_mul_right (by linarith) hden'
  · exact le_of_mul_le_mul_right (by linarith) hden'

/-- The numbers of binary digits tell a quotient up to a factor of four. -/
lemma log2_div_bounds {num den : Nat} (hnum : 0 < num) (hden : 0 < den) :
    (2 : ℚ) ^ ((num.log2 : Int) - den.log2 - 1) ≤ num / den ∧
      (num / den : ℚ) < 2 ^ ((num.log2 : Int) - den.log2 + 1) := by
  have hden' : (0 : ℚ) < den := by exact_mod_cast hden
  have hnumlow : (2 : ℚ) ^ num.log2 ≤ num := by exact_mod_cast Nat.log2_self_le hnum.ne'
  have hnumhigh : (num : ℚ) < 2 ^ (num.log2 + 1) := by exact_mod_cast Nat.lt_log2_self
  have hdenlow : (2 : ℚ) ^ den.log2 ≤ den := by exact_mod_cast Nat.log2_self_le hden.ne'
  have hdenhigh : (den : ℚ) ≤ 2 ^ (den.log2 + 1) := by exact_mod_cast Nat.lt_log2_self.le
  constructor
  · calc (2 : ℚ) ^ ((num.log2 : Int) - den.log2 - 1) = 2 ^ num.log2 / 2 ^ (den.log2 + 1) := by
          rw [← zpow_natCast, ← zpow_natCast, ← zpow_sub₀ (by norm_num)]
          congr 1
          push_cast
          ring
      _ ≤ num / den := by gcongr
  · calc (num / den : ℚ) < 2 ^ (num.log2 + 1) / den := by gcongr
      _ ≤ 2 ^ (num.log2 + 1) / 2 ^ den.log2 := by gcongr
      _ = 2 ^ ((num.log2 : Int) - den.log2 + 1) := by
          rw [← zpow_natCast, ← zpow_natCast, ← zpow_sub₀ (by norm_num)]
          congr 1
          push_cast
          ring

/-- At the exponent of a value its significand has 53 binary digits, but for the least exponent. -/
lemma exponentOf_bounds {num den : Nat} (hnum : 0 < num) (hden : 0 < den) :
    -1074 ≤ exponentOf num den ∧ (num / den : ℚ) < 2 ^ 53 * 2 ^ exponentOf num den ∧
      (-1074 < exponentOf num den → 2 ^ 52 * 2 ^ exponentOf num den ≤ (num / den : ℚ)) := by
  obtain ⟨hlow, hhigh⟩ := log2_div_bounds hnum hden
  obtain ⟨k, hk⟩ : ∃ k : Int, k = (num.log2 : Int) - den.log2 - 53 := ⟨_, rfl⟩
  obtain ⟨v, hv⟩ : ∃ v : ℚ, v = num / den := ⟨_, rfl⟩
  have hshift : ∀ j : Int, (2 : ℚ) ^ (k + j) = 2 ^ j * 2 ^ k := fun j => by
    rw [add_comm, zpow_add₀ (by norm_num)]
  have htest : (scale num den k).2 * 2 ^ 53 ≤ (scale num den k).1 ↔ (2 ^ 53 * 2 ^ k : ℚ) ≤ v := by
    have hpos : (0 : ℚ) < (shift 2 num den k).2 := by
      exact_mod_cast shift_snd_pos two_pos num hden k
    have hfst := shift_fst two_pos num hden k
    rw [Nat.cast_ofNat, ← hv] at hfst
    rw [scale_eq_shift, ← le_div_iff₀ (by positivity), ← mul_le_mul_iff_left₀ hpos, ← hfst,
      mul_comm]
    exact_mod_cast Iff.rfl
  rw [← hv] at hlow hhigh ⊢
  -- of the two exponents that the binary digits leave open, the test picks the right one
  obtain ⟨j, hj, hjlow, hjhigh⟩ : ∃ j, exponentOf num den = max j (-1074) ∧
      2 ^ 52 * 2 ^ j ≤ v ∧ v < 2 ^ 53 * 2 ^ j := by
    by_cases hfull : (2 ^ 53 * 2 ^ k : ℚ) ≤ v
    · refine ⟨k + 1, ?_, ?_, ?_⟩
      · simp only [exponentOf, Nat.pow_eq, ← hk]
        rw [if_pos (htest.mpr hfull)]
      · rw [hshift, zpow_one]
        linarith
      · rw [show (num.log2 : Int) - den.log2 + 1 = k + 54 by omega, hshift] at hhigh
        rw [hshift, zpow_one]
        norm_num at hhigh ⊢
        linarith
    · refine ⟨k, ?_, ?_, not_le.mp hfull⟩
      · simp only [exponentOf, Nat.pow_eq, ← hk]
        rw [if_neg (htest.not.mpr hfull)]
      · rw [show (num.log2 : Int) - den.log2 - 1 = k + 52 by omega, hshift] at hlow
        exact_mod_cast hlow
  rw [hj]
  refine ⟨le_max_right _ _, lt_of_lt_of_le hjhigh ?_, fun hlt => ?_⟩
  · gcongr
    · norm_num
    · exact le_max_left _ _
  · rwa [max_eq_left ((lt_max_iff.mp hlt).resolve_right (lt_irrefl _)).le]

lemma binary_eq {num den : Nat} (hden : 0 < den)
    (h : (m : ℚ) * 2 ^ exponentOf num den = num / den) :
    binary num den = (m, exponentOf num den) := by
  have hfst : (shift 2 num den (exponentOf num den)).1 =
      m * (shift 2 num den (exponentOf num den)).2 := by
    have hfst := shift_fst two_pos num hden (exponentOf num den)
    rw [← h, Nat.cast_ofNat, mul_div_cancel_right₀ _ (by positivity)] at hfst
    exact_mod_cast hfst
  simp only [binary]
  rw [scale_eq_shift, hfst, roundDiv_mul m (shift_snd_pos two_pos num hden _)]

/-- A value of at most 53 binary digits is its own binary form. -/
lemma exists_binary {num den M : Nat} {E : Int} (hnum : 0 < num) (hden : 0 < den)
    (hM : M < 2 ^ 53) (hE : -1074 ≤ E) (h : (num / den : ℚ) = M * 2 ^ E) :
    ∃ m e, binary num den = (m, e) ∧ Normal m e ∧ (m : ℚ) * 2 ^ e = num / den := by
  obtain ⟨hleast, hhigh, hlow⟩ := exponentOf_bounds hnum hden
  obtain ⟨e, he⟩ : ∃ e, e = exponentOf num den := ⟨_, rfl⟩
  rw [← he] at hleast hhigh hlow
  have hpow : (0 : ℚ) < 2 ^ e := by positivity
  -- a greater exponent would need more than 53 binary digits
  have heE : e ≤ E := by
    by_contra hlt
    have hfull := hlow (by omega)
    have hdouble : (2 * 2 ^ E : ℚ) ≤ 2 ^ e := by
      rw [← zpow_one_add₀ (by norm_num)]
      exact zpow_le_zpow_right₀ (by norm_num) (by omega)
    have hM' : (M : ℚ) * 2 ^ E < 2 ^ 53 * 2 ^ E :=
      mul_lt_mul_of_pos_right (by exact_mod_cast hM) (by positivity)
    linarith
  obtain ⟨m, hm⟩ : ∃ m : Nat, (m : ℚ) * 2 ^ e = num / den := by
    refine ⟨M * 2 ^ (E - e).toNat, ?_⟩
    push_cast
    rw [h, ← zpow_natCast, Int.toNat_of_nonneg (by omega), mul_assoc,
      ← zpow_add₀ (by norm_num), sub_add_cancel]
  refine ⟨m, e, he ▸ binary_eq hden (he ▸ hm), ⟨?_, ?_, hleast, fun hlt => ?_⟩, hm⟩
  · rcases Nat.eq_zero_or_pos m with rfl | hpos
    · have : (0 : ℚ) < num / den := by positivity
      rw [← hm, Nat.cast_zero, zero_mul] at this
      exact absurd this (lt_irrefl 0)
    · exact hpos
  · rw [← hm] at hhigh
    exact_mod_cast lt_of_mul_lt_mul_right hhigh hpow.le
  · have hfull := hlow hlt
    rw [← hm] at hfull
    exact_mod_cast le_of_mul_le_mul_right hfull hpow

/-! ### What is read -/

/-- The binary64 values: at most 53 binary digits, an exponent in range, and a fraction in lowest
terms. -/
def IsBinary64 : Number → Prop
  | integer n => ∃ m e : Nat, m < 2 ^ 53 ∧ e ≤ 971 ∧ n.natAbs = m * 2 ^ e
  | fraction m k => m.natAbs < 2 ^ 53 ∧ m % 2 = 1 ∧ k < 1074
  | infinite _ => True

lemma binary_bounds {num den : Nat} (hnum : 0 < num) (hden : 0 < den)
    (h : binary num den = (m, e)) : m ≤ 2 ^ 53 ∧ -1074 ≤ e ∧ (-1074 < e → 2 ^ 52 ≤ m) := by
  obtain ⟨hleast, hhigh, hlow⟩ := exponentOf_bounds hnum hden
  simp only [binary, Prod.mk.injEq] at h
  obtain ⟨hm, rfl⟩ := h
  rw [scale_eq_shift] at hm
  have hpow : (0 : ℚ) < 2 ^ exponentOf num den := by positivity
  obtain ⟨y, hy⟩ : ∃ y : ℚ, (num / den : ℚ) = y * 2 ^ exponentOf num den :=
    ⟨_, (div_mul_cancel₀ _ hpow.ne').symm⟩
  have hfst := shift_fst two_pos num hden (exponentOf num den)
  rw [hy, Nat.cast_ofNat, mul_div_cancel_right₀ _ hpow.ne'] at hfst
  obtain ⟨hnear, hnear'⟩ := roundDiv_near (shift_snd_pos two_pos num hden _) hfst
  rw [hm] at hnear hnear'
  rw [hy] at hhigh hlow
  have hy53 := lt_of_mul_lt_mul_right hhigh hpow.le
  refine ⟨?_, hleast, fun hlt => ?_⟩
  · have hm53 : (2 * m : ℚ) < 2 * 2 ^ 53 + 1 := by linarith
    have : 2 * m < 2 * 2 ^ 53 + 1 := by exact_mod_cast hm53
    omega
  · have hy52 := le_of_mul_le_mul_right (hlow hlt) hpow
    have hm52 : (2 * 2 ^ 52 : ℚ) ≤ 2 * m + 1 := by linarith
    have : 2 * 2 ^ 52 ≤ 2 * m + 1 := by exact_mod_cast hm52
    omega

lemma lowest_bounds (m k : Nat) :
    (lowest m k).1 ≤ m ∧ (lowest m k).2 ≤ k ∧ (0 < (lowest m k).2 → (lowest m k).1 % 2 = 1) := by
  fun_induction lowest m k with
  | case1 m => simp
  | case2 m k hm ih => omega
  | case3 m k hm => exact ⟨Nat.le_refl _, Nat.le_refl _, fun _ => by omega⟩

lemma isBinary64_integer {n : Int} {m e : Nat} (hn : n.natAbs = m * 2 ^ e) (hm : m ≤ 2 ^ 53)
    (he : e ≤ 971) (hcarry : m = 2 ^ 53 → e < 971) : (integer n).IsBinary64 := by
  rcases Nat.lt_or_eq_of_le hm with hlt | heq
  · exact ⟨m, e, hlt, he, hn⟩
  · refine ⟨2 ^ 52, e + 1, by norm_num, hcarry heq, ?_⟩
    rw [hn, heq, pow_succ]
    ring

lemma isBinary64_ofBinary (negative : Bool) (hm : m ≤ 2 ^ 53) (hleast : -1074 ≤ e)
    (hfull : -1074 < e → 2 ^ 52 ≤ m) : (ofBinary negative m e).IsBinary64 := by
  have hsigned : ∀ n : Nat, (if negative then -(n : Int) else n).natAbs = n := fun n => by
    cases negative <;> simp
  cases e with
  | ofNat e =>
    show (if 1024 ≤ (m * 2 ^ e).log2 then infinite negative
      else integer (if negative then -((m * 2 ^ e : Nat) : Int) else (m * 2 ^ e : Nat))).IsBinary64
    split
    · trivial
    · next hlog =>
      have hm52 : 2 ^ 52 ≤ m := hfull (lt_of_lt_of_le (by decide) (Int.natCast_nonneg e))
      -- the binary digits of the significand and the exponent add up
      have hdigits : ∀ d, 2 ^ d ≤ m → d + e < 1024 := by
        intro d hd
        have hlow : 2 ^ (d + e) ≤ m * 2 ^ e := by
          rw [pow_add]
          exact Nat.mul_le_mul_right _ hd
        have := (Nat.le_log2 (lt_of_lt_of_le (Nat.two_pow_pos _) hlow).ne').mpr hlow
        omega
      refine isBinary64_integer (hsigned _) hm ?_ fun heq => ?_
      · have := hdigits 52 hm52
        omega
      · have := hdigits 53 heq.ge
        omega
  | negSucc e =>
    obtain ⟨hle, hexp, hodd⟩ := lowest_bounds m (e + 1)
    rcases h : lowest m (e + 1) with ⟨n, _ | k⟩
    · have hvalue : ofBinary negative m (.negSucc e) =
          integer (if negative then -(n : Int) else n) := by
        simp only [ofBinary, h]
        rfl
      rw [h] at hle
      rw [hvalue]
      exact isBinary64_integer ((hsigned n).trans (by rw [pow_zero, mul_one])) (hle.trans hm)
        (by omega) (by omega)
    · have hvalue : ofBinary negative m (.negSucc e) =
          fraction (if negative then -(n : Int) else n) k := by
        simp only [ofBinary, h]
        rfl
      rw [h] at hle hexp hodd
      have hn := hodd (Nat.succ_pos k)
      simp only at hle hexp hn
      rw [hvalue]
      refine ⟨?_, ?_, by omega⟩
      · rw [hsigned]
        omega
      · split <;> omega

lemma isBinary64_nearest (negative : Bool) (num : Nat) {den : Nat} (hden : 0 < den) :
    (nearest negative num den).IsBinary64 := by
  unfold nearest
  split
  · exact ⟨0, 0, by decide⟩
  · next hnum =>
    obtain ⟨hm, hleast, hfull⟩ := binary_bounds (Nat.pos_of_ne_zero hnum) hden rfl
    exact isBinary64_ofBinary negative hm hleast hfull

/-- **Whatever decimal is read**, the number is a binary64 value. -/
theorem isBinary64_ofDecimal (negative : Bool) (digits : Nat) (e : Int) :
    (ofDecimal negative digits e).IsBinary64 := by
  unfold ofDecimal
  split
  · exact ⟨0, 0, by decide⟩
  · split
    · trivial
    · split
      · exact ⟨0, 0, by decide⟩
      · cases e with
        | ofNat e => exact isBinary64_nearest negative _ Nat.one_pos
        | negSucc e => exact isBinary64_nearest negative digits (Nat.pow_pos (by decide))

/-! ### The shortest digits -/

namespace Interval

variable {i : Interval}

structure Spans (i : Interval) (m : Nat) (e : Int) : Prop where
  unit_pos : 0 < i.unit
  low : 4 * (i.low : ℚ) = lowEnd m e * 2 ^ e * i.unit
  mid : (i.mid : ℚ) = m * 2 ^ e * i.unit
  high : 4 * (i.high : ℚ) = (4 * m + 2) * 2 ^ e * i.unit
  closed : i.closed = decide (m % 2 = 0)

lemma spans_interval (m : Nat) (e : Int) : (interval m e).Spans m e := by
  cases e with
  | ofNat e =>
    have hi : interval m (.ofNat e) = ⟨lowEnd m e * 2 ^ e, 4 * m * 2 ^ e, (4 * m + 2) * 2 ^ e, 4,
        m % 2 = 0⟩ := rfl
    rw [hi, Int.ofNat_eq_natCast]
    refine ⟨four_pos, ?_, ?_, ?_, rfl⟩ <;> push_cast <;> rw [zpow_natCast] <;> ring
  | negSucc e =>
    have hi : interval m (.negSucc e) = ⟨lowEnd m (.negSucc e), 4 * m, 4 * m + 2,
        4 * 2 ^ (e + 1), m % 2 = 0⟩ := rfl
    rw [hi]
    refine ⟨Nat.mul_pos (by decide) (Nat.two_pow_pos _), ?_, ?_, ?_, rfl⟩ <;> push_cast <;>
      rw [zpow_negSucc] <;> field_simp

lemma holds_iff (c : Nat) (x : Int) : i.holds c x = true ↔
    if i.closed then i.low ≤ (c * 10 ^ x * i.unit : ℚ) ∧ (c * 10 ^ x * i.unit : ℚ) ≤ i.high
    else i.low < (c * 10 ^ x * i.unit : ℚ) ∧ (c * 10 ^ x * i.unit : ℚ) < i.high := by
  obtain ⟨r, hr⟩ : ∃ r : ℚ, r = c * 10 ^ x * i.unit := ⟨_, rfl⟩
  obtain ⟨k, u, hu, hk, hdef⟩ : ∃ k u : Nat, (0 : ℚ) < u ∧ (k : ℚ) = r * u ∧
      i.holds c x = if i.closed then decide (i.low * u ≤ k ∧ k ≤ i.high * u)
        else decide (i.low * u < k ∧ k < i.high * u) := by
    cases x with
    | ofNat x =>
      refine ⟨c * 10 ^ x * i.unit, 1, by norm_num, ?_, rfl⟩
      rw [hr, Int.ofNat_eq_natCast, zpow_natCast]
      push_cast
      ring
    | negSucc x =>
      refine ⟨c * i.unit, 10 ^ (x + 1), by positivity, ?_, rfl⟩
      rw [hr, zpow_negSucc]
      push_cast
      field_simp
  have hle : ∀ n : Nat, n * u ≤ k ↔ (n : ℚ) ≤ r := fun n => by
    rw [← mul_le_mul_iff_left₀ hu, ← hk]
    exact_mod_cast Iff.rfl
  have hge : ∀ n : Nat, k ≤ n * u ↔ r ≤ (n : ℚ) := fun n => by
    rw [← mul_le_mul_iff_left₀ hu, ← hk]
    exact_mod_cast Iff.rfl
  rw [hdef, ← hr]
  split
  · rw [decide_eq_true_eq, hle, hge]
  · rw [decide_eq_true_eq, ← not_le, ← not_le, hle, hge, not_le, not_le]

lemma Spans.holds_iff (h : i.Spans m e) (c : Nat) (x : Int) :
    i.holds c x = true ↔ RoundsTo (c * 10 ^ x) m e := by
  obtain ⟨hunit, hlow, -, hhigh, hclosed⟩ := h
  have hunit' : (0 : ℚ) < i.unit := by exact_mod_cast hunit
  obtain ⟨r, hr⟩ : ∃ r : ℚ, r = c * 10 ^ x := ⟨_, rfl⟩
  have hfour : (0 : ℚ) < 4 := by norm_num
  have hscale : ∀ {n a : ℚ}, 4 * n = a * i.unit →
      (n ≤ r * i.unit ↔ a ≤ 4 * r) ∧ (r * i.unit ≤ n ↔ 4 * r ≤ a) := fun h => by
    constructor <;> rw [← mul_le_mul_iff_right₀ hfour, h, ← mul_assoc, mul_le_mul_iff_left₀ hunit']
  rw [Interval.holds_iff, hclosed, ← hr, RoundsTo]
  simp only [decide_eq_true_eq]
  split
  · rw [(hscale hlow).1, (hscale hhigh).2]
  · rw [← not_le, ← not_le, (hscale hlow).2, (hscale hhigh).1, not_le, not_le]

lemma quotient_eq_shift (x : Int) : i.quotient x = shift 10 i.mid i.unit x := by
  cases x <;> rfl

/-- The decimal exponent of the interval is not above that of the value. -/
lemma Spans.ten_pow_magnitude_le (h : i.Spans m e) (hm : Normal m e) :
    (10 : ℚ) ^ i.magnitude ≤ m * 2 ^ e := by
  have hunit : (0 : ℚ) < i.unit := by exact_mod_cast h.unit_pos
  have hvalue : (m * 2 ^ e : ℚ) = i.mid / i.unit := by
    rw [h.mid, mul_div_cancel_right₀ _ hunit.ne']
  rw [hvalue]
  unfold magnitude
  -- a whole part gives the magnitude, or else the first power of ten that reaches it
  split
  · next hle =>
    obtain ⟨n, hn⟩ : ∃ n, n = i.mid / i.unit := ⟨_, rfl⟩
    have hpos : 0 < n := hn ▸ Nat.div_pos hle h.unit_pos
    have hcount : 0 < digitCount n := Nat.length_toDigits_pos
    have hpow : 10 ^ (digitCount n - 1) ≤ n := by
      rcases Nat.eq_zero_or_pos (digitCount n - 1) with hzero | hlt
      · rw [hzero, pow_zero]
        exact hpos
      · exact ten_pow_le hlt (by omega)
    have hcast : ((digitCount n : Int) - 1) = ((digitCount n - 1 : Nat) : Int) := by omega
    rw [← hn, hcast, zpow_natCast, le_div_iff₀ hunit]
    have hmul : 10 ^ (digitCount n - 1) * i.unit ≤ i.mid :=
      (Nat.mul_le_mul_right _ hpow).trans (hn ▸ Nat.div_mul_le_self _ _)
    exact_mod_cast hmul
  · split
    · next k hk =>
      have hle := List.find?_some hk
      rw [zpow_neg, zpow_natCast, inv_le_iff_one_le_mul₀ (by positivity), div_mul_eq_mul_div,
        le_div_iff₀ hunit, one_mul]
      simp only [Nat.pow_eq, decide_eq_true_eq] at hle
      exact_mod_cast hle
    · next hnone =>
      -- there is such a power among those searched: no value is that small
      obtain ⟨k, hk, hk'⟩ : ∃ k, 358 ≤ k ∧ k < 400 := ⟨358, by omega, by omega⟩
      have hone := hm.one_le_mul_ten_pow hk
      have hfound : i.unit ≤ i.mid * 10 ^ k := by
        rw [hvalue, div_mul_eq_mul_div, le_div_iff₀ hunit, one_mul] at hone
        exact_mod_cast hone
      exact absurd (decide_eq_true hfound)
        (List.find?_eq_none.mp hnone k (List.mem_range.mpr hk'))

/-- The decimal on a grid that is taken first is at most half a step away from the value. -/
lemma Spans.near_value (h : i.Spans m e) (x : Int) {near : Nat}
    (hnear : near = roundDiv (i.quotient x).1 (i.quotient x).2) :
    2 * (m * 2 ^ e) ≤ 2 * (near * 10 ^ x) + (10 : ℚ) ^ x ∧
      2 * (near * 10 ^ x) ≤ 2 * (m * 2 ^ e) + (10 : ℚ) ^ x := by
  have hunit : (i.unit : ℚ) ≠ 0 := by exact_mod_cast h.unit_pos.ne'
  have hten : (0 : ℚ) < 10 ^ x := by positivity
  obtain ⟨y, hy⟩ : ∃ y : ℚ, m * 2 ^ e = y * 10 ^ x :=
    ⟨m * 2 ^ e / 10 ^ x, (div_mul_cancel₀ _ hten.ne').symm⟩
  have hpos : 0 < (i.quotient x).2 :=
    quotient_eq_shift x ▸ shift_snd_pos (by norm_num) _ h.unit_pos x
  have hfst : ((i.quotient x).1 : ℚ) = y * (i.quotient x).2 := by
    rw [quotient_eq_shift, shift_fst (by norm_num) _ h.unit_pos, h.mid,
      mul_div_cancel_right₀ _ hunit, hy, Nat.cast_ofNat, mul_div_cancel_right₀ _ hten.ne']
  obtain ⟨hlow, hhigh⟩ := roundDiv_near hpos hfst
  rw [← hnear] at hlow hhigh
  rw [hy]
  constructor
  · linarith [mul_le_mul_of_nonneg_right hlow hten.le]
  · linarith [mul_le_mul_of_nonneg_right hhigh hten.le]

/-- The finest grid that is tried has a decimal in the interval. -/
lemma Spans.onGrid_finest (h : i.Spans m e) (hm : Normal m e) :
    (i.onGrid (i.magnitude - 16)).isSome = true := by
  obtain ⟨x, hx⟩ : ∃ x, x = i.magnitude - 16 := ⟨_, rfl⟩
  have hgrid : (10 : ℚ) ^ x * 10 ^ 16 ≤ m * 2 ^ e := by
    refine le_trans (le_of_eq ?_) (h.ten_pow_magnitude_le hm)
    rw [← zpow_natCast, ← zpow_add₀ (by norm_num), hx]
    congr 1
    omega
  obtain ⟨near, hnear⟩ : ∃ near, near = roundDiv (i.quotient x).1 (i.quotient x).2 := ⟨_, rfl⟩
  obtain ⟨hlow, hhigh⟩ := h.near_value x hnear
  have hholds := (h.holds_iff near x).mpr (hm.roundsTo_of_near hgrid hlow hhigh)
  simp only [onGrid, ← hx, ← hnear, hholds, if_true, Option.isSome_some]

/-- The digits that are found are a decimal of some grid in the interval. -/
lemma exists_fewest {p : Nat} (hp : p < 17) (h : (i.onGrid (i.magnitude - p)).isSome = true) :
    ∃ c x, i.onGrid x = some c ∧ i.fewest = ⟨stripZeros 20 c, digitCount c + x⟩ := by
  obtain ⟨F, hF⟩ : ∃ F : Int → Option (Nat × Int), F = fun x => (i.onGrid x).map fun c => (c, x) :=
    ⟨_, rfl⟩
  have hsome :
      (((List.range 17).map fun q : Nat => i.magnitude - q).findSome? F).isSome = true := by
    rw [List.findSome?_isSome_iff]
    refine ⟨_, List.mem_map_of_mem (List.mem_range.mpr hp), ?_⟩
    rw [hF, Option.isSome_map]
    exact h
  obtain ⟨⟨c, x⟩, hfind⟩ := Option.isSome_iff_exists.mp hsome
  obtain ⟨y, -, hy⟩ := List.exists_of_findSome?_eq_some hfind
  rw [hF] at hy hfind
  obtain ⟨c', hc, heq⟩ := Option.map_eq_some_iff.mp hy
  cases heq
  refine ⟨c, x, hc, ?_⟩
  rw [fewest, hfind]

end Interval

def Digits.value (d : Digits) : ℚ := d.digits * 10 ^ (d.point - digitCount d.digits)

lemma digitCount_mul_ten_pow {a : Nat} (ha : 0 < a) (t : Nat) :
    digitCount (a * 10 ^ t) = digitCount a + t := by
  rw [digitCount, toDigits_mul_ten_pow ha, List.length_append, List.length_replicate]
  rfl

lemma value_stripZeros {c : Nat} (hc : 0 < c) (x : Int) :
    0 < stripZeros 20 c ∧ (⟨stripZeros 20 c, digitCount c + x⟩ : Digits).value = c * 10 ^ x := by
  obtain ⟨t, ht⟩ := exists_stripZeros 20 c
  obtain ⟨a, ha⟩ : ∃ a, a = stripZeros 20 c := ⟨_, rfl⟩
  rw [← ha] at ht ⊢
  have hpos : 0 < a := by
    rcases Nat.eq_zero_or_pos a with rfl | hpos
    · omega
    · exact hpos
  refine ⟨hpos, ?_⟩
  have hpoint : ((digitCount c : Int) + x - digitCount a) = t + x := by
    rw [ht, digitCount_mul_ten_pow hpos]
    push_cast
    ring
  simp only [Digits.value]
  rw [hpoint, zpow_add₀ (by norm_num), ← mul_assoc, zpow_natCast, ht]
  push_cast
  rfl

lemma roundsTo_fewest (hm : Normal m e) : 0 < (interval m e).fewest.digits ∧
    RoundsTo (interval m e).fewest.value m e := by
  have hspans := Interval.spans_interval m e
  obtain ⟨c, x, hc, hfewest⟩ :=
    Interval.exists_fewest (p := 16) (by omega) (hspans.onGrid_finest hm)
  have hround := (hspans.holds_iff c x).mp (Interval.holds_of_onGrid hc)
  have hpos : 0 < c := by
    have hdecimal := hround.pos hm.pos
    rcases Nat.eq_zero_or_pos c with rfl | hpos
    · rw [Nat.cast_zero, zero_mul] at hdecimal
      exact absurd hdecimal (lt_irrefl 0)
    · exact hpos
  obtain ⟨hdigits, hvalue⟩ := value_stripZeros hpos x
  rw [hfewest, hvalue]
  exact ⟨hdigits, hround⟩

/-- **The shortest digits of a binary64 value** are a decimal that rounds to it. -/
theorem exists_shortest {num den M : Nat} {E : Int} (hnum : 0 < num) (hden : 0 < den)
    (hM : M < 2 ^ 53) (hE : -1074 ≤ E) (h : (num / den : ℚ) = M * 2 ^ E) :
    ∃ m e, Normal m e ∧ (m : ℚ) * 2 ^ e = num / den ∧ 0 < (shortest num den).digits ∧
      RoundsTo (shortest num den).value m e := by
  obtain ⟨m, e, hbinary, hm, hvalue⟩ := exists_binary hnum hden hM hE h
  obtain ⟨hdigits, hround⟩ := roundsTo_fewest hm
  rw [shortest, hbinary]
  exact ⟨m, e, hm, hvalue, hdigits, hround⟩

end Parley.Number
