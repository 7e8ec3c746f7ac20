/-!
Binary64 numbers, held exactly: an integer, a dyadic fraction in lowest terms, or an infinity.
A decimal is read by rounding to the nearest binary64 value, ties to even.
-/

namespace Parley

/-- A number of a document; `fraction m k` stands for `m / 2 ^ (k + 1)`, with `m` odd. -/
inductive Number
  | integer (n : Int)
  | fraction (m : Int) (k : Nat)
  | infinite (negative : Bool)
  deriving DecidableEq

namespace Number

/-- Below the natural number `n`. -/
def below (x : Number) (n : Nat) : Bool :=
  match x with
  | integer i => i < n
  | fraction m k => m < (n * Nat.pow 2 (k + 1) : Nat)
  | infinite negative => negative

/-- The natural number `n` is a whole multiple of the number. -/
def divides (x : Number) (n : Nat) : Bool :=
  match x with
  | integer i => (n : Int) % i = 0
  | fraction m k => ((n * Nat.pow 2 (k + 1) : Nat) : Int) % m = 0
  | infinite _ => n = 0

/-- The larger of the number and `n`. -/
def atLeast (x : Number) (n : Nat) : Number :=
  if x.below n then integer n else x

/-- The integer, if the number is one. -/
def toInt? : Number → Option Int
  | integer n => some n
  | _ => none

/-! ### Rounding -/

/-- `num / den` to the nearest integer, ties to even. -/
def roundDiv (num den : Nat) : Nat :=
  let q := num / den
  let r := num % den
  if 2 * r < den then q else if den < 2 * r then q + 1 else q + q % 2

/-- The quotient `num / (den * 2 ^ e)`, as a numerator and a denominator. -/
def scale (num den : Nat) : Int → Nat × Nat
  | .ofNat e => (num, den * Nat.pow 2 e)
  | .negSucc e => (num * Nat.pow 2 (e + 1), den)

/-- The exponent at which the positive value `num / den` has 53 binary digits, and no less than
the least exponent there is. -/
def exponentOf (num den : Nat) : Int :=
  let e : Int := (num.log2 : Int) - den.log2 - 53
  let q := scale num den e
  max (if q.2 * Nat.pow 2 53 ≤ q.1 then e + 1 else e) (-1074)

/-- The significand and exponent of the binary64 value nearest to the positive `num / den`. -/
def binary (num den : Nat) : Nat × Int :=
  let e := exponentOf num den
  let q := scale num den e
  (roundDiv q.1 q.2, e)

/-- Strips common twos from `m / 2 ^ k`. -/
def lowest : Nat → Nat → Nat × Nat
  | m, 0 => (m, 0)
  | m, k + 1 => if m % 2 = 0 then lowest (m / 2) k else (m, k + 1)

private def signed (negative : Bool) (n : Nat) : Int := if negative then -n else n

/-- The value `m * 2 ^ e` with a sign; one of more than 1024 binary digits is out of range. -/
def ofBinary (negative : Bool) (m : Nat) : Int → Number
  | .ofNat e =>
    let n := m * Nat.pow 2 e
    if 1024 ≤ n.log2 then infinite negative else integer (signed negative n)
  | .negSucc e =>
    match lowest m (e + 1) with
    | (n, 0) => integer (signed negative n)
    | (n, k + 1) => fraction (signed negative n) k

/-- The nearest number to `num / den` with a sign. -/
def nearest (negative : Bool) (num den : Nat) : Number :=
  if num = 0 then integer 0
  else
    let b := binary num den
    ofBinary negative b.1 b.2

/-- The number of decimal digits. -/
def digitCount (n : Nat) : Nat := (Nat.toDigits 10 n).length

/-- The number nearest to `digits * 10 ^ e` with a sign. Exponents far out of range are decided
without computing the power. -/
def ofDecimal (negative : Bool) (digits : Nat) (e : Int) : Number :=
  if digits = 0 then integer 0
  else if 310 < e + digitCount digits then infinite negative
  else if e + digitCount digits < -330 then integer 0
  else
    match e with
    | .ofNat e => nearest negative (digits * Nat.pow 10 e) 1
    | .negSucc e => nearest negative digits (Nat.pow 10 (e + 1))

end Number

end Parley
