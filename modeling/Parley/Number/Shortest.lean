import Parley.Number.Basic

/-!
The fewest decimal digits that read back as the same binary64 value: of the decimals with that
many digits in the rounding interval, the nearest, ties to even.
-/

namespace Parley.Number

/-- A decimal `0.d₁d₂… * 10 ^ point`, given by its digits as one number. -/
structure Digits where
  digits : Nat
  point : Int

/-- The reals between `low / unit` and `high / unit` round to `mid / unit`; the ends do if
`closed`. -/
structure Interval where
  low : Nat
  mid : Nat
  high : Nat
  unit : Nat
  closed : Bool

/-- The rounding interval of the binary64 value `m * 2 ^ e`. Below a power of two the values
lie twice as close. -/
def interval (m : Nat) (e : Int) : Interval :=
  let low := if m = Nat.pow 2 52 ∧ -1074 < e then 4 * m - 1 else 4 * m - 2
  match e with
  | .ofNat e =>
    let u := Nat.pow 2 e
    ⟨low * u, 4 * m * u, (4 * m + 2) * u, 4, m % 2 = 0⟩
  | .negSucc e => ⟨low, 4 * m, 4 * m + 2, 4 * Nat.pow 2 (e + 1), m % 2 = 0⟩

namespace Interval

/-- The decimal `c * 10 ^ x` lies in the interval. -/
def holds (i : Interval) (c : Nat) (x : Int) : Bool :=
  let (c, u) := match x with
    | .ofNat x => (c * Nat.pow 10 x * i.unit, 1)
    | .negSucc x => (c * i.unit, Nat.pow 10 (x + 1))
  if i.closed then i.low * u ≤ c ∧ c ≤ i.high * u else i.low * u < c ∧ c < i.high * u

/-- The middle of the interval divided by `10 ^ x`, as numerator and denominator. -/
def quotient (i : Interval) : Int → Nat × Nat
  | .ofNat x => (i.mid, i.unit * Nat.pow 10 x)
  | .negSucc x => (i.mid * Nat.pow 10 (x + 1), i.unit)

/-- The decimal exponent of the middle: `10 ^ x ≤ mid < 10 ^ (x + 1)`. -/
def magnitude (i : Interval) : Int :=
  if i.unit ≤ i.mid then (digitCount (i.mid / i.unit) : Int) - 1
  else
    match (List.range 400).find? fun k => i.unit ≤ i.mid * Nat.pow 10 k with
    | some k => -k
    | none => -400

/-- The decimal on the grid `10 ^ x` nearest to the middle, if one lies in the interval. -/
def onGrid (i : Interval) (x : Int) : Option Nat :=
  let r := i.quotient x
  let q := r.1 / r.2
  let near := roundDiv r.1 r.2
  let far := if near = q then q + 1 else q
  if i.holds near x then some near else if i.holds far x then some far else none

end Interval

/-- Drops trailing zeros of a digit string. -/
def stripZeros : Nat → Nat → Nat
  | 0, n => n
  | fuel + 1, n => if n ≠ 0 ∧ n % 10 = 0 then stripZeros fuel (n / 10) else n

/-- The fewest digits of a decimal in the interval: the coarsest grid that has one is taken. -/
def Interval.fewest (i : Interval) : Digits :=
  let x := i.magnitude
  let grids := (List.range 17).map fun (p : Nat) => x - p
  match grids.findSome? fun g => (i.onGrid g).map fun c => (c, g) with
  | some (c, g) => ⟨stripZeros 20 c, digitCount c + g⟩
  | none => ⟨0, 0⟩

/-- The shortest digits of the positive value `num / den`. -/
def shortest (num den : Nat) : Digits :=
  let b := binary num den
  (interval b.1 b.2).fewest

end Parley.Number
