import Parley.Number.Shortest

/-!
The text of a number: positional from `1e-6` up to below `1e21`, with an exponent outside.
-/

namespace Parley.Number

private def zeros (n : Nat) : String := String.ofList (List.replicate n '0')

private def exponentText (e : Int) : String :=
  if e < 0 then "e-" ++ toString e.natAbs else "e+" ++ toString e.natAbs

/-- Lays out shortest digits. -/
def Digits.toText (d : Digits) : String :=
  let ds := Nat.toDigits 10 d.digits
  let n : Int := ds.length
  if n ≤ d.point ∧ d.point ≤ 21 then String.ofList ds ++ zeros (d.point - n).toNat
  else if 0 < d.point ∧ d.point ≤ 21 then
    String.ofList (ds.take d.point.toNat) ++ "." ++ String.ofList (ds.drop d.point.toNat)
  else if -6 < d.point ∧ d.point ≤ 0 then
    "0." ++ zeros (-d.point).toNat ++ String.ofList ds
  else if ds.length = 1 then String.ofList ds ++ exponentText (d.point - 1)
  else
    String.ofList (ds.take 1) ++ "." ++ String.ofList (ds.drop 1) ++ exponentText (d.point - 1)

private def magnitudeText (num den : Nat) : String :=
  if num = 0 then "0" else (shortest num den).toText

/-- The text of a number. -/
def toText : Number → String
  | integer (.ofNat n) => magnitudeText n 1
  | integer (.negSucc n) => "-" ++ magnitudeText (n + 1) 1
  | fraction m k =>
    (if m < 0 then "-" else "") ++ magnitudeText m.natAbs (Nat.pow 2 (k + 1))
  | infinite false => "Infinity"
  | infinite true => "-Infinity"

end Parley.Number
