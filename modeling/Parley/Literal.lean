import Parley.Atom
import Parley.Json.Parser
import Parley.Misuse

/-!
Integer literals: a number of the document, or a text. Blanks around a text do not count, an
empty one is zero, and `0x`, `0o`, `0b` announce a base, without a sign. A truth value counts as
one or zero, and a list or an object as its text.
-/

namespace Parley

/-- An integer literal as written. -/
abbrev Literal := Atom

namespace Literal

/-- Why a literal has no value. -/
inductive Error
  | notInteger (n : Number)
  | unreadable (s : String)
  | nothing (g : Gap)
  | noText
  deriving DecidableEq

/-- Blanks and line ends. -/
def isBlank (c : Char) : Bool :=
  let n := c.toNat
  (9 ≤ n && n ≤ 13) || n = 32 || n = 0xA0 || n = 0x1680 || (0x2000 ≤ n && n ≤ 0x200A) ||
    n = 0x2028 || n = 0x2029 || n = 0x202F || n = 0x205F || n = 0x3000 || n = 0xFEFF

def trim (cs : List Char) : List Char :=
  ((cs.dropWhile isBlank).reverse.dropWhile isBlank).reverse

/-- The value of a digit in a base. -/
def digit? (base : Nat) (c : Char) : Option Nat :=
  match Json.Parser.hexDigit? c with
  | some d => if d < base then some d else none
  | none => none

/-- The value of digits in a base, most significant first. -/
def digitsFrom (base : Nat) : Nat → List Char → Option Nat
  | n, [] => some n
  | n, c :: cs =>
    match digit? base c with
    | some d => digitsFrom base (n * base + d) cs
    | none => none

/-- One or more digits in a base. -/
def digits? (base : Nat) : List Char → Option Nat
  | [] => none
  | cs => digitsFrom base 0 cs

/-- An integer text without blanks around it. -/
def integer? : List Char → Option Int
  | [] => some 0
  | '-' :: cs => (digits? 10 cs).map fun n => -(n : Int)
  | '+' :: cs => (digits? 10 cs).map fun n => (n : Int)
  | '0' :: c :: cs =>
    if c = 'x' ∨ c = 'X' then (digits? 16 cs).map fun n => (n : Int)
    else if c = 'o' ∨ c = 'O' then (digits? 8 cs).map fun n => (n : Int)
    else if c = 'b' ∨ c = 'B' then (digits? 2 cs).map fun n => (n : Int)
    else (digits? 10 (c :: cs)).map fun n => (n : Int)
  | cs => (digits? 10 cs).map fun n => (n : Int)

/-- The value of a text. -/
def ofText (s : String) : Except Error Int :=
  match integer? (trim s.toList) with
  | some i => .ok i
  | none => .error (.unreadable s)

/-- The value of a literal. -/
def toInt : Literal → Except Error Int
  | .number n =>
    match n.toInt? with
    | some i => .ok i
    | none => .error (.notInteger n)
  | .text s => ofText s
  | .truth b => .ok (if b then 1 else 0)
  | .null => .error (.nothing .null)
  | .absent => .error (.nothing .absent)
  | .compound _ (some s) => ofText s
  | .compound _ none => .error .noText

/-- The wording of a literal without a value. -/
def Error.message : Error → String
  | notInteger n =>
    "The number " ++ n.toText ++ " cannot be converted to a BigInt because it is not an integer"
  | unreadable s => "Cannot convert " ++ s ++ " to a BigInt"
  | nothing g => "Cannot convert " ++ g.text ++ " to a BigInt"
  | noText => Misuse.noText.message

end Literal

end Parley
