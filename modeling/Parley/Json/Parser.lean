import Parley.Json.Basic
import Parley.Json.Half

/-!
Reading JSON text. The reader is strict: blanks are space, tab, line feed and carriage return,
nothing may follow the value, and of two members with one name the later counts.
-/

namespace Parley.Json

namespace Parser

/-- A reader takes a value off the front of a text, or refuses. -/
abbrev Reader (α : Type) := List Char → Option (α × List Char)

def isBlank (c : Char) : Bool := c = ' ' || c = '\t' || c = '\n' || c = '\r'

def skipBlanks (cs : List Char) : List Char := cs.dropWhile isBlank

/-- Takes a fixed word off the front. -/
def word : List Char → List Char → Option (List Char)
  | [], cs => some cs
  | w :: ws, c :: cs => if w = c then word ws cs else none
  | _ :: _, [] => none

/-! ### Strings -/

def hexDigit? (c : Char) : Option Nat :=
  if '0' ≤ c ∧ c ≤ '9' then some (c.toNat - '0'.toNat)
  else if 'a' ≤ c ∧ c ≤ 'f' then some (c.toNat - 'a'.toNat + 10)
  else if 'A' ≤ c ∧ c ≤ 'F' then some (c.toNat - 'A'.toNat + 10)
  else none

def hex4 : Reader Nat
  | a :: b :: c :: d :: rest => do
    let a ← hexDigit? a
    let b ← hexDigit? b
    let c ← hexDigit? c
    let d ← hexDigit? d
    some (((a * 16 + b) * 16 + c) * 16 + d, rest)
  | _ => none

/-- The symbol of a code unit, joined with the unit that follows if the two are a pair. -/
def fromUnit (unit : Nat) (rest : List Char) : Half.Symbol × List Char :=
  if 0xD800 ≤ unit ∧ unit < 0xDC00 then
    match rest with
    | '\\' :: 'u' :: more =>
      match hex4 more with
      | some (low, after) =>
        if 0xDC00 ≤ low ∧ low < 0xE000 then
          (.char (Char.ofNat (0x10000 + (unit - 0xD800) * 0x400 + (low - 0xDC00))), after)
        else (.ofUnit unit, rest)
      | none => (.ofUnit unit, rest)
    | _ => (.ofUnit unit, rest)
  else (.ofUnit unit, rest)

/-- The character that a backslash and this character stand for. -/
def escape? : Char → Option Char
  | '"' => some '"'
  | '\\' => some '\\'
  | '/' => some '/'
  | 'b' => some (Char.ofNat 8)
  | 'f' => some (Char.ofNat 12)
  | 'n' => some '\n'
  | 'r' => some '\r'
  | 't' => some '\t'
  | _ => none

/-- The rest of a string after its opening quote; `done` holds what was read, backwards. -/
def stringRest : Nat → List Half.Symbol → Reader String
  | 0, _, _ => none
  | _ + 1, _, [] => none
  | _ + 1, done, '"' :: rest => some (Half.encode done.reverse, rest)
  | fuel + 1, done, '\\' :: 'u' :: rest =>
    match hex4 rest with
    | none => none
    | some (unit, rest) =>
      let (symbol, rest) := fromUnit unit rest
      stringRest fuel (symbol :: done) rest
  | fuel + 1, done, '\\' :: c :: rest =>
    match escape? c with
    | none => none
    | some c => stringRest fuel (.char c :: done) rest
  | fuel + 1, done, c :: rest =>
    if c.toNat < 0x20 ∨ c = '\\' then none else stringRest fuel (.char c :: done) rest

/-! ### Numbers -/

def isDigit (c : Char) : Bool := '0' ≤ c && c ≤ '9'

def digitsValue (ds : List Char) : Nat :=
  ds.foldl (fun n d => n * 10 + (d.toNat - '0'.toNat)) 0

/-- One or more digits. -/
def digits1 (cs : List Char) : Option (List Char × List Char) :=
  match cs.span isDigit with
  | ([], _) => none
  | taken => some taken

/-- The digits before the point: no zero in front. -/
def whole : List Char → Option (List Char × List Char)
  | '0' :: rest => some (['0'], rest)
  | cs => digits1 cs

def fractionPart : List Char → Option (List Char × List Char)
  | '.' :: rest => digits1 rest
  | cs => some ([], cs)

def exponentDigits (negative : Bool) (cs : List Char) : Option (Int × List Char) :=
  (digits1 cs).map fun (ds, rest) =>
    (if negative then -(digitsValue ds : Int) else digitsValue ds, rest)

def exponentPart : List Char → Option (Int × List Char)
  | c :: rest =>
    if c = 'e' ∨ c = 'E' then
      match rest with
      | '+' :: rest => exponentDigits false rest
      | '-' :: rest => exponentDigits true rest
      | rest => exponentDigits false rest
    else some (0, c :: rest)
  | [] => some (0, [])

/-- A number without its sign. -/
def unsigned (negative : Bool) : Reader Number := fun cs => do
  let (ws, cs) ← whole cs
  let (fs, cs) ← fractionPart cs
  let (e, cs) ← exponentPart cs
  some (.ofDecimal negative (digitsValue (ws ++ fs)) (e - fs.length), cs)

def number : Reader Number
  | '-' :: cs => unsigned true cs
  | cs => unsigned false cs

/-! ### Values -/

mutual

/-- One value, without blanks around it. -/
def value : Nat → Reader Json
  | 0, _ => none
  | fuel + 1, cs =>
    match cs with
    | '"' :: rest => (stringRest fuel [] rest).map fun (s, rest) => (.string s, rest)
    | '[' :: rest =>
      match skipBlanks rest with
      | ']' :: rest => some (.array [], rest)
      | rest => (items fuel rest).map fun (more, rest) => (.array more, rest)
    | '\x7b' :: rest =>
      match skipBlanks rest with
      | '\x7d' :: rest => some (.object [], rest)
      | rest => (members fuel rest).map fun (ms, rest) => (.object (Table.ofEntries ms), rest)
    | 't' :: rest => (word ['r', 'u', 'e'] rest).map fun rest => (.bool true, rest)
    | 'f' :: rest => (word ['a', 'l', 's', 'e'] rest).map fun rest => (.bool false, rest)
    | 'n' :: rest => (word ['u', 'l', 'l'] rest).map fun rest => (.null, rest)
    | cs => (number cs).map fun (n, rest) => (.number n, rest)

/-- The items of an array up to its closing bracket, at least one. -/
def items : Nat → Reader (List Json)
  | 0, _ => none
  | fuel + 1, cs =>
    match value fuel (skipBlanks cs) with
    | none => none
    | some (j, rest) =>
      match skipBlanks rest with
      | ',' :: rest => (items fuel rest).map fun (more, rest) => (j :: more, rest)
      | ']' :: rest => some ([j], rest)
      | _ => none

/-- The members of an object up to its closing brace, at least one. -/
def members : Nat → Reader (List (String × Json))
  | 0, _ => none
  | fuel + 1, cs =>
    match skipBlanks cs with
    | '"' :: rest =>
      match stringRest fuel [] rest with
      | none => none
      | some (name, rest) =>
        match skipBlanks rest with
        | ':' :: rest =>
          match value fuel (skipBlanks rest) with
          | none => none
          | some (j, rest) =>
            match skipBlanks rest with
            | ',' :: rest => (members fuel rest).map fun (ms, rest) => ((name, j) :: ms, rest)
            | '\x7d' :: rest => some ([(name, j)], rest)
            | _ => none
        | _ => none
    | _ => none

end

end Parser

/-- The value of a JSON text, if it is one. Of any two calls in a row at least one takes a
character, so twice the length of the text bounds the recursion. -/
def parse? (text : String) : Option Json :=
  let cs := text.toList
  match Parser.value (2 * cs.length + 1) (Parser.skipBlanks cs) with
  | none => none
  | some (j, rest) => if (Parser.skipBlanks rest).isEmpty then some j else none

end Parley.Json
