import Parley.Json.Basic
import Parley.Json.Half

/-!
Writing JSON text, without blanks.
-/

namespace Parley.Json

private def hexChar (n : Nat) : Char :=
  if n < 10 then Char.ofNat ('0'.toNat + n) else Char.ofNat ('a'.toNat + n - 10)

/-- A code unit by its number. -/
def escapeUnit (n : Nat) : List Char :=
  ['\\', 'u', hexChar (n / 4096), hexChar (n / 256 % 16), hexChar (n / 16 % 16),
    hexChar (n % 16)]

/-- A character inside a quoted text. -/
def escapeChar (c : Char) : List Char :=
  if c = '"' then ['\\', '"']
  else if c = '\\' then ['\\', '\\']
  else if c.toNat < 0x20 then escapeUnit c.toNat
  else [c]

def escapeSymbol : Half.Symbol → List Char
  | .char c => escapeChar c
  | .half n => escapeUnit (Half.least + n)

def quote (s : String) : String :=
  "\"" ++ String.ofList ((Half.decode s).flatMap escapeSymbol) ++ "\""

mutual

/-- The text of a value; an infinity, which has no JSON text, is written as null. -/
def render : Json → String
  | null => "null"
  | bool b => if b then "true" else "false"
  | number (.infinite _) => "null"
  | number n => n.toText
  | string s => quote s
  | array items => "[" ++ ",".intercalate (renderItems items) ++ "]"
  | object members => "\x7b" ++ ",".intercalate (renderMembers members) ++ "\x7d"

def renderItems : List Json → List String
  | [] => []
  | item :: rest => render item :: renderItems rest

def renderMembers : List (String × Json) → List String
  | [] => []
  | (name, item) :: rest => (quote name ++ ":" ++ render item) :: renderMembers rest

end

end Parley.Json
