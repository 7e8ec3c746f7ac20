import Parley.Number.Text
import Parley.Table

/-!
Documents: the values that JSON text stands for, and how they read as plain text.
-/

namespace Parley

/-- A JSON value. The members of an object are a table. -/
inductive Json
  | null
  | bool (b : Bool)
  | number (n : Number)
  | string (s : String)
  | array (items : List Json)
  | object (members : List (String × Json))

namespace Json

/-- The member of an object under a name. -/
def get? : Json → String → Option Json
  | object members, name => Table.find? members name
  | _, _ => none

def asString? : Json → Option String
  | string s => some s
  | _ => none

/-- The member that stands for the text of an object. A document can hold it but never tell what
the text is. -/
def textMember : String := "toString"

mutual

/-- A value as plain text: lists show their items between commas, and objects show nothing of
their members. An object that claims a text of its own has none, and neither has a list with
such an object in it. -/
def display? : Json → Option String
  | null => some "null"
  | bool b => some (if b then "true" else "false")
  | number n => some n.toText
  | string s => some s
  | array items => (displayItems? items).map fun ss => ",".intercalate ss
  | object members =>
    match Table.find? members textMember with
    | some _ => none
    | none => some "[object Object]"

/-- The items of a list as plain text; a null shows as nothing. -/
def displayItems? : List Json → Option (List String)
  | [] => some []
  | null :: rest => (displayItems? rest).map ("" :: ·)
  | item :: rest =>
    match display? item, displayItems? rest with
    | some s, some ss => some (s :: ss)
    | _, _ => none

end

end Json

end Parley
