import Parley.Form.Issue
import Parley.Form.Shape
import Parley.Literal

/-!
Checking documents against shapes. Every member that a layout names is checked, in the order
of the layout, and members it does not name are dropped. Where there is a choice of layouts they
are tried in order up to the first that has nothing to complain about. What is found out about a
member is shared between the layouts, so that a document is walked only once.
-/

namespace Parley.Form

/-! ### Sizes and literals -/

/-- The type of a value, for complaints. -/
def typeName : Option Json → String
  | none => "undefined"
  | some .null => "null"
  | some (.bool _) => "boolean"
  | some (.number (.infinite false)) => "Infinity"
  | some (.number (.infinite true)) => "-Infinity"
  | some (.number _) => "number"
  | some (.string _) => "string"
  | some (.array _) => "array"
  | some (.object _) => "object"

/-- Digits with an optional point and exponent. -/
def decimal? (negative : Bool) (cs : List Char) : Option Number :=
  let (ws, rest) := cs.span Json.Parser.isDigit
  let (fs, rest) := match rest with
    | '.' :: rest => rest.span Json.Parser.isDigit
    | rest => ([], rest)
  if ws.isEmpty && fs.isEmpty then none
  else
    match Json.Parser.exponentPart rest with
    | some (e, []) =>
      some (.ofDecimal negative (Json.Parser.digitsValue (ws ++ fs)) (e - fs.length))
    | _ => none

/-- A text taken as a number: as an integer literal or as a decimal. -/
def numeral? (s : String) : Option Number :=
  let cs := Literal.trim s.toList
  match Literal.integer? cs with
  | some n => some (.nearest (n < 0) n.natAbs 1)
  | none =>
    match cs with
    | '-' :: cs => if cs = "Infinity".toList then some (.infinite true) else decimal? true cs
    | '+' :: cs => if cs = "Infinity".toList then some (.infinite false) else decimal? false cs
    | cs => if cs = "Infinity".toList then some (.infinite false) else decimal? false cs

/-- A value taken as a number, if it can be taken as anything; a text that is no numeral counts
as no number. -/
def numeric? : Json → Option (Option Number)
  | .null => some (some (.integer 0))
  | .bool b => some (some (.integer (if b then 1 else 0)))
  | .number n => some (some n)
  | j => j.display?.map numeral?

/-- How a length compares with one. -/
inductive Length
  | enough
  | tooShort
  | incomparable
  deriving DecidableEq

/-- The length that an object declares. -/
def Length.ofJson (j : Json) : Length :=
  match numeric? j with
  | some (some n) => if n.below 1 then .tooShort else .enough
  | some none => .tooShort
  | none => .incomparable

/-- The length of a value, if it has one. -/
def length? : Json → Option Length
  | .string s => some (if s.isEmpty then .tooShort else .enough)
  | .array items => some (if items.isEmpty then .tooShort else .enough)
  | .object members => (Table.find? members "length").map Length.ofJson
  | _ => none

/-- What the length of a value counts. -/
def sized : Json → Sized
  | .string _ => .characters
  | .array _ => .items
  | _ => .unknown

/-- A name. It must not be empty, and neither must anything else that has a length. -/
def checkName (j : Json) : Verdict :=
  let tooFew := if length? j = some .tooShort then [Complaint.tooFew (sized j)] else []
  match j with
  | .string s => if s.isEmpty then .refuse tooFew else .accept (.string s)
  | j => { Verdict.refuse (.wrongType .string (typeName (some j)) :: tooFew) with
      broken := length? j = some .incomparable }

/-- An optional minus and digits. -/
def isDecimal (cs : List Char) : Bool :=
  match cs with
  | '-' :: ds => !ds.isEmpty && ds.all Json.Parser.isDigit
  | ds => !ds.isEmpty && ds.all Json.Parser.isDigit

/-- The largest integer that a number may be, and its opposite the least. -/
def largest : Int := 9007199254740991

/-- An integer literal. -/
def checkInteger : Json → Verdict
  | .number (.integer n) =>
    if largest < n then .refuse [.tooBig]
    else if n < -largest then .refuse [.tooSmall]
    else .accept (.number (.integer n))
  | .string s => if isDecimal s.toList then .accept (.string s) else .refuse [.notDecimal]
  | _ => .refuse [.noAlternative]

/-! ### Objects -/

/-- The tag of an object against those allowed. -/
def checkTag (tags : List String) (members : List (String × Json)) : Verdict :=
  match tag? members with
  | some tag => if tags.contains tag then .accept (.string tag) else .refuse [.wrongTag tags]
  | none => .refuse [.wrongTag tags]

/-- The verdict of a shape on a value of another type, or on one that is not there. -/
def Shape.mismatch (s : Shape) (j : Option Json) : Verdict :=
  match s with
  | name => .refuse [.wrongType .string (typeName j)]
  | anything => ⟨j, [], false⟩
  | integer | expr | declaration => .refuse [.noAlternative]
  | branches | params | declarations => .refuse [.wrongType .array (typeName j)]
  | branch | param | program => .refuse [.wrongType .object (typeName j)]

/-- The verdict of a shape on a value that is not looked into. -/
def Shape.leafVerdict (s : Shape) (j : Json) : Verdict :=
  match s with
  | name => checkName j
  | integer => checkInteger j
  | s => s.mismatch (some j)

/-- The verdict on a member, with its name in front of every path. -/
def memberVerdict (checked : Table (String × Shape) Verdict) (f : String × Shape) :
    String × Verdict :=
  (f.1, ((Table.find? checked f).getD (f.2.mismatch none)).under (.key f.1))

/-- Puts the verdicts on members together. -/
def gather (vs : List (String × Verdict)) : Verdict where
  data := some (.object (vs.filterMap fun v => v.2.data.map fun d => (v.1, d)))
  issues := vs.flatMap (·.2.issues)
  broken := vs.any (·.2.broken)

/-- The verdict of a layout on an object, from those on its members. -/
def Layout.verdict (l : Layout) (members : List (String × Json))
    (checked : Table (String × Shape) Verdict) : Verdict :=
  let tag := if l.tags.isEmpty then []
    else [("kind", (checkTag l.tags members).under (.key "kind"))]
  gather (tag ++ l.fields.map (memberVerdict checked))

/-- The verdict of a choice, from those of its layouts in order: the first clean one, or else the
only soft one. Layouts behind the first clean one are not tried. -/
def choose (vs : List Verdict) : Verdict :=
  match vs.find? Verdict.isClean with
  | some v => { v with broken := (vs.takeWhile fun v => !v.isClean).any (·.broken) }
  | none =>
    match vs.filter Verdict.isSoft with
    | [v] => { v with broken := vs.any (·.broken) }
    | _ => { Verdict.refuse [.noAlternative] with broken := vs.any (·.broken) }

/-- The verdict of a shape on an object, from those on its members. -/
def Shape.objectVerdict (s : Shape) (members : List (String × Json))
    (checked : Table (String × Shape) Verdict) : Verdict :=
  match s.layouts with
  | [] => s.leafVerdict (.object members)
  | l :: ls =>
    if s.isChoice then choose ((l :: ls).map fun l => l.verdict members checked)
    else l.verdict members checked

/-! ### Arrays -/

/-- Puts the verdicts on items together, from the place `n` on. -/
def gatherItems (n : Nat) : List Verdict → List Issue
  | [] => []
  | v :: vs => (v.under (.index n)).issues ++ gatherItems (n + 1) vs

/-- The verdict of a shape on an array, from those on its items. -/
def Shape.arrayVerdict (s : Shape) (items : List Json) (checked : List Verdict) : Verdict :=
  match s.item? with
  | some _ => ⟨some (.array (checked.filterMap (·.data))), gatherItems 0 checked,
      checked.any (·.broken)⟩
  | none => s.leafVerdict (.array items)

/-! ### Documents -/

mutual

/-- Checks a document against a shape. -/
def check (s : Shape) : Json → Verdict
  | .object members => s.objectVerdict members (checkMembers s.fields members)
  | .array items => s.arrayVerdict items (checkItems s.item? items)
  | j => s.leafVerdict j

/-- Checks the items of an array against a shape, if there is one to check them against. -/
def checkItems (s : Option Shape) : List Json → List Verdict
  | [] => []
  | j :: rest =>
    match s with
    | some t => check t j :: checkItems s rest
    | none => []

/-- Checks each member against every shape that the fields have for it. -/
def checkMembers (fields : List (String × Shape)) :
    List (String × Json) → Table (String × Shape) Verdict
  | [] => []
  | (name, j) :: rest =>
    (fields.filter (·.1 = name)).map (fun f => (f, check f.2 j)) ++ checkMembers fields rest

end

/-- Checks a document that may be absent. -/
def check? (s : Shape) : Option Json → Verdict
  | some j => check s j
  | none => s.mismatch none

/-- Checks a document that may be absent against one layout. -/
def Layout.check? (l : Layout) : Option Json → Verdict
  | some (.object members) => l.verdict members (checkMembers (fieldsOf [l]) members)
  | j => .refuse [.wrongType .object (typeName j)]

end Parley.Form
