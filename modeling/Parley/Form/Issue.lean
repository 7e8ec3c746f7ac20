import Parley.Json.Basic
import Parley.Path

/-!
What can be wrong with the form of a document, and where. An issue is soft if the value is of
the right type and only its content is refused.
-/

namespace Parley.Form

/-- What a value should have been. -/
inductive Expected
  | string | array | object
  deriving DecidableEq

def Expected.name : Expected → String
  | string => "string"
  | array => "array"
  | object => "object"

/-- What has too small a size. -/
inductive Sized
  | characters | items | unknown
  deriving DecidableEq

/-- What is wrong with a value. -/
inductive Complaint
  | wrongType (expected : Expected) (received : String)
  | tooFew (what : Sized)
  | notDecimal
  | tooBig
  | tooSmall
  | wrongTag (allowed : List String)
  | noAlternative
  deriving DecidableEq

namespace Complaint

def code : Complaint → String
  | wrongType _ _ => "invalid_type"
  | tooFew _ => "too_small"
  | notDecimal => "invalid_format"
  | tooBig => "too_big"
  | tooSmall => "too_small"
  | wrongTag _ => "invalid_value"
  | noAlternative => "invalid_union"

def isSoft : Complaint → Bool
  | tooFew _ => true
  | notDecimal => true
  | tooBig => true
  | tooSmall => true
  | _ => false

private def quoted (tag : String) : String := "\"" ++ tag ++ "\""

def message : Complaint → String
  | wrongType expected received =>
    "Invalid input: expected " ++ expected.name ++ ", received " ++ received
  | tooFew .characters => "Too small: expected string to have >=1 characters"
  | tooFew .items => "Too small: expected array to have >=1 items"
  | tooFew .unknown => "Too small: expected unknown to be >=1"
  | notDecimal => "Expected a decimal integer string"
  | tooBig => "Too big: expected int to be <=9007199254740991"
  | tooSmall => "Too small: expected int to be >=-9007199254740991"
  | wrongTag [tag] => "Invalid input: expected " ++ quoted tag
  | wrongTag tags => "Invalid option: expected one of " ++ "|".intercalate (tags.map quoted)
  | noAlternative => "Invalid input"

end Complaint

/-- A complaint with its place. -/
structure Issue where
  path : Path
  complaint : Complaint
  deriving DecidableEq

/-- The same issue seen from one level up. -/
def Issue.under (s : Segment) (i : Issue) : Issue := { i with path := s :: i.path }

/-- The result of checking a value: what is kept of it, and what is wrong with it. An absent
value keeps nothing. A check is `broken` if it came upon a length that cannot be compared with
anything; it then has no result at all. -/
structure Verdict where
  data : Option Json
  issues : List Issue
  broken : Bool := false

namespace Verdict

def accept (j : Json) : Verdict := ⟨some j, [], false⟩

/-- Complaints about the value itself. -/
def refuse (cs : List Complaint) : Verdict := ⟨none, cs.map fun c => ⟨[], c⟩, false⟩

def under (s : Segment) (v : Verdict) : Verdict := { v with issues := v.issues.map (·.under s) }

def isClean (v : Verdict) : Bool := v.issues.isEmpty && !v.broken

def isSoft (v : Verdict) : Bool := v.issues.all (·.complaint.isSoft)

end Verdict

end Parley.Form
