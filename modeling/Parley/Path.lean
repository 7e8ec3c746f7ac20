/-!
Places in documents.
-/

namespace Parley

/-- One step into a document. -/
inductive Segment
  | key (name : String)
  | index (n : Nat)
  deriving DecidableEq

def Segment.text : Segment → String
  | key name => name
  | index n => toString n

/-- The steps from a document to a place in it. -/
abbrev Path := List Segment

/-- The text of a place; the whole document is `$`. -/
def Path.text (p : Path) : String :=
  if p.isEmpty then "$" else ".".intercalate (p.map Segment.text)

/-- The steps from a place back to the whole, innermost first. -/
abbrev Place := List Segment

end Parley
