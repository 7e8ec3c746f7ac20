/-!
Misuse: a document does not hold what evaluation takes for granted. None of this can happen in a
valid program.
-/

namespace Parley

/-- Nothing where something should be. -/
inductive Gap
  | null
  | absent
  deriving DecidableEq

def Gap.text : Gap → String
  | null => "null"
  | absent => "undefined"

/-- How something is used as what it is not. -/
inductive Misuse
  /-- A member of nothing. -/
  | noMember (g : Gap) (member : String)
  | notCallable (what : String)
  | notIterable (what : String)
  /-- Something without a text was to be written. -/
  | noText
  deriving DecidableEq

def Misuse.message : Misuse → String
  | noMember g member =>
    "Cannot read properties of " ++ g.text ++ " (reading '" ++ member ++ "')"
  | notCallable what => what ++ " is not a function"
  | notIterable what => what ++ " is not iterable"
  | noText => "Cannot convert object to primitive value"

end Parley
