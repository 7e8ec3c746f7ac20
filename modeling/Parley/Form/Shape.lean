import Parley.Json.Basic

/-!
The shapes of program documents. Expressions and declarations are told apart by their tag, the
member `kind`.
-/

namespace Parley.Form

/-- What a value may look like. -/
inductive Shape
  /-- A text that is not empty. -/
  | name
  /-- An integer literal. -/
  | integer
  /-- Anything, or nothing. -/
  | anything
  | expr
  | branch
  | branches
  | param
  | params
  | declaration
  | declarations
  | program
  deriving DecidableEq

/-- The shape of an object: a tag among `tags`, if there are any, and these members. -/
structure Layout where
  tags : List String
  fields : List (String × Shape)

/-- The layouts of expressions, by tag. -/
def exprLayouts : List Layout :=
  [ ⟨["unit"], []⟩,
    ⟨["var"], [("name", .name)]⟩,
    ⟨["label"], [("name", .name)]⟩,
    ⟨["int"], [("value", .integer)]⟩,
    ⟨["nat"], [("value", .integer)]⟩,
    ⟨["plus", "minus", "times", "div"], [("left", .expr), ("right", .expr)]⟩,
    ⟨["negate"], [("expr", .expr)]⟩,
    ⟨["succ"], [("expr", .expr)]⟩,
    ⟨["let"], [("name", .name), ("value", .expr), ("body", .expr)]⟩,
    ⟨["letPair"], [("first", .name), ("second", .name), ("value", .expr), ("body", .expr)]⟩,
    ⟨["pair"],
      [("name", .name), ("first", .expr), ("second", .expr), ("multiplicity", .anything)]⟩,
    ⟨["fst"], [("expr", .expr)]⟩,
    ⟨["snd"], [("expr", .expr)]⟩,
    ⟨["lambda"],
      [("param", .name), ("body", .expr), ("multiplicity", .anything),
        ("paramType", .anything)]⟩,
    ⟨["app"], [("fn", .expr), ("arg", .expr)]⟩,
    ⟨["fork"], [("expr", .expr)]⟩,
    ⟨["new"], [("sessionType", .anything)]⟩,
    ⟨["send"], [("channel", .expr)]⟩,
    ⟨["recv"], [("channel", .expr)]⟩,
    ⟨["case"], [("scrutinee", .expr), ("branches", .branches)]⟩,
    ⟨["natRec"],
      [("index", .expr), ("zero", .expr), ("counter", .name), ("acc", .name), ("step", .expr),
        ("counterType", .anything), ("accType", .anything)]⟩ ]

/-- The layouts of declarations, by tag. -/
def declarationLayouts : List Layout :=
  [ ⟨["fun"],
      [("name", .name), ("params", .params), ("body", .expr), ("resultType", .anything)]⟩,
    ⟨["type"], [("name", .name), ("definition", .anything)]⟩ ]

namespace Shape

/-- The layouts that an object of a shape may have, in the order in which they are tried. -/
def layouts : Shape → List Layout
  | expr => exprLayouts
  | declaration => declarationLayouts
  | branch => [⟨[], [("label", .name), ("body", .expr)]⟩]
  | param => [⟨[], [("name", .name), ("multiplicity", .anything), ("type", .anything)]⟩]
  | program => [⟨[], [("declarations", .declarations)]⟩]
  | _ => []

/-- The shape of the items, for a list. -/
def item? : Shape → Option Shape
  | branches => some branch
  | params => some param
  | declarations => some declaration
  | _ => none

/-- There is a choice between several layouts. -/
def isChoice : Shape → Bool
  | expr => true
  | declaration => true
  | _ => false

end Shape

/-- The members that layouts speak of, each with every shape that one of them gives it. -/
def fieldsOf (ls : List Layout) : List (String × Shape) := (ls.flatMap (·.fields)).eraseDups

def exprFields : List (String × Shape) := fieldsOf exprLayouts

/-- The members that the layouts of a shape speak of. -/
def Shape.fields : Shape → List (String × Shape)
  | expr => exprFields
  | s => fieldsOf s.layouts

/-- The tag of an object. -/
def tag? (members : List (String × Json)) : Option String :=
  match Table.find? members "kind" with
  | some (.string tag) => some tag
  | _ => none

/-- The layout with a tag. -/
def layout? (ls : List Layout) (tag : String) : Option Layout :=
  ls.find? fun l => l.tags.contains tag

end Parley.Form
