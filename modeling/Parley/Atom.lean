import Parley.Json.Basic
import Parley.Path

/-!
Atoms: what stands in a document where a name, a label or a literal belongs. In a valid program
that is a text or a number, but evaluation takes whatever is there. Atoms of different variants
are never the same, however alike they look in print.
-/

namespace Parley

/-- A value of a document that is not looked into. -/
inductive Atom
  | text (s : String)
  | number (n : Number)
  | truth (b : Bool)
  | null
  /-- There is nothing in its place. -/
  | absent
  /-- A list or an object. It is the same only as itself, so it is known by its place; `shown`
  is its text, if it has one. -/
  | compound (place : Place) (shown : Option String)
  deriving DecidableEq

namespace Atom

instance : Coe String Atom := ⟨text⟩

def display? : Atom → Option String
  | text s => some s
  | number n => some n.toText
  | truth b => some (if b then "true" else "false")
  | null => some "null"
  | absent => some "undefined"
  | compound _ shown => shown

/-- The text of an atom, where it has one. -/
def display (a : Atom) : String := a.display?.getD ""

def showable (a : Atom) : Bool := a.display?.isSome

@[simp] theorem display_text (s : String) : (text s).display = s := rfl

@[simp] theorem showable_text (s : String) : (text s).showable = true := rfl

/-- What a document holds at a place. -/
def ofJson (place : Place) : Option Json → Atom
  | none => absent
  | some .null => null
  | some (.bool b) => truth b
  | some (.number n) => number n
  | some (.string s) => text s
  | some j => compound place j.display?

/-- The member of an object at a place. -/
def ofMember (place : Place) (members : List (String × Json)) (name : String) : Atom :=
  ofJson (.key name :: place) (Table.find? members name)

end Atom

end Parley
