import Parley.Value

/-!
Faults: what can go wrong, under which code it is reported, and in which words.
-/

namespace Parley

/-- Something wrong with a document, and where. -/
structure Problem where
  path : String
  message : String
  deriving DecidableEq

/-- The codes that faults of the calculus are reported under. -/
inductive Code
  | unboundVariable | typeMismatch | noMatchingCase | divisionByZero | negativeRecursionIndex
  | stepLimitExceeded | noMainDeclaration | deadlock | validationError
  deriving DecidableEq

namespace Code

def name : Code → String
  | unboundVariable => "UnboundVariable"
  | typeMismatch => "TypeMismatch"
  | noMatchingCase => "NoMatchingCase"
  | divisionByZero => "DivisionByZero"
  | negativeRecursionIndex => "NegativeRecursionIndex"
  | stepLimitExceeded => "StepLimitExceeded"
  | noMainDeclaration => "NoMainDeclaration"
  | deadlock => "Deadlock"
  | validationError => "ValidationError"

def all : List Code :=
  [unboundVariable, typeMismatch, noMatchingCase, divisionByZero, negativeRecursionIndex,
    stepLimitExceeded, noMainDeclaration, deadlock, validationError]

end Code

/-- What can go wrong. -/
inductive Fault
  | unboundVariable (name : Atom)
  | typeMismatch (expected : Atom) (got : Value) (context : Atom)
  | noMatchingCase (label : Atom) (available : List Atom)
  | divisionByZero
  | negativeRecursionIndex (index : Int)
  | stepLimitExceeded (limit : Atom)
  | noMainDeclaration
  /-- The main process is suspended and nothing is left that could resume it. -/
  | deadlock
  | invalid (problems : List Problem)
  /-- A literal without a value. -/
  | literal (e : Literal.Error)
  /-- An expression of an unknown kind. -/
  | unexpected (shown : Atom)
  | misuse (m : Misuse)
  | notRunning (task : Atom)
  | noResult (task : Atom)
  /-- A fault of the calculus raised from outside. -/
  | raised (code : Atom) (message : String)
  /-- A fault without a code raised from outside. -/
  | failure (message : String)

/-- How a fault is classed. -/
inductive Fault.Category
  | coded (code : Atom)
  | plain
  | badText
  | badRange
  | badType

namespace Fault

def category : Fault → Category
  | unboundVariable _ => .coded Code.unboundVariable.name
  | typeMismatch _ _ _ => .coded Code.typeMismatch.name
  | noMatchingCase _ _ => .coded Code.noMatchingCase.name
  | divisionByZero => .coded Code.divisionByZero.name
  | negativeRecursionIndex _ => .coded Code.negativeRecursionIndex.name
  | stepLimitExceeded _ => .coded Code.stepLimitExceeded.name
  | noMainDeclaration => .coded Code.noMainDeclaration.name
  | deadlock => .coded Code.deadlock.name
  | invalid _ => .coded Code.validationError.name
  | raised code _ => .coded code
  | literal (.unreadable _) => .badText
  | literal (.notInteger _) => .badRange
  | literal (.nothing _) => .badType
  | literal .noText => .badType
  | misuse _ => .badType
  | unexpected _ => .plain
  | notRunning _ => .plain
  | noResult _ => .plain
  | failure _ => .plain

/-- The wording of a fault. -/
def message : Fault → String
  | unboundVariable name => "Unbound variable: " ++ name.display
  | typeMismatch expected got context =>
    "Type mismatch (" ++ context.display ++ "): expected " ++ expected.display ++ ", got " ++
      got.kind.name ++ " " ++ got.render
  | noMatchingCase label available =>
    "No case for label '" ++ label.display ++ " (branches: " ++
      (if available.isEmpty then "none"
      else ", ".intercalate (available.map fun l => "'" ++ l.display)) ++ ")"
  | divisionByZero => "Division by zero"
  | negativeRecursionIndex index =>
    "Recursion index must be a natural number, got " ++ toString index
  | stepLimitExceeded limit => "Global step limit exceeded (" ++ limit.display ++ ")"
  | noMainDeclaration => "No 'main' value declaration found"
  | deadlock => "main is blocked indefinitely on a receive"
  | invalid problems =>
    "Invalid program: " ++ "; ".intercalate (problems.map fun p => p.path ++ ": " ++ p.message)
  | literal e => e.message
  | unexpected shown => "Unexpected value: " ++ shown.display
  | misuse m => m.message
  | notRunning task => "Task " ++ task.display ++ " is not running"
  | noResult task => "Task " ++ task.display ++ " settled without a result"
  | raised _ message => message
  | failure message => message

/-- Everything that the wording of a fault speaks of has a text. -/
def wordable : Fault → Bool
  | unboundVariable name => name.showable
  | typeMismatch expected got context =>
    expected.showable && got.showable && context.showable
  | noMatchingCase label available => label.showable && available.all Atom.showable
  | stepLimitExceeded limit => limit.showable
  | unexpected shown => shown.showable
  | notRunning task => task.showable
  | noResult task => task.showable
  | _ => true

/-- The fault that comes of reporting a fault: one that cannot be put into words is itself a
misuse. -/
def worded (f : Fault) : Fault := if f.wordable then f else .misuse .noText

/-- The fault that something else counts as when it is thrown: one without a code that says its
text. -/
def ofThrown (x : Atom) : Fault :=
  match x.display? with
  | some s => .failure s
  | none => .misuse .noText

end Fault

/-- How an evaluation ends. -/
abbrev Outcome := Except Fault Value

/-! ### Variants and arithmetic -/

namespace Value

/-- The complaint about a value of another variant. -/
def mismatch (expected : Kind) (v : Value) (context : Atom) : Fault :=
  (Fault.typeMismatch expected.name v context).worded

def asInt (context : Atom) : Value → Except Fault Int
  | int n => .ok n
  | v => .error (v.mismatch .int context)

def asPair (context : Atom) : Value → Except Fault (Value × Value)
  | pair a b => .ok (a, b)
  | v => .error (v.mismatch .pair context)

def asLabel (context : Atom) : Value → Except Fault Atom
  | label name => .ok name
  | v => .error (v.mismatch .label context)

def asChannel (context : Atom) : Value → Except Fault Endpoint
  | channel e => .ok e
  | v => .error (v.mismatch .channel context)

/-- The value itself if it can be applied. -/
def asClosure (context : Atom) (v : Value) : Except Fault Value :=
  if v.kind = .closure then .ok v else .error (v.mismatch .closure context)

end Value

/-- The operators; division drops the fraction. -/
def ArithOp.apply : ArithOp → Int → Int → Except Fault Int
  | plus, a, b => .ok (a + b)
  | minus, a, b => .ok (a - b)
  | times, a, b => .ok (a * b)
  | div, a, b => if b = 0 then .error .divisionByZero else .ok (a.tdiv b)

end Parley
