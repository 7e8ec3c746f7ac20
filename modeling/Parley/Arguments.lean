import Parley.Number.Basic
import Parley.Json.Parser

/-!
The arguments of the command line.
-/

namespace Parley

/-- What is wrong with an argument. -/
inductive Arguments.Error
  | badMaxSteps
  | unknownOption (arg : String)
  | unexpected (arg : String)
  deriving DecidableEq

def Arguments.Error.message : Arguments.Error → String
  | badMaxSteps => "--max-steps expects a positive integer"
  | unknownOption arg => "Unknown option: " ++ arg
  | unexpected arg => "Unexpected argument: " ++ arg

/-- The arguments as understood. -/
structure Arguments where
  path : Option String := none
  trace : Bool := false
  help : Bool := false
  maxSteps : Option Number := none
  errors : List Arguments.Error := []

namespace Arguments

/-- A text of digits that stands for a positive number. -/
def positive? (s : String) : Option Number :=
  let cs := s.toList
  if !cs.isEmpty && cs.all Json.Parser.isDigit then
    match Json.Parser.digitsValue cs with
    | 0 => none
    | n => some (.ofDecimal false n 0)
  else none

def addError (a : Arguments) (e : Error) : Arguments := { a with errors := a.errors ++ [e] }

/-- Takes one argument that needs no other. -/
def take (a : Arguments) (arg : String) : Arguments :=
  if arg = "--trace" ∨ arg = "-t" then { a with trace := true }
  else if arg = "--help" ∨ arg = "-h" then { a with help := true }
  else if arg.toList.head? = some '-' then a.addError (.unknownOption arg)
  else
    match a.path with
    | some _ => a.addError (.unexpected arg)
    | none => { a with path := some arg }

/-- Takes arguments from left to right. A step limit that is no positive integer is an error,
and what stands in its place is taken on its own. -/
def takeAll (a : Arguments) : List String → Arguments
  | [] => a
  | ["--max-steps"] => a.addError .badMaxSteps
  | "--max-steps" :: count :: rest =>
    match positive? count with
    | some n => takeAll { a with maxSteps := some n } rest
    | none => takeAll (a.addError .badMaxSteps) (count :: rest)
  | arg :: rest => takeAll (a.take arg) rest

def parse (args : List String) : Arguments := takeAll {} args

/-- The help text. -/
def usage : String := "\n".intercalate
  ["Usage: session-calculus [file] [options]",
    "",
    "Evaluates the `main` declaration of a JSON program (read from stdin when no file is given).",
    "",
    "Options:",
    "  -t, --trace          Print evaluation trace lines to stderr",
    "      --max-steps <n>  Abort after n evaluation steps",
    "  -h, --help           Show this help",
    "",
    "Environment:",
    "  SESSION_TRACE=1      Same as --trace"]

end Arguments

end Parley
