import Parley.Fault

/-!
The diagnostics of a run: what each process entered, left, sent and received, and how forked
processes ended. Faults of forked processes are warnings; all else is trace.
-/

namespace Parley

/-- One thing that a run reports about itself. -/
inductive Note
  | enter (caption : String)
  | leave (caption : String) (result : Value)
  | sent (payload : Value) (on : Endpoint)
  | received (payload : Value) (on : Endpoint)
  | finished (task : Atom) (result : Value)
  | failed (task : Atom) (fault : Fault)

/-- A line of diagnostics. -/
structure Line where
  warning : Bool
  text : String
  deriving DecidableEq

/-- The line as it goes to the error stream, with its end. -/
def Line.toConsole (l : Line) : String :=
  (if l.warning then "[warn] " else "[trace] ") ++ l.text ++ "\n"

namespace Note

def isWarning : Note → Bool
  | failed _ _ => true
  | _ => false

def text : Note → String
  | enter caption => "enter " ++ caption
  | leave caption result => "leave " ++ caption ++ " => " ++ result.render
  | sent payload on => "send " ++ payload.render ++ " on " ++ (Value.channel on).render
  | received payload on => "recv " ++ payload.render ++ " from " ++ (Value.channel on).render
  | finished task result => "fork " ++ task.display ++ " finished => " ++ result.render
  | failed task fault => "fork " ++ task.display ++ " failed: " ++ fault.message

def line (n : Note) : Line := ⟨n.isWarning, n.text⟩

end Note

/-- The trace lines among the diagnostics. -/
def traceLines (ls : List Line) : List String := (ls.filter (!·.warning)).map (·.text)

/-- The warnings among the diagnostics. -/
def warningLines (ls : List Line) : List String := (ls.filter (·.warning)).map (·.text)

/-- Everything that goes to the error stream. -/
def consoleText (ls : List Line) : String := String.join (ls.map Line.toConsole)

/-- The value of an environment variable asks for tracing. -/
def asksForTrace : Option String → Bool
  | some flag => flag = "1" || flag = "true"
  | none => false

end Parley
