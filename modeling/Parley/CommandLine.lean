import Parley.Arguments
import Parley.Run

/-!
The command line: arguments and a program text in, an exit code and two streams out.
-/

namespace Parley.CommandLine

/-- What a call of the program leaves behind. -/
structure Output where
  code : Nat
  stdout : String := ""
  stderr : String := ""

/-- The answer that the arguments alone decide: their errors, or the help text. -/
def early? (a : Arguments) : Option Output :=
  if !a.errors.isEmpty then
    some { code := 2, stderr := String.join (a.errors.map (·.message ++ "\n")) ++
      Arguments.usage ++ "\n" }
  else if a.help then some { code := 0, stdout := Arguments.usage ++ "\n" }
  else none

/-- A byte order mark in front of standard input does not count. -/
def dropMark (text : String) : String :=
  match text.toList with
  | c :: cs => if c.toNat = 0xFEFF then String.ofList cs else text
  | [] => text

/-- The name of the environment variable that asks for tracing. -/
def traceVariable : String := "SESSION_TRACE"

/-- What is left behind when the main process ends with `o` after `logged` notes. A fault that
is none of the calculus is not caught. -/
def output (notes : List Note) (logged : Nat) (o : Outcome) : Except Fault Output :=
  let text (ns : List Note) := consoleText (ns.map Note.line)
  match o with
  | .ok v => .ok { code := 0, stdout := v.render ++ "\n", stderr := text notes }
  | .error f =>
    match f.category with
    | .coded code =>
      let line := code.display ++ ": " ++ f.message ++ "\n"
      .ok { code := 1, stderr := text (notes.take logged) ++ line ++ text (notes.drop logged) }
    | _ => .error f

/-- Runs a program for the command line: once the main process has ended, what is ready still
runs, and processes that are parked or blocked are given up. -/
def runProgram (fuel : Nat) (policy : Policy) (p : Program) : Option (Except Fault Output) :=
  let m := ({ policy } : Machine).startProgram p [.pass, .report 0]
  let ended (m : Machine) : Bool := m.jobs.isEmpty && (m.outcome? 0).isSome
  (m.runUntil ended fuel).map fun m =>
    match m.events.find? fun e => e.tag = 0 with
    | some e => output m.log.toList e.logged e.outcome
    | none => output m.log.toList m.log.size (.error .deadlock)

/-- The output as it goes to streams of characters. -/
def Output.printed (o : Output) : Output :=
  { o with stdout := Json.Half.replaced o.stdout, stderr := Json.Half.replaced o.stderr }

/-- Loads and runs a program text. -/
def runText (fuel : Nat) (a : Arguments) (traced : Bool) (source : String) :
    Option (Except Fault Output) :=
  match load source with
  | .error (.findings fs) =>
    let line (f : Finding) : String := f.problem.path ++ ": " ++ f.problem.message ++ "\n"
    some (.ok (Output.printed { code := 1, stderr := String.join (fs.map line) }))
  | .error (.misuse m) => some (.error (.misuse m))
  | .ok v =>
    let policy := .limits a.maxSteps none none (a.trace || traced)
    (runProgram fuel policy v.program).map fun o => o.map Output.printed

end Parley.CommandLine
