import Parley.CommandLine

/-!
The program `session-calculus`.
-/

namespace Parley.CommandLine

/-- More steps than any run takes. -/
def enough : Nat := Nat.pow 2 62

def readSource (path : Option String) : IO String := do
  match path with
  | some p => IO.FS.readFile p
  | none => return dropMark (← (← IO.getStdin).readToEnd)

end Parley.CommandLine

open Parley Parley.CommandLine

def main (args : List String) : IO UInt32 := do
  let a := Arguments.parse args
  let traced := asksForTrace (← IO.getEnv traceVariable)
  let out ← match early? a with
    | some out => pure (some (.ok out))
    | none => do
      let source ← readSource a.path
      pure (runText enough a traced source)
  match out with
  | none => return 1
  | some (.error f) => do
    IO.eprintln (Json.Half.replaced f.message)
    return 1
  | some (.ok out) => do
    IO.eprint out.stderr
    IO.print out.stdout
    return out.code.toUInt32
