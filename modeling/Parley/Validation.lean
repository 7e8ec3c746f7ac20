import Parley.Fault
import Parley.Form.Check
import Parley.Syntax.Reader

/-!
Validation of program documents: their form, and then that no declaration repeats a parameter
and no case expression repeats a label.
-/

namespace Parley

open Form

/-- What is wrong with a document. -/
inductive Defect
  | notJson
  | form (c : Complaint)
  | duplicateLabel (label : Atom)
  | duplicateParameter (declaration : Atom) (param : Atom)
  deriving DecidableEq

def Defect.message : Defect → String
  | notJson => "Invalid JSON"
  | form c => c.message
  | duplicateLabel label => "Duplicate case label: " ++ label.display
  | duplicateParameter declaration param =>
    "Duplicate parameter name in " ++ declaration.display ++ ": " ++ param.display

/-- A defect with its place. -/
structure Finding where
  path : Path
  defect : Defect
  deriving DecidableEq

def Finding.problem (f : Finding) : Problem := ⟨f.path.text, f.defect.message⟩

/-- The places, counted from `n`, of the names that stand before or among `seen`. -/
def repeated (seen : List Atom) (n : Nat) : List Atom → List (Nat × Atom)
  | [] => []
  | x :: rest =>
    if seen.contains x then (n, x) :: repeated seen (n + 1) rest
    else repeated (x :: seen) (n + 1) rest

namespace Expr

mutual

/-- The repeated labels of an expression at a place. -/
def findings (p : Path) : Expr → List Finding
  | unit | var _ | label _ | int _ | nat _ | channel | unknown _ _ | missing _ => []
  | arith _ a b => findings (p ++ [.key "left"]) a ++ findings (p ++ [.key "right"]) b
  | negate a | succ a | fst a | snd a | fork a => findings (p ++ [.key "expr"]) a
  | letIn _ a b | letPair _ _ a b =>
    findings (p ++ [.key "value"]) a ++ findings (p ++ [.key "body"]) b
  | pair _ a b => findings (p ++ [.key "first"]) a ++ findings (p ++ [.key "second"]) b
  | lambda _ a => findings (p ++ [.key "body"]) a
  | app f a => findings (p ++ [.key "fn"]) f ++ findings (p ++ [.key "arg"]) a
  | send a | recv a => findings (p ++ [.key "channel"]) a
  | caseOf a bs _ =>
    (repeated [] 0 (bs.map (·.1))).map
        (fun r => ⟨p ++ [.key "branches", .index r.1, .key "label"], .duplicateLabel r.2⟩) ++
      findings (p ++ [.key "scrutinee"]) a ++ branchFindings p 0 bs
  | natRec a b _ _ c =>
    findings (p ++ [.key "index"]) a ++ findings (p ++ [.key "zero"]) b ++
      findings (p ++ [.key "step"]) c

/-- The repeated labels inside branches, counted from `n`. -/
def branchFindings (p : Path) (n : Nat) : List (Atom × Expr) → List Finding
  | [] => []
  | (_, b) :: rest =>
    findings (p ++ [.key "branches", .index n, .key "body"]) b ++ branchFindings p (n + 1) rest

end

end Expr

/-- The names of the parameters. -/
def Global.paramNames (g : Global) : List Atom :=
  match g.params with
  | .ok ps => ps.map (·.getD .null)
  | .error _ => []

/-- The repeated parameters and labels of a declaration at a place. -/
def Declaration.findings (p : Path) : Declaration → List Finding
  | .type _ => []
  | .global g =>
    (repeated [] 0 g.paramNames).map
        (fun r => ⟨p ++ [.key "params", .index r.1, .key "name"],
          .duplicateParameter g.name r.2⟩) ++
      g.body.findings (p ++ [.key "body"])

/-- The findings in declarations, counted from `n`. -/
def declarationFindings (n : Nat) : List Declaration → List Finding
  | [] => []
  | d :: rest =>
    d.findings [.key "declarations", .index n] ++ declarationFindings (n + 1) rest

def Program.findings (p : Program) : List Finding := declarationFindings 0 p.declarations

/-- The program of a document of the right form. -/
def Program.ofJson (doc : Json) : Program := (Program.ofJson? [] (some doc)).getD ⟨[]⟩

/-- A valid document: what is kept of it, and its program. -/
structure Valid where
  doc : Json
  program : Program

/-- Why a document is not valid. -/
inductive Refusal
  | findings (fs : List Finding)
  /-- Checking broke off. -/
  | misuse (m : Misuse)

/-- The fault that a document is refused with. -/
def Refusal.fault : Refusal → Fault
  | findings fs => .invalid (fs.map Finding.problem)
  | misuse m => .misuse m

/-- Validates a document that may be absent. -/
def validate (doc : Option Json) : Except Refusal Valid :=
  match check? .program doc with
  | ⟨_, _, true⟩ => .error (.misuse .noText)
  | ⟨some kept, [], false⟩ =>
    let p := Program.ofJson kept
    match p.findings with
    | [] => .ok ⟨kept, p⟩
    | fs => .error (.findings fs)
  | ⟨_, issues, false⟩ =>
    .error (.findings (issues.map fun i => ⟨i.path, .form i.complaint⟩))

/-- Validates a program text. -/
def load (source : String) : Except Refusal Valid :=
  match Json.parse? source with
  | some doc => validate (some doc)
  | none => .error (.findings [⟨[], .notJson⟩])

end Parley
