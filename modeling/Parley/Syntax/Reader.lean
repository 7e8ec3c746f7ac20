import Parley.Json.Half
import Parley.Syntax

/-!
Programs out of documents. Reading never fails inside an expression: what is no expression is
kept as such and faults when it is evaluated. Only the members that the language knows are
looked at.
-/

namespace Parley

namespace Expr

/-- What the member of an expression may stand for. -/
structure Part where
  expr : Expr
  branches : List (Atom × Expr)
  rest : Option Misuse

/-- The kind that an expression is marked with. -/
def kindOf (members : List (String × Json)) : String :=
  match Table.find? members "kind" with
  | some (.string kind) => kind
  | _ => ""

def partOf (parts : List (String × Part)) (name : String) : Expr :=
  match Table.find? parts name with
  | some p => p.expr
  | none => .missing .absent

/-- A case expression. -/
def caseWith (scrutinee : Expr) (branches : Option Part) : Expr :=
  match branches with
  | some p => .caseOf scrutinee p.branches p.rest
  | none => .caseOf scrutinee [] (some (.noMember .absent "find"))

/-- The expression of a kind at a place, from its members and what they stand for. -/
def build (place : Place) (members : List (String × Json)) (parts : List (String × Part)) :
    Expr :=
  let atom := Atom.ofMember place members
  let part := partOf parts
  match kindOf members with
  | "unit" => .unit
  | "var" => .var (atom "name")
  | "label" => .label (atom "name")
  | "int" => .int (atom "value")
  | "nat" => .nat (atom "value")
  | "plus" => .arith .plus (part "left") (part "right")
  | "minus" => .arith .minus (part "left") (part "right")
  | "times" => .arith .times (part "left") (part "right")
  | "div" => .arith .div (part "left") (part "right")
  | "negate" => .negate (part "expr")
  | "succ" => .succ (part "expr")
  | "let" => .letIn (atom "name") (part "value") (part "body")
  | "letPair" => .letPair (atom "first") (atom "second") (part "value") (part "body")
  | "pair" => .pair (atom "name") (part "first") (part "second")
  | "fst" => .fst (part "expr")
  | "snd" => .snd (part "expr")
  | "lambda" => .lambda (atom "param") (part "body")
  | "app" => .app (part "fn") (part "arg")
  | "fork" => .fork (part "expr")
  | "new" => .channel
  | "send" => .send (part "channel")
  | "recv" => .recv (part "channel")
  | "case" => caseWith (part "scrutinee") (Table.find? parts "branches")
  | "natRec" =>
    .natRec (part "index") (part "zero") (atom "counter") (atom "acc") (part "step")
  | _ => .unknown (atom "kind") (Atom.ofJson place (some (.object members)))

/-- A search of a list of branches breaks off where there is nothing in place of one. -/
def branchEnd (items : List Json) : Option Misuse :=
  if items.any (fun j => j matches .null) then some (.noMember .null "label") else none

/-- A scalar that counts as no branch even if it is found: false, zero and the empty text. -/
def isHollow : Json → Bool
  | .bool b => !b
  | .number n => n = .integer 0
  | .string s => s.isEmpty
  | _ => false

/-- The label of a branch. Once the absent label has been found on something hollow, no branch
can be reached by it. -/
def branchLabel (place : Place) (hollow : Bool) (label : Atom) : Atom :=
  if hollow && label = .absent then .compound place label.display? else label

mutual

/-- The expression that a document holds at a place. -/
def ofJson (place : Place) : Json → Expr
  | .object members => build place members (partsOf place members)
  | .null => .missing .null
  | j => .unknown .absent (Atom.ofJson place (some j))

/-- The members of an object with what they stand for. -/
def partsOf (place : Place) : List (String × Json) → List (String × Part)
  | [] => []
  | (name, .array items) :: rest =>
    let inside := Segment.key name :: place
    (name, ⟨.unknown .absent (Atom.ofJson inside (some (.array items))),
      branchList inside 0 false items, branchEnd items⟩) :: partsOf place rest
  | (name, .null) :: rest =>
    (name, ⟨.missing .null, [], some (.noMember .null "find")⟩) :: partsOf place rest
  | (name, j) :: rest =>
    (name, ⟨ofJson (.key name :: place) j, [], some (.notCallable "expr.branches.find")⟩) ::
      partsOf place rest

/-- The branches of a case expression from the one with number `n` on, as far as they can be
searched. -/
def branchList (place : Place) (n : Nat) (hollow : Bool) : List Json → List (Atom × Expr)
  | [] => []
  | .null :: _ => []
  | .object members :: rest =>
    let inside := Segment.index n :: place
    (branchLabel inside hollow (Atom.ofMember inside members "label"),
      partOf (partsOf inside members) "body") :: branchList place (n + 1) hollow rest
  | j :: rest =>
    let hollow := hollow || isHollow j
    (branchLabel (.index n :: place) hollow .absent, .missing .absent) ::
      branchList place (n + 1) hollow rest

end

end Expr

/-- The parameters of a list, from the one with number `n` on. -/
def Global.paramList (place : Place) (n : Nat) : List Json → List Param
  | [] => []
  | j :: rest =>
    (match j with
      | .null => none
      | .object members => some (Atom.ofMember (.index n :: place) members "name")
      | _ => some .absent) :: paramList place (n + 1) rest

/-- The parameters of a declaration. Each symbol of a text counts as one without a name. -/
def Global.paramsOfJson (place : Place) : Option Json → Except Misuse (List Param)
  | some (.array items) => .ok (paramList place 0 items)
  | some (.string s) => .ok ((Json.Half.decode s).map fun _ => some .absent)
  | _ => .error (.notIterable "params")

/-- The global that a document declares at a place. Nothing at all declares one that can neither
be shown nor referred to. -/
def Global.ofJson (place : Place) : Option Json → Global
  | none => ⟨.compound place none, .error (.noMember .absent "params"), .missing .absent⟩
  | some .null => ⟨.compound place none, .error (.noMember .null "params"), .missing .absent⟩
  | some j => {
      name := Atom.ofJson (.key "name" :: place) (j.get? "name")
      params := paramsOfJson (.key "params" :: place) (j.get? "params")
      body := match j.get? "body" with
        | some e => Expr.ofJson (.key "body" :: place) e
        | none => .missing .absent }

def Declaration.ofJson (place : Place) (j : Json) : Declaration :=
  match j.get? "kind" with
  | some (.string "fun") => .global (Global.ofJson place (some j))
  | _ => .type (Atom.ofJson (.key "name" :: place) (j.get? "name"))

/-- The declarations of a list from number `n` on, unless there is nothing in place of one. -/
def Declaration.list? (place : Place) (n : Nat) : List Json → Option (List Declaration)
  | [] => some []
  | .null :: _ => none
  | j :: rest => (list? place (n + 1) rest).map (Declaration.ofJson (.index n :: place) j :: ·)

/-- The declarations that a document holds at a place, if it holds any list. A text holds no
declarations. -/
def Declaration.ofJson? (place : Place) : Option Json → Option (List Declaration)
  | some (.array items) => list? place 0 items
  | some (.string _) => some []
  | _ => none

/-- The program of a document, unless it has no list of declarations. -/
def Program.ofJson? (place : Place) (doc : Option Json) : Option Program :=
  (Declaration.ofJson? (.key "declarations" :: place)
    (doc.bind fun j => j.get? "declarations")).map Program.mk

end Parley
