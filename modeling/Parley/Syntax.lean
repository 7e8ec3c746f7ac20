import Parley.Literal

/-!
The expressions, declarations and programs of the calculus.
-/

namespace Parley

/-- The binary operators on integers. -/
inductive ArithOp
  | plus | minus | times | div
  deriving DecidableEq

def ArithOp.name : ArithOp → String
  | plus => "plus"
  | minus => "minus"
  | times => "times"
  | div => "div"

/-- Expressions. The branches of a case expression end with `rest`: a misuse if the list of
branches cannot be searched any further. Where a document holds something else, `unknown` keeps
how it is marked and how it shows, and `missing` stands for nothing at all. -/
inductive Expr
  | unit
  | var (name : Atom)
  | label (name : Atom)
  | int (n : Literal)
  | nat (n : Literal)
  | arith (op : ArithOp) (left right : Expr)
  | negate (e : Expr)
  | succ (e : Expr)
  | letIn (name : Atom) (value body : Expr)
  | letPair (first second : Atom) (value body : Expr)
  | pair (name : Atom) (first second : Expr)
  | fst (e : Expr)
  | snd (e : Expr)
  | lambda (param : Atom) (body : Expr)
  | app (fn arg : Expr)
  | fork (e : Expr)
  | channel
  | send (e : Expr)
  | recv (e : Expr)
  | caseOf (scrutinee : Expr) (branches : List (Atom × Expr)) (rest : Option Misuse)
  | natRec (index zero : Expr) (counter acc : Atom) (step : Expr)
  | unknown (kind shown : Atom)
  | missing (g : Gap)

namespace Expr

/-- How a trace names an expression, if it can. -/
def caption? : Expr → Option String
  | unit => some "unit"
  | var name => name.display?.map ("var " ++ ·)
  | label name => name.display?.map ("label " ++ ·)
  | int n => n.display?.map ("int " ++ ·)
  | nat n => n.display?.map ("nat " ++ ·)
  | arith op _ _ => some op.name
  | negate _ => some "negate"
  | succ _ => some "succ"
  | letIn name _ _ => name.display?.map ("let " ++ ·)
  | letPair _ _ _ _ => some "letPair"
  | pair name _ _ => name.display?.map ("pair " ++ ·)
  | fst _ => some "fst"
  | snd _ => some "snd"
  | lambda param _ => param.display?.map ("lambda " ++ ·)
  | app _ _ => some "app"
  | fork _ => some "fork"
  | channel => some "new"
  | send _ => some "send"
  | recv _ => some "recv"
  | caseOf _ _ _ => some "case"
  | natRec _ _ _ _ _ => some "natRec"
  | unknown kind _ => kind.display?
  | missing _ => none

def caption (e : Expr) : String := e.caption?.getD ""

end Expr

/-- A parameter: its name, unless there is nothing in its place. -/
abbrev Param := Option Atom

/-- A named body with parameters; without parameters, a value computed at every reference. What
stands for the parameters may be no list at all. -/
structure Global where
  name : Atom
  params : Except Misuse (List Param)
  body : Expr

inductive Declaration
  | global (g : Global)
  /-- A type declaration says nothing about evaluation. -/
  | type (name : Atom)

structure Program where
  declarations : List Declaration

/-- The name of the declaration that a program runs. -/
def Program.entry : String := "main"

end Parley
