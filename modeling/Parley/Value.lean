import Parley.Syntax

/-!
Values, environments, and how values show.
-/

namespace Parley

/-- A queue: one allocated during evaluation, or one handed in from outside. Two queues from
outside with one name are the same only if they came in together. -/
inductive QueueId
  | allocated (number : Nat)
  | outside (origin : Nat) (name : Atom)
  deriving DecidableEq

/-- What names a queue in print. -/
def QueueId.atom : QueueId → Atom
  | allocated n => .number (.integer n)
  | outside _ name => name

/-- One end of a channel: the queue it receives from and the queue it sends on. -/
structure Endpoint where
  read : QueueId
  write : QueueId
  deriving DecidableEq

/-- The other end of the same channel. -/
def Endpoint.partner (e : Endpoint) : Endpoint := ⟨e.write, e.read⟩

/-- Values. A `function` awaits `param`, then the parameters `more`, and then runs its body. -/
inductive Value
  | unit
  | label (name : Atom)
  | int (n : Int)
  | pair (first second : Value)
  | function (param : Param) (more : List Param) (body : Expr) (env : List (Atom × Value))
  /-- Applied to a value, sends it. -/
  | sender (on : Endpoint)
  /-- A function from outside that hands back its argument. -/
  | identity
  | channel (e : Endpoint)
  | global (g : Global)

instance : Inhabited Value := ⟨.unit⟩

/-- Bindings of names to values. -/
abbrev Env := Table Atom Value

/-- The variants of values. -/
inductive Kind
  | unit | label | int | pair | closure | channel | global
  deriving DecidableEq

namespace Kind

def name : Kind → String
  | unit => "unit"
  | label => "label"
  | int => "int"
  | pair => "pair"
  | closure => "closure"
  | channel => "channel"
  | global => "global"

end Kind

namespace Value

def kind : Value → Kind
  | unit => .unit
  | label _ => .label
  | int _ => .int
  | pair _ _ => .pair
  | function _ _ _ _ => .closure
  | sender _ => .closure
  | identity => .closure
  | channel _ => .channel
  | global _ => .global

/-- The text of a value. -/
def render : Value → String
  | unit => "()"
  | label name => "'" ++ name.display
  | int n => toString n
  | pair a b => "<" ++ a.render ++ ", " ++ b.render ++ ">"
  | function _ _ _ _ => "<closure>"
  | sender _ => "<closure>"
  | identity => "<closure>"
  | channel e => "<channel #" ++ e.read.atom.display ++ "/#" ++ e.write.atom.display ++ ">"
  | global g => "<global " ++ g.name.display ++ ">"

/-- A value has a text if everything in it that is shown has one. -/
def showable : Value → Bool
  | label name => name.showable
  | pair a b => a.showable && b.showable
  | channel e => e.read.atom.showable && e.write.atom.showable
  | global g => g.name.showable
  | unit => true
  | int _ => true
  | function _ _ _ _ => true
  | sender _ => true
  | identity => true

end Value

/-- The global declarations by name; type declarations add nothing, and of two declarations of
one name the later counts. -/
def Env.ofDeclarations (ds : List Declaration) : Env :=
  Table.ofEntries <| ds.filterMap fun d => match d with
    | .global g => some (g.name, .global g)
    | .type _ => none

/-- The environment that a program starts in. -/
def Program.globals (p : Program) : Env := Env.ofDeclarations p.declarations

end Parley
