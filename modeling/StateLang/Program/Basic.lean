import StateLang.Expr.Basic

/-!
# Programs

A program names a machine and its platform, declares variables and lists
states. A state lists transitions; a transition has a guard, assignments to
perform when the guard holds, and where the machine goes then.
-/

namespace StateLang

/-- `target := value;` -/
structure Assignment where
  target : Variable
  value : Expr
  deriving DecidableEq, Repr

/-- Where a transition leads. -/
inductive Destination
  | goto (target : Variable)
  | exit
  deriving DecidableEq, Repr

structure Transition where
  guard : Expr
  body : List Assignment
  destination : Destination
  deriving DecidableEq, Repr

structure State where
  name : Variable
  transitions : List Transition
  isInitial : Bool
  deriving DecidableEq, Repr

/-- The types of declared variables. -/
inductive VarType
  | int
  | float
  | boolean
  | string
  | char
  deriving DecidableEq, Repr

structure Declaration where
  type : VarType
  name : Variable
  deriving DecidableEq, Repr

structure Program where
  name : Variable
  platform : Variable
  declarations : List Declaration
  states : List State
  deriving DecidableEq, Repr

/-- The state that a transition goes to, if it goes to one. -/
def Transition.target? (t : Transition) : Option Variable :=
  match t.destination with
  | .goto target => some target
  | .exit => none

/-- The spelling of a type in a program. -/
def VarType.word : VarType → String
  | int => "int"
  | float => "float"
  | boolean => "boolean"
  | string => "string"
  | char => "char"

section Visit

variable {m : Type → Type} [Monad m] (f : Variable → m Variable)

/-- Visit the target, then the variables of the value. -/
def Assignment.mapVariablesM (a : Assignment) : m Assignment := do
  let target ← f a.target
  let value ← a.value.mapVariablesM f
  pure ⟨target, value⟩

/-- Visit the assignments in order, then the guard. The destination is no variable use. -/
def Transition.mapVariablesM (t : Transition) : m Transition := do
  let body ← t.body.mapM (Assignment.mapVariablesM f)
  let guard ← t.guard.mapVariablesM f
  pure { t with guard := guard, body := body }

def State.mapVariablesM (s : State) : m State := do
  let transitions ← s.transitions.mapM (Transition.mapVariablesM f)
  pure { s with transitions := transitions }

end Visit

end StateLang
