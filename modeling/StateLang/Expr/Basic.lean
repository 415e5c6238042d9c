import StateLang.Operator

/-!
# Expressions

An expression is a constant, a variable or a binary operator with two operands.
A variable carries its origin: where its storage lives in the machine. Reading
a program leaves all origins unresolved.
-/

namespace StateLang

/-- Where a variable's storage lives. -/
inductive Origin
  | unresolved
  /-- Not declared by the program: reached through the platform. -/
  | platform
  /-- Declared by the program: a field of the machine. -/
  | machine
  deriving DecidableEq, Repr

/-- A use of a name. -/
structure Variable where
  name : String
  origin : Origin
  deriving DecidableEq, Repr

/-- A name as it is read, before its origin is known. -/
def Variable.ofName (name : String) : Variable := ⟨name, .unresolved⟩

inductive ConstKind
  | int
  | float
  | string
  | char
  | bool
  deriving DecidableEq, Repr

inductive Expr
  | const (kind : ConstKind) (text : String)
  | var (v : Variable)
  | binary (op : BinaryOp) (left right : Expr)
  deriving DecidableEq, Repr

namespace Expr

/-- The variables, left to right. -/
def vars : Expr → List Variable
  | const _ _ => []
  | var v => [v]
  | binary _ left right => left.vars ++ right.vars

/-- The height of the tree; a leaf has height one. -/
def height : Expr → Nat
  | const _ _ => 1
  | var _ => 1
  | binary _ left right => 1 + max left.height right.height

/-- Visit the variables from left to right and put `f`'s answers in their places. -/
def mapVariablesM {m : Type → Type} [Monad m] (f : Variable → m Variable) : Expr → m Expr
  | const kind text => pure (const kind text)
  | var v => do
      let v ← f v
      pure (var v)
  | binary op left right => do
      let left ← left.mapVariablesM f
      let right ← right.mapVariablesM f
      pure (binary op left right)

end Expr

end StateLang
