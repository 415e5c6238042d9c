import StateLang.Expr.Basic
import StateLang.Token.Basic

/-!
# How tokens form expressions

Each kind of token has a rule: how it starts an expression, how it continues
one, and how tightly it binds. An opening parenthesis binds tighter than every
operator and continues nothing, so an operand followed by a parenthesis is an
error and not the end of the expression.
-/

namespace StateLang

/-- How a token starts an expression. -/
inductive StartRule
  | literal
  | name
  | group
  deriving DecidableEq, Repr

/-- How a token continues an expression. -/
inductive ContinueRule
  | arithmetic
  | comparison
  deriving DecidableEq, Repr

structure ExprRule where
  start? : Option StartRule
  continue? : Option ContinueRule
  power : Nat
  deriving DecidableEq, Repr

namespace Token.Kind

/-- The power of an opening parenthesis. -/
def groupPower : Nat := 80

def exprRule : Kind → ExprRule
  | literal _ => ⟨some .literal, none, 0⟩
  | identifier => ⟨some .name, none, 0⟩
  | punctuation .lparen => ⟨some .group, none, groupPower⟩
  | operator (.arith op) => ⟨none, some .arithmetic, op.power⟩
  | operator (.compare op) => ⟨none, some .comparison, op.power⟩
  | _ => ⟨none, none, 0⟩

/-- The class of constant that a literal token denotes. -/
def constKind? : Kind → Option ConstKind
  | literal .int => some .int
  | literal .float => some .float
  | literal .string => some .string
  | literal .char => some .char
  | literal .true => some .bool
  | literal .false => some .bool
  | _ => none

def arithOp? : Kind → Option ArithOp
  | operator (.arith op) => some op
  | _ => none

def compareOp? : Kind → Option CompareOp
  | operator (.compare op) => some op
  | _ => none

end Token.Kind

namespace ContinueRule

/-- The operator that a token stands for under this rule. -/
def operator? : ContinueRule → Token.Kind → Option BinaryOp
  | arithmetic, kind => kind.arithOp?.map .arith
  | comparison, kind => kind.compareOp?.map .compare

/-- What the rule asks of its token. -/
def requirement : ContinueRule → String
  | arithmetic => "an arithmetic operator"
  | comparison => "a comparison operator"

end ContinueRule

end StateLang
