/-!
# Binary operators

The ten operators of the language, each with its symbol and its binding power.
A higher power binds tighter; operators of equal power group to the left.
-/

namespace StateLang

inductive ArithOp
  | add
  | sub
  | mul
  | div
  deriving DecidableEq, Repr

inductive CompareOp
  | eq
  | ne
  | lt
  | le
  | gt
  | ge
  deriving DecidableEq, Repr

inductive BinaryOp
  | arith (op : ArithOp)
  | compare (op : CompareOp)
  deriving DecidableEq, Repr

namespace ArithOp

def symbol : ArithOp → String
  | add => "+"
  | sub => "-"
  | mul => "*"
  | div => "/"

/-- Products bind tighter than sums. -/
def power : ArithOp → Nat
  | add | sub => 50
  | mul | div => 60

end ArithOp

namespace CompareOp

def symbol : CompareOp → String
  | eq => "=="
  | ne => "!="
  | lt => "<"
  | le => "<="
  | gt => ">"
  | ge => ">="

/-- All comparisons share one power, below that of every arithmetic operator. -/
def power (_ : CompareOp) : Nat := 30

end CompareOp

namespace BinaryOp

def symbol : BinaryOp → String
  | arith op => op.symbol
  | compare op => op.symbol

def power : BinaryOp → Nat
  | arith op => op.power
  | compare op => op.power

theorem power_pos (op : BinaryOp) : 0 < op.power := by
  rcases op with op | op <;> cases op <;> decide

end BinaryOp

end StateLang
