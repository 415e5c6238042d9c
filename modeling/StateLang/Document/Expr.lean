import StateLang.Expr.Basic
import StateLang.Fault

/-!
# Expressions in a document

A binary node has a blank on each side of itself and of its operator; there are
no parentheses. Only a resolved variable has a text.
-/

namespace StateLang

/-- The fault of writing a variable whose origin is unknown. -/
def Variable.unresolvedFault (v : Variable) : Fault :=
  .internal ("variable `" ++ v.name ++ "` reached code generation unresolved")

/-- The text that reads a variable. -/
def Variable.render (v : Variable) : Except Fault String :=
  match v.origin with
  | .platform => .ok ("platform->get_" ++ v.name ++ "()")
  | .machine => .ok ("this->" ++ v.name)
  | .unresolved => .error v.unresolvedFault

def Expr.render : Expr → Except Fault String
  | const _ text => .ok text
  | var v => v.render
  | binary op left right => do
      let left ← left.render
      let right ← right.render
      pure (" " ++ left ++ " " ++ op.symbol ++ " " ++ right ++ " ")

end StateLang
