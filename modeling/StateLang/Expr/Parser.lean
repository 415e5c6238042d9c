import StateLang.Expr.Precedence
import StateLang.Parser
import StateLang.Token.Scan

/-!
# Reading expressions

Precedence climbing: read an operand, then take in operators for as long as
they bind tighter than the power asked for. Two limits, both `maxDepth`, keep
trees shallow: on the expressions being read one inside the other, and on the
height of the tree that comes out.
-/

namespace StateLang

/-- The greatest height of an expression, and the most expressions inside one another. -/
def maxDepth : Nat := 256

namespace Parser

def failTooDeep {α : Type} : ParseM α := fun p =>
  .error (.grammar "a less deeply nested expression" p.current.description p.current.pos) p

/-- Note the height of the expression just read. -/
def setHeight (height : Nat) : ParseM Unit := fun p => .ok () { p with height := height }

/-- Run a rule one level further inside; the level ends however the rule does. -/
def nested {α : Type} (rule : ParseM α) : ParseM α := fun p =>
  match rule { p with nesting := p.nesting + 1 } with
  | .ok a q => .ok a { q with nesting := q.nesting - 1 }
  | .error fault q => .error fault { q with nesting := q.nesting - 1 }

/-- The current token as a constant. -/
def constant : ParseM Expr := do
  let token ← advance
  match token.kind.constKind? with
  | none => throw (.internal (token.description ++ " is not a constant"))
  | some kind =>
      setHeight 1
      pure (.const kind token.lexeme)

/-- Start an expression; `operand` reads the expressions inside it. -/
def startBy (operand : Nat → ParseM Expr) : StartRule → ParseM Expr
  | .literal => constant
  | .name => do
      let v ← identifier
      setHeight 1
      pure (.var v)
  | .group => do
      expectMark .lparen
      let inner ← operand 0
      expectMark .rparen
      pure inner

/-- Continue the expression `left` by an operator and its right operand. -/
def continueBy (operand : Nat → ParseM Expr) (rule : ContinueRule) (left : Expr) : ParseM Expr := do
  let token ← advance
  match rule.operator? token.kind with
  | none => throw (.internal (token.kind.description ++ " is not " ++ rule.requirement))
  | some op =>
      let right ← operand op.power
      pure (.binary op left right)

/-- Take in the operators that bind tighter than `power`. Each makes the tree at least one
higher, so `maxDepth` is enough fuel. -/
def climbFuel (operand : Nat → ParseM Expr) (power : Nat) : Nat → Expr → Nat → ParseM Expr
  | 0, _, _ => failTooDeep
  | fuel + 1, left, height => do
      let token ← peek
      let rule := token.kind.exprRule
      if rule.power ≤ power then
        setHeight height
        pure left
      else
        match rule.continue? with
        | none => failExpected "an operator"
        | some continuation =>
            let whole ← continueBy operand continuation left
            let p ← get
            let height := 1 + max height p.height
            if maxDepth < height then failTooDeep
            else climbFuel operand power fuel whole height

/-- An operand and the operators after it that bind tighter than `power`. -/
def exprAt (operand : Nat → ParseM Expr) (power : Nat) : ParseM Expr := do
  let token ← peek
  match token.kind.exprRule.start? with
  | none => failExpected "an expression"
  | some rule =>
      let left ← startBy operand rule
      let p ← get
      climbFuel operand power maxDepth left p.height

/-- An expression when `levels` more may stand inside one another. -/
def exprWithin : Nat → Nat → ParseM Expr
  | 0, _ => failTooDeep
  | levels + 1, power => nested (exprAt (exprWithin levels) power)

/-- An expression whose operators bind tighter than `power`. -/
def expr (power : Nat) : ParseM Expr := fun p => exprWithin (maxDepth - p.nesting) power p

/-- Start an expression at the current token, whatever it is. -/
def start (rule : StartRule) : ParseM Expr := startBy expr rule

/-- Continue an expression at the current token, whatever it is. -/
def extend (rule : ContinueRule) (left : Expr) : ParseM Expr := continueBy expr rule left

/-- An expression and nothing after it. -/
def wholeExpr : ParseM Expr := do
  let e ← expr 0
  expectEnd
  pure e

end Parser

/-- Read a source that is one expression. -/
def Expr.parse (source : String) : Except Fault Expr :=
  Parser.read Parser.wholeExpr (Token.scan source)

end StateLang
