import StateLang.Token.Basic

/-!
# Faults

A fault ends a compilation. A lexical fault is a mismatch at an unknown
character, a grammar fault one at any other token; an internal fault says that
the compiler asked a rule for something the rule does not do.
-/

namespace StateLang

inductive Fault
  | lexical (lexeme expected : String) (pos : Position)
  | grammar (expected found : String) (pos : Position)
  | internal (detail : String)
  deriving DecidableEq, Repr

namespace Fault

/-- The place of the token at fault. -/
def pos? : Fault → Option Position
  | lexical _ _ pos => some pos
  | grammar _ _ pos => some pos
  | internal _ => none

/-- The text before a located message. -/
def located (pos : Position) (expected : String) : String :=
  "[" ++ toString pos.line ++ ":" ++ toString pos.col ++ "] expected " ++ expected ++ " but found "

def message : Fault → String
  | lexical lexeme expected pos => located pos expected ++ "lexical error '" ++ lexeme ++ "'"
  | grammar expected found pos => located pos expected ++ found
  | internal detail => "internal compiler error: " ++ detail

/-- The fault of finding `token` where `expected` should stand. -/
def mismatch (expected : String) (token : Token) : Fault :=
  if token.kind = .unknown then lexical token.lexeme expected token.pos
  else grammar expected token.description token.pos

end Fault

end StateLang
