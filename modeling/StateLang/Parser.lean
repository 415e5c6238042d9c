import StateLang.Expr.Basic
import StateLang.Fault

/-!
# The state of a parser

A parser stands at one token of a list that ends in `endOfFile`. It moves
forward only, and never past an `endOfFile`. Besides its place it knows how
many expressions it is in the middle of, and the height of the expression that
a rule gave last. The state outlives a fault: a rule that fails leaves the
parser where it met the mismatch.
-/

namespace StateLang

structure Parser where
  /-- The tokens behind the parser, the latest first. -/
  passed : List Token
  current : Token
  upcoming : List Token
  /-- How many expressions are being read, one inside the other. -/
  nesting : Nat
  /-- The height of the expression read last. -/
  height : Nat
  deriving DecidableEq, Repr

/-- A rule of the parser. -/
abbrev ParseM := EStateM Fault Parser

namespace Parser

/-- The token list with an `endOfFile` added, at the last token's position, if it has none at
its end. -/
def terminated (tokens : List Token) : List Token :=
  match tokens.getLast? with
  | none => [Token.endAt 0 .start]
  | some last =>
      if last.kind = .endOfFile then tokens
      else tokens ++ [Token.endAt tokens.length last.pos]

/-- A parser at the start of a token list. -/
def ofTokens (tokens : List Token) : Parser :=
  match terminated tokens with
  | [] => ⟨[], Token.endAt 0 .start, [], 0, 0⟩
  | first :: rest => ⟨[], first, rest, 0, 0⟩

/-- All tokens of the list, behind and ahead. -/
def tokens (p : Parser) : List Token := p.passed.reverse ++ p.current :: p.upcoming

/-- The place of the current token in the list. -/
def cursor (p : Parser) : Nat := p.passed.length

/-- The parser one token further, unless it stands at the end. -/
def next (p : Parser) : Parser :=
  if p.current.kind = .endOfFile then p
  else
    match p.upcoming with
    | [] => p
    | token :: rest => { p with passed := p.current :: p.passed, current := token, upcoming := rest }

def peek : ParseM Token := fun p => .ok p.current p

/-- Pass the current token and give it back. -/
def advance : ParseM Token := fun p => .ok p.current p.next

/-- Fail at the current token. -/
def failExpected {α : Type} (expected : String) : ParseM α :=
  fun p => .error (.mismatch expected p.current) p

/-- Pass a token of the given kind, or fail at the current one. -/
def expect (kind : Token.Kind) : ParseM Token := do
  let token ← peek
  if token.kind = kind then advance else failExpected kind.description

/-- Pass a token of the given kind if the parser stands at one. -/
def accept (kind : Token.Kind) : ParseM Bool := do
  let token ← peek
  if token.kind = kind then
    let _ ← advance
    pure true
  else pure false

def expectKeyword (word : Keyword) : ParseM Unit := do
  let _ ← expect (.keyword word)

def expectMark (mark : Punctuation) : ParseM Unit := do
  let _ ← expect (.punctuation mark)

/-- The end of the token list. -/
def expectEnd : ParseM Unit := do
  let _ ← expect .endOfFile

/-- A name. -/
def identifier : ParseM Variable := do
  let token ← expect .identifier
  pure (.ofName token.lexeme)

/-- Read items up to a token at which the list stops. Every item passes a token, so the tokens
from the current one on are enough fuel. -/
def itemsFuel {α : Type} (stop : Token.Kind → Bool) (item : ParseM α) :
    List Token → ParseM (List α)
  | [] => pure []
  | _ :: fuel => do
      let token ← peek
      if stop token.kind then pure []
      else
        let first ← item
        let rest ← itemsFuel stop item fuel
        pure (first :: rest)

def items {α : Type} (stop : Token.Kind → Bool) (item : ParseM α) : ParseM (List α) :=
  fun p => itemsFuel stop item (p.current :: p.upcoming) p

/-- The answer of a rule that reads a whole token list. -/
def read {α : Type} (rule : ParseM α) (tokens : List Token) : Except Fault α :=
  match rule (ofTokens tokens) with
  | .ok a _ => .ok a
  | .error fault _ => .error fault

end Parser

end StateLang
