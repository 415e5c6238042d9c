import StateLang.Expr.Parser
import StateLang.Program.Basic

/-!
# Reading programs

One rule per production; the first mismatch ends the reading.

    program     = "name" ":" identifier ";" platform declaration* state* end
    platform    = "platform" ":" identifier ";"
    declaration = type identifier ";"
    state       = ["initial"] "state" ":" identifier "{" transition* "}"
    transition  = ("goto" identifier | "exit") "when" expression
                  "performing" "{" assignment* "}" ";"
    assignment  = identifier ":=" expression ";"
-/

namespace StateLang

/-- The type that a keyword names. -/
def VarType.ofKind? : Token.Kind → Option VarType
  | .keyword .int => some .int
  | .keyword .float => some .float
  | .keyword .boolean => some .boolean
  | .keyword .string => some .string
  | .keyword .char => some .char
  | _ => none

namespace Parser

def varType : ParseM VarType := do
  let token ← peek
  match VarType.ofKind? token.kind with
  | none => failExpected "a type"
  | some type =>
      let _ ← advance
      pure type

def declaration : ParseM Declaration := do
  let type ← varType
  let name ← identifier
  expectMark .semicolon
  pure ⟨type, name⟩

/-- Declarations run until the first state or the end. -/
def declarations : ParseM (List Declaration) :=
  items (fun kind => kind = .keyword .initial || kind = .keyword .state || kind = .endOfFile)
    declaration

def assignment : ParseM Assignment := do
  let target ← identifier
  expectMark .assign
  let value ← expr 0
  expectMark .semicolon
  pure ⟨target, value⟩

def assignments : ParseM (List Assignment) :=
  items (fun kind => kind = .punctuation .rbrace) assignment

def destination : ParseM Destination := do
  let isGoto ← accept (.keyword .goto)
  if isGoto then
    let target ← identifier
    pure (.goto target)
  else
    expectKeyword .exit
    pure .exit

def transition : ParseM Transition := do
  let destination ← destination
  expectKeyword .when
  let guard ← expr 0
  expectKeyword .performing
  expectMark .lbrace
  let body ← assignments
  expectMark .rbrace
  expectMark .semicolon
  pure ⟨guard, body, destination⟩

def transitions : ParseM (List Transition) :=
  items (fun kind => kind = .punctuation .rbrace) transition

def state : ParseM State := do
  let isInitial ← accept (.keyword .initial)
  expectKeyword .state
  expectMark .colon
  let name ← identifier
  expectMark .lbrace
  let transitions ← transitions
  expectMark .rbrace
  pure ⟨name, transitions, isInitial⟩

def states : ParseM (List State) := items (fun kind => kind = .endOfFile) state

def platform : ParseM Variable := do
  expectKeyword .platform
  expectMark .colon
  let name ← identifier
  expectMark .semicolon
  pure name

def program : ParseM Program := do
  expectKeyword .name
  expectMark .colon
  let name ← identifier
  expectMark .semicolon
  let platform ← platform
  let declarations ← declarations
  let states ← states
  expectEnd
  pure ⟨name, platform, declarations, states⟩

end Parser

/-- Read a source that is one program. -/
def Program.parse (source : String) : Except Fault Program :=
  Parser.read Parser.program (Token.scan source)

end StateLang
