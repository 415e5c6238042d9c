import StateLang.Operator
import StateLang.Text.Position

/-!
# Tokens

A token is a lexeme with its kind, its place in the token list and its position
in the source. Every source ends in one token of kind `endOfFile`; a character
that starts no lexeme is a token of kind `unknown`.
-/

namespace StateLang

inductive Keyword
  | name
  | platform
  | initial
  | state
  | goto
  | when
  | performing
  | exit
  | int
  | float
  | boolean
  | string
  | char
  deriving DecidableEq, Repr

/-- The spelling of a keyword. -/
def Keyword.word : Keyword → String
  | name => "name"
  | platform => "platform"
  | initial => "initial"
  | state => "state"
  | goto => "goto"
  | when => "when"
  | performing => "performing"
  | exit => "exit"
  | int => "int"
  | float => "float"
  | boolean => "boolean"
  | string => "string"
  | char => "char"

/-- The kinds of literal. The two truth values are literals of their own. -/
inductive Literal
  | int
  | float
  | string
  | char
  | true
  | false
  deriving DecidableEq, Repr

def Literal.word : Literal → String
  | int => "int"
  | float => "float"
  | string => "string"
  | char => "char"
  | true => "true"
  | false => "false"

inductive Punctuation
  | lparen
  | rparen
  | lbrace
  | rbrace
  | colon
  | comma
  | semicolon
  | assign
  deriving DecidableEq, Repr

def Punctuation.symbol : Punctuation → String
  | lparen => "("
  | rparen => ")"
  | lbrace => "\x7b"
  | rbrace => "\x7d"
  | colon => ":"
  | comma => ","
  | semicolon => ";"
  | assign => ":="

inductive Token.Kind
  | keyword (word : Keyword)
  | literal (sort : Literal)
  | identifier
  | punctuation (mark : Punctuation)
  | operator (op : BinaryOp)
  | endOfFile
  | unknown
  deriving DecidableEq, Repr

structure Token where
  kind : Token.Kind
  lexeme : String
  index : Nat
  pos : Position
  deriving DecidableEq, Repr

namespace Token

/-- What a message calls a token of this kind. -/
def Kind.description : Kind → String
  | keyword word => "'" ++ word.word ++ "'"
  | literal sort => sort.word ++ " const"
  | identifier => "variable name"
  | punctuation mark => "'" ++ mark.symbol ++ "'"
  | operator op => "'" ++ op.symbol ++ "'"
  | endOfFile => "end of file"
  | unknown => "lexical error"

/-- What a message calls this token: an unknown character is quoted. -/
def description (t : Token) : String :=
  match t.kind with
  | .unknown => "lexical error '" ++ t.lexeme ++ "'"
  | kind => kind.description

/-- The token that ends a token list, at position `pos` and place `index`. -/
def endAt (index : Nat) (pos : Position) : Token := ⟨.endOfFile, "", index, pos⟩

end Token

end StateLang
