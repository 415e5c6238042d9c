import StateLang.Program.Basic
import StateLang.Proofs.Expr.Grammar
import StateLang.Proofs.Parser

/-!
# The grammar of programs

One predicate per production: which tokens form which tree. Lists keep the
order of their phrases, a state is initial exactly where the word is written,
and every name is read without an origin.
-/

namespace StateLang

open StateLang.Parser (Many)

/-- `type identifier ";"` -/
inductive Declaration.Phrase : List Token → Declaration → Prop
  | mk {typeWord name semicolon : Token} {word : Keyword} {type : VarType}
      (htype : typeWord.kind = .keyword word) (hword : word.word = type.word)
      (hname : name.kind = .identifier) (hsemicolon : semicolon.kind = .punctuation .semicolon) :
      Phrase [typeWord, name, semicolon] ⟨type, .ofName name.lexeme⟩

/-- `identifier ":=" expression ";"` -/
inductive Assignment.Phrase : List Token → Assignment → Prop
  | mk {target assign semicolon : Token} {ts : List Token} {value : Expr}
      (htarget : target.kind = .identifier) (hassign : assign.kind = .punctuation .assign)
      (hvalue : value.Phrase ts) (hsemicolon : semicolon.kind = .punctuation .semicolon) :
      Phrase (target :: assign :: (ts ++ [semicolon])) ⟨.ofName target.lexeme, value⟩

/-- `"goto" identifier | "exit"` -/
inductive Destination.Phrase : List Token → Destination → Prop
  | goto {word target : Token} (hword : word.kind = .keyword .goto)
      (htarget : target.kind = .identifier) :
      Phrase [word, target] (.goto (.ofName target.lexeme))
  | exit {word : Token} (hword : word.kind = .keyword .exit) : Phrase [word] .exit

/-- `destination "when" expression "performing" "{" assignment* "}" ";"` -/
inductive Transition.Phrase : List Token → Transition → Prop
  | mk {when performing opening closing semicolon : Token} {ds gs bs : List Token}
      {destination : Destination} {guard : Expr} {body : List Assignment}
      (hdestination : destination.Phrase ds) (hwhen : when.kind = .keyword .when)
      (hguard : guard.Phrase gs) (hperforming : performing.kind = .keyword .performing)
      (hopening : opening.kind = .punctuation .lbrace) (hbody : Many Assignment.Phrase bs body)
      (hclosing : closing.kind = .punctuation .rbrace)
      (hsemicolon : semicolon.kind = .punctuation .semicolon) :
      Phrase (ds ++ when :: (gs ++ performing :: opening :: (bs ++ [closing, semicolon])))
        ⟨guard, body, destination⟩

/-- `["initial"]` -/
inductive InitialMark : List Token → Bool → Prop
  | written {word : Token} (hword : word.kind = .keyword .initial) : InitialMark [word] true
  | absent : InitialMark [] false

/-- `["initial"] "state" ":" identifier "{" transition* "}"` -/
inductive State.Phrase : List Token → State → Prop
  | mk {word colon name opening closing : Token} {ms ts : List Token} {isInitial : Bool}
      {transitions : List Transition} (hinitial : InitialMark ms isInitial)
      (hword : word.kind = .keyword .state) (hcolon : colon.kind = .punctuation .colon)
      (hname : name.kind = .identifier) (hopening : opening.kind = .punctuation .lbrace)
      (htransitions : Many Transition.Phrase ts transitions)
      (hclosing : closing.kind = .punctuation .rbrace) :
      Phrase (ms ++ word :: colon :: name :: opening :: (ts ++ [closing]))
        ⟨.ofName name.lexeme, transitions, isInitial⟩

/-- `"platform" ":" identifier ";"` -/
inductive PlatformPhrase : List Token → Variable → Prop
  | mk {word colon name semicolon : Token} (hword : word.kind = .keyword .platform)
      (hcolon : colon.kind = .punctuation .colon) (hname : name.kind = .identifier)
      (hsemicolon : semicolon.kind = .punctuation .semicolon) :
      PlatformPhrase [word, colon, name, semicolon] (.ofName name.lexeme)

/-- `"name" ":" identifier ";" platform declaration* state*`, without the end. -/
inductive Program.Body : List Token → Program → Prop
  | mk {word colon name semicolon : Token} {ps ds ss : List Token} {platform : Variable}
      {declarations : List Declaration} {states : List State}
      (hword : word.kind = .keyword .name) (hcolon : colon.kind = .punctuation .colon)
      (hname : name.kind = .identifier) (hsemicolon : semicolon.kind = .punctuation .semicolon)
      (hplatform : PlatformPhrase ps platform)
      (hdeclarations : Many Declaration.Phrase ds declarations)
      (hstates : Many State.Phrase ss states) :
      Body (word :: colon :: name :: semicolon :: (ps ++ (ds ++ ss)))
        ⟨.ofName name.lexeme, platform, declarations, states⟩

/-- A program and the end after it. -/
inductive Program.Phrase : List Token → Program → Prop
  | mk {ts : List Token} {last : Token} {program : Program} (hbody : program.Body ts)
      (hlast : last.kind = .endOfFile) : Phrase (ts ++ [last]) program

end StateLang
