import StateLang.Token.Basic

/-!
# Lexeme patterns

Each kind of token has a pattern, and the table lists the patterns in order of
preference. The lexeme at the start of a text is the longest prefix that any
pattern accepts; of two patterns that accept it the earlier one gives the kind.
So a keyword is a keyword only as a whole word, and `1.5` is one number.
-/

namespace StateLang.Token

/-- The shapes of lexemes. -/
inductive Pattern
  /-- Exactly these characters. -/
  | exactly (text : List Char)
  /-- One or more digits. -/
  | digits
  /-- Digits, a point and at least one digit; the part before the point may be empty. -/
  | decimal
  /-- Anything but the quote mark, line ends included, between two of them. -/
  | quoted (mark : Char)
  /-- A letter or underscore, then letters, digits and underscores. -/
  | identifier
  deriving DecidableEq, Repr

def isLetter (c : Char) : Bool := c.isAlpha || c = '_'

def isWordChar (c : Char) : Bool := c.isAlphanum || c = '_'

namespace Pattern

/-- The length of the longest prefix of a text that the pattern accepts, or zero. -/
def matchLength : Pattern → List Char → Nat
  | exactly text, s => if text.isPrefixOf s then text.length else 0
  | digits, s => (s.takeWhile Char.isDigit).length
  | decimal, s =>
      match s.dropWhile Char.isDigit with
      | '.' :: rest =>
          match rest.takeWhile Char.isDigit with
          | [] => 0
          | fraction => (s.takeWhile Char.isDigit).length + 1 + fraction.length
      | _ => 0
  | quoted mark, s =>
      match s with
      | [] => 0
      | c :: rest =>
          if c = mark then
            let body := rest.takeWhile (· ≠ mark)
            if body.length < rest.length then body.length + 2 else 0
          else 0
  | identifier, s =>
      match s with
      | [] => 0
      | c :: rest => if isLetter c then (rest.takeWhile isWordChar).length + 1 else 0

end Pattern

def keywordEntry (word : Keyword) : Kind × Pattern := (.keyword word, .exactly word.word.toList)

def punctuationEntry (mark : Punctuation) : Kind × Pattern :=
  (.punctuation mark, .exactly mark.symbol.toList)

def operatorEntry (op : BinaryOp) : Kind × Pattern := (.operator op, .exactly op.symbol.toList)

/-- The patterns of all kinds, the preferred ones first. -/
def patterns : List (Kind × Pattern) :=
  [(.literal .float, .decimal), (.literal .int, .digits),
    (.literal .string, .quoted '"'), (.literal .char, .quoted '\'')] ++
  [Keyword.name, .platform, .initial, .state, .goto, .when, .performing, .exit,
    .int, .float, .boolean, .string, .char].map keywordEntry ++
  [(.literal .true, .exactly "true".toList), (.literal .false, .exactly "false".toList),
    (.identifier, .identifier)] ++
  [Punctuation.lparen, .rparen, .lbrace, .rbrace].map punctuationEntry ++
  [CompareOp.le, .ge, .lt, .gt].map (fun op => operatorEntry (.compare op)) ++
  [Punctuation.comma, .colon, .semicolon, .assign].map punctuationEntry ++
  [ArithOp.add, .mul, .sub, .div].map (fun op => operatorEntry (.arith op)) ++
  [CompareOp.eq, .ne].map (fun op => operatorEntry (.compare op))

/-- Keep the match found so far unless the next pattern reaches strictly further. -/
def longer (s : List Char) (best : Option (Kind × Nat)) (entry : Kind × Pattern) :
    Option (Kind × Nat) :=
  let reach := entry.2.matchLength s
  if best.elim 0 Prod.snd < reach then some (entry.1, reach) else best

/-- The kind and length of the lexeme at the start of a text, if a pattern accepts one. -/
def longestMatch (s : List Char) : Option (Kind × Nat) := patterns.foldl (longer s) none

end StateLang.Token
