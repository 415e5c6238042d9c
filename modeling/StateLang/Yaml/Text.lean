/-!
# The characters of a YAML text

A text is read with all line ends alike: a carriage return, with or without a
line feed after it, and a next-line character count as a line feed. The line
and paragraph separators end lines too, but stay what they are. Control
characters other than tabs and line ends are refused.
-/

namespace StateLang.Yaml

def isBreak (c : Char) : Bool := c = '\n' || c = '\u2028' || c = '\u2029'

def isBlank (c : Char) : Bool := c = ' ' || c = '\t'

def isSpace (c : Char) : Bool := isBlank c || isBreak c

/-- A blank, a line end or the end of the text comes next. -/
def atSpace : List Char → Bool
  | [] => true
  | c :: _ => isSpace c

/-- A line end or the end of the text comes next. -/
def atLineEnd : List Char → Bool
  | [] => true
  | c :: _ => isBreak c

/-- The mark that may stand at the very front of a text. -/
def byteOrderMark : Char := '\uFEFF'

/-- Characters that a text may hold. -/
def isPrintable (c : Char) : Bool :=
  c = '\t' || c = '\n' || c = '\r' || c = '\u0085' || (' ' ≤ c && c ≤ '~') ||
    ('\u00A0' ≤ c && c ≠ '\uFFFE' && c ≠ '\uFFFF')

/-- Make all line ends line feeds. -/
def unifyBreaks : List Char → List Char
  | [] => []
  | '\r' :: '\n' :: s => '\n' :: unifyBreaks s
  | c :: s => (if c = '\r' || c = '\u0085' then '\n' else c) :: unifyBreaks s

/-- The characters of a text ready to be read, if all of them are allowed. -/
def prepare? (text : String) : Option (List Char) :=
  let chars := match text.toList with
    | [] => []
    | c :: s => if c = byteOrderMark then s else c :: s
  if chars.all isPrintable then some (unifyBreaks chars) else none

/-- A place in a text. Lines and columns count from zero. -/
structure Cursor where
  rest : List Char
  line : Nat
  column : Nat

namespace Cursor

/-- Pass characters of one line. -/
def skip (c : Cursor) (count : Nat) : Cursor :=
  { c with rest := c.rest.drop count, column := c.column + count }

/-- Pass a line end. -/
def skipBreak (c : Cursor) : Cursor := ⟨c.rest.drop 1, c.line + 1, 0⟩

/-- Pass the characters of a line that satisfy a test. -/
def skipWhile (c : Cursor) (test : Char → Bool) : Cursor := c.skip (c.rest.takeWhile test).length

/-- Pass the rest of the line, but not its end. -/
def skipLine (c : Cursor) : Cursor := c.skipWhile (fun x => !isBreak x)

/-- A line of three equal marks starts or ends a document. -/
def atMarker (c : Cursor) (mark : Char) : Bool :=
  match c.rest with
  | x :: y :: z :: s => c.column = 0 && x = mark && y = mark && z = mark && atSpace s
  | _ => false

def atDocumentMarker (c : Cursor) : Bool := c.atMarker '-' || c.atMarker '.'

end Cursor

/-- What stands between two words of a scalar: blanks of one line, or line ends. The first line
end may be an escaped one, which leaves nothing. -/
inductive Join
  | blanks (text : List Char)
  | breaks (first : Option Char) (more : List Char)

namespace Join

/-- The text that the words are joined by: a single line feed is folded into a blank. -/
def text : Join → List Char
  | blanks text => text
  | breaks none more => more
  | breaks (some '\n') [] => [' ']
  | breaks (some '\n') more => more
  | breaks (some c) more => c :: more

def isBreaks : Join → Bool
  | blanks _ => false
  | breaks _ _ => true

def addBlank (c : Char) : Join → Join
  | blanks text => blanks (text ++ [c])
  | breaks first more => breaks first more

def addBreak (c : Char) : Join → Join
  | blanks _ => breaks (some c) []
  | breaks first more => breaks first (more ++ [c])

end Join

/-- Pass blanks and line ends. A tab before column `indent` of a fresh line is refused. -/
def readJoin? (indent : Nat) : List Char → Nat → Nat → Join → Option (Join × Cursor)
  | [], line, column, join => some (join, ⟨[], line, column⟩)
  | c :: s, line, column, join =>
      if isBlank c then
        if join.isBreaks && column < indent && c = '\t' then none
        else readJoin? indent s line (column + 1) (join.addBlank c)
      else if isBreak c then readJoin? indent s (line + 1) 0 (join.addBreak c)
      else some (join, ⟨c :: s, line, column⟩)

end StateLang.Yaml
