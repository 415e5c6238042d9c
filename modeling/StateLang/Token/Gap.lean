import StateLang.Text.Position

/-!
# Gaps between tokens

A gap is any sequence of blanks, block comments and line comments. A block
comment runs to the first `*/` after its opening; without one it is no comment
and the gap ends before it. A line comment runs through the first line feed or
carriage return, or to the end of the text.
-/

namespace StateLang

/-- A place in a text: its position and what follows. -/
structure TextCursor where
  pos : Position
  rest : List Char
  deriving DecidableEq, Repr

namespace Token.Gap

def isBlank (c : Char) : Bool := c = '\n' || c = '\t' || c = '\r' || c = ' '

def isLineEnd (c : Char) : Bool := c = '\n' || c = '\r'

/-- What the part of the gap just entered is. A block comment remembers where it
opened, since the gap ends there if nothing closes it. -/
inductive Part
  | blank
  | line
  | block (opening : TextCursor)
  deriving DecidableEq, Repr

/-- Cross the rest of a gap from within one of its parts. -/
def crossFrom : Part → Position → List Char → TextCursor
  | .blank, p, [] => ⟨p, []⟩
  | .blank, p, '/' :: '*' :: s =>
      crossFrom (.block ⟨p, '/' :: '*' :: s⟩) ((p.step '/').step '*') s
  | .blank, p, '/' :: '/' :: s => crossFrom .line ((p.step '/').step '/') s
  | .blank, p, c :: s => if isBlank c then crossFrom .blank (p.step c) s else ⟨p, c :: s⟩
  | .line, p, [] => ⟨p, []⟩
  | .line, p, c :: s => crossFrom (if isLineEnd c then .blank else .line) (p.step c) s
  | .block opening, _, [] => opening
  | .block _, p, '*' :: '/' :: s => crossFrom .blank ((p.step '*').step '/') s
  | .block opening, p, c :: s => crossFrom (.block opening) (p.step c) s

/-- The place after the longest gap that starts at a place. -/
def cross (cursor : TextCursor) : TextCursor := crossFrom .blank cursor.pos cursor.rest

end Token.Gap

end StateLang
