/-!
# Positions in a text

A position is a line and a column, both counted from one. A column counts
characters, and a line ends at a line feed and nowhere else: a carriage return
and a tab are one column each.
-/

namespace StateLang

structure Position where
  line : Nat
  col : Nat
  deriving DecidableEq, Repr

namespace Position

/-- The position of the first character. -/
def start : Position := ⟨1, 1⟩

/-- The position right after the character `c` that stands at `p`. -/
def step (p : Position) (c : Char) : Position :=
  if c = '\n' then ⟨p.line + 1, 1⟩ else ⟨p.line, p.col + 1⟩

/-- The position right after the text `s` that starts at `p`. -/
def after (p : Position) (s : List Char) : Position := s.foldl step p

@[simp] theorem after_nil (p : Position) : p.after [] = p := rfl

@[simp] theorem after_cons (p : Position) (c : Char) (s : List Char) :
    p.after (c :: s) = (p.step c).after s := rfl

theorem after_append (p : Position) (s t : List Char) :
    p.after (s ++ t) = (p.after s).after t := List.foldl_append

end Position

end StateLang
