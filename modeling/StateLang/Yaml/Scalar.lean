import StateLang.Yaml.Text

/-!
# Scalars

Plain scalars run over lines that are indented further; quoted ones run to
their closing quote; block scalars take the lines below their indicator. In the
first two a single line end inside counts as a blank.
-/

namespace StateLang.Yaml

/-! ## Plain scalars -/

def isFlowMark (c : Char) : Bool :=
  c = ',' || c = '[' || c = ']' || c = '\x7b' || c = '\x7d'

/-- A word of a plain scalar and what follows it. A colon ends it before a blank, a flow mark
inside a flow collection; there a colon must not touch a flow mark. -/
def plainWord? (inFlow : Bool) : List Char → Option (List Char × List Char)
  | [] => some ([], [])
  | c :: s =>
      let touching := match s with
        | [] => false
        | d :: _ => isFlowMark d || d = '?'
      if isSpace c then some ([], c :: s)
      else if inFlow && c = ':' && touching then none
      else if c = ':' && atSpace s then some ([], c :: s)
      else if inFlow && isFlowMark c then some ([], c :: s)
      else (plainWord? inFlow s).map fun (word, rest) => (c :: word, rest)

/-- Each round passes a word, so the length of the text is enough fuel. -/
def plainFuel (inFlow : Bool) (indent : Nat) :
    Nat → List Char → Join → Cursor → Option (List Char × Join × Cursor)
  | 0, text, join, c => some (text, join, c)
  | fuel + 1, text, join, c =>
      if c.atDocumentMarker || c.rest.head? = some '#' then some (text, join, c)
      else do
        let (word, _) ← plainWord? inFlow c.rest
        let c := c.skip word.length
        let text := if word.isEmpty then text else text ++ join.text ++ word
        let join := if word.isEmpty then join else .blanks []
        if c.rest.isEmpty || !atSpace c.rest then pure (text, join, c)
        else
          let (join, c) ← readJoin? indent c.rest c.line c.column join
          if !inFlow && c.column < indent then pure (text, join, c)
          else plainFuel inFlow indent fuel text join c

/-- A plain scalar, and whether a line ended after it. -/
def plain? (inFlow : Bool) (indent : Nat) (c : Cursor) : Option (List Char × Bool × Cursor) := do
  let (text, join, c) ← plainFuel inFlow indent (c.rest.length + 1) [] (.blanks []) c
  pure (text, join.isBreaks, c)

/-! ## Quoted scalars -/

/-- The character that a backslash and a letter stand for. -/
def escape? : Char → Option Char
  | '0' => some '\x00'
  | 'a' => some '\x07'
  | 'b' => some '\x08'
  | 't' => some '\t'
  | '\t' => some '\t'
  | 'n' => some '\n'
  | 'v' => some '\x0b'
  | 'f' => some '\x0c'
  | 'r' => some '\r'
  | 'e' => some '\x1b'
  | ' ' => some ' '
  | '"' => some '"'
  | '/' => some '/'
  | '\\' => some '\\'
  | 'N' => some '\u0085'
  | '_' => some '\u00A0'
  | 'L' => some '\u2028'
  | 'P' => some '\u2029'
  | _ => none

/-- How many hexadecimal digits follow a backslash and a letter. -/
def escapeDigits? : Char → Option Nat
  | 'x' => some 2
  | 'u' => some 4
  | 'U' => some 8
  | _ => none

def hexValue? (c : Char) : Option Nat :=
  if c.isDigit then some (c.toNat - 48)
  else if 'a' ≤ c && c ≤ 'f' then some (c.toNat - 87)
  else if 'A' ≤ c && c ≤ 'F' then some (c.toNat - 55)
  else none

/-- The number that hexadecimal digits denote. -/
def hexNumber? (digits : List Char) : Option Nat :=
  digits.foldlM (fun n c => (hexValue? c).map (n * 16 + ·)) 0

/-- The character of a number, if it is one. -/
def charOf? (n : Nat) : Option Char := if n.isValidChar then some (Char.ofNat n) else none

/-- What ends a run of characters of a quoted scalar. -/
inductive RunEnd
  | quote
  | space
  | escapedBreak

/-- One step inside quotes: the characters it gives and how many it passes, or the end. -/
inductive RunStep
  | take (text : List Char) (count : Nat)
  | stop (reason : RunEnd)

def singleStep? : List Char → Option RunStep
  | [] => some (.stop .space)
  | '\'' :: '\'' :: _ => some (.take ['\''] 2)
  | '\'' :: _ => some (.stop .quote)
  | c :: _ => some (if isSpace c then .stop .space else .take [c] 1)

def escapeStep? (c : Char) (s : List Char) : Option RunStep :=
  if isBreak c then some (.stop .escapedBreak)
  else
    match escape? c, escapeDigits? c with
    | some x, _ => some (.take [x] 2)
    | none, some count =>
        let digits := s.take count
        if digits.length < count then none
        else do
          let n ← hexNumber? digits
          let x ← charOf? n
          pure (.take [x] (count + 2))
    | none, none => none

def doubleStep? : List Char → Option RunStep
  | [] => some (.stop .space)
  | '"' :: _ => some (.stop .quote)
  | ['\\'] => none
  | '\\' :: c :: s => escapeStep? c s
  | c :: _ => some (if isSpace c then .stop .space else .take [c] 1)

/-- Each round passes a character, so the length of the text is enough fuel. -/
def runFuel (step? : List Char → Option RunStep) :
    Nat → List Char → Cursor → Option (List Char × RunEnd × Cursor)
  | 0, _, _ => none
  | fuel + 1, text, c => do
      match ← step? c.rest with
      | .stop reason => pure (text, reason, c)
      | .take more count => runFuel step? fuel (text ++ more) (c.skip count)

/-- Each round passes a run or the blanks after it, so the length of the text is enough fuel. -/
def quotedFuel (step? : List Char → Option RunStep) :
    Nat → List Char → Cursor → Option (List Char × Cursor)
  | 0, _, _ => none
  | fuel + 1, text, c =>
      if c.atDocumentMarker || c.rest.isEmpty then none
      else do
        let (run, reason, c) ← runFuel step? (c.rest.length + 1) [] c
        match reason with
        | .quote => pure (text ++ run, c.skip 1)
        | .space =>
            let (join, c) ← readJoin? 0 c.rest c.line c.column (.blanks [])
            quotedFuel step? fuel (text ++ run ++ join.text) c
        | .escapedBreak =>
            let c := (c.skip 1).skipBreak
            let (join, c) ← readJoin? 0 c.rest c.line c.column (.breaks none [])
            quotedFuel step? fuel (text ++ run ++ join.text) c

def singleQuoted? (c : Cursor) : Option (List Char × Cursor) :=
  quotedFuel singleStep? (c.rest.length + 1) [] (c.skip 1)

def doubleQuoted? (c : Cursor) : Option (List Char × Cursor) :=
  quotedFuel doubleStep? (c.rest.length + 1) [] (c.skip 1)

/-! ## Block scalars -/

/-- What happens to the line ends at the end of a block scalar. -/
inductive Chomping
  | strip
  | clip
  | keep
  deriving DecidableEq

def chomping? : Char → Option Chomping
  | '-' => some .strip
  | '+' => some .keep
  | _ => none

/-- An indentation digit and what follows; a zero is refused. -/
def indentDigit? : List Char → Option (Nat × List Char)
  | [] => some (0, [])
  | c :: s =>
      if c = '0' then none
      else if c.isDigit then some (c.toNat - 48, s)
      else some (0, c :: s)

/-- The two marks after the indicator, in either order: chomping, and the indentation if it is
given (else zero). -/
def blockMarks? (s : List Char) : Option (Chomping × Nat × List Char) :=
  match s with
  | [] => some (.clip, 0, [])
  | c :: rest =>
      match chomping? c with
      | some chomping => do
          let (indent, rest) ← indentDigit? rest
          pure (chomping, indent, rest)
      | none => do
          let (indent, rest) ← indentDigit? s
          if indent = 0 then pure (.clip, 0, rest)
          else
            match rest with
            | [] => pure (.clip, indent, [])
            | d :: more =>
                match chomping? d with
                | some chomping => pure (chomping, indent, more)
                | none => pure (.clip, indent, rest)

/-- Pass empty lines and the indentation of the next one. An indentation of zero is not known
yet: then all blanks are passed and the greatest column is noted. -/
def blockBreaksFuel (indent : Nat) :
    Nat → Nat → List Char → Cursor → Option (Nat × List Char × Cursor)
  | 0, widest, breaks, c => some (widest, breaks, c)
  | fuel + 1, widest, breaks, c =>
      let blanks := (c.rest.takeWhile (· = ' ')).length
      let c := c.skip (if indent = 0 then blanks else min blanks (indent - c.column))
      let widest := max widest c.column
      match c.rest with
      | [] => some (widest, breaks, c)
      | x :: _ =>
          if x = '\t' && (indent = 0 || c.column < indent) then none
          else if isBreak x then
            blockBreaksFuel indent fuel widest (breaks ++ [x]) c.skipBreak
          else some (widest, breaks, c)

def blockBreaks? (indent : Nat) (c : Cursor) : Option (Nat × List Char × Cursor) :=
  blockBreaksFuel indent (c.rest.length + 1) 0 [] c

/-- The lines of a block scalar. `ended` is the end of the line before, `breaks` the empty lines
after it, and `blankLine` tells whether that line started with a blank. -/
def blockLinesFuel (folded : Bool) (indent : Nat) :
    Nat → List Char → List Char → List Char → Bool → Cursor →
      Option (List Char × List Char × List Char × Cursor)
  | 0, text, ended, breaks, _, c => some (text, ended, breaks, c)
  | fuel + 1, text, ended, breaks, blankLine, c =>
      match c.rest with
      | [] => some (text, ended, breaks, c)
      | x :: _ =>
          if c.column ≠ indent then some (text, ended, breaks, c)
          else do
            let startsBlank := isBlank x
            let join :=
              if folded && ended.head? = some '\n' && !blankLine && !startsBlank then
                if breaks.isEmpty then [' '] else []
              else ended
            let line := c.rest.takeWhile (fun y => !isBreak y)
            let c := c.skip line.length
            let ended := c.rest.take 1
            let c := if c.rest.isEmpty then c else c.skipBreak
            let (_, more, c) ← blockBreaks? indent c
            blockLinesFuel folded indent fuel (text ++ join ++ breaks ++ line) ended more
              startsBlank c

/-- A block scalar inside a collection at column `outer - 1`. -/
def blockScalar? (folded : Bool) (outer : Nat) (c : Cursor) : Option (List Char × Cursor) := do
  let (chomping, given, rest) ← blockMarks? (c.rest.drop 1)
  let c := c.skip (c.rest.length - rest.length)
  let c := c.skipWhile isBlank
  let c := if c.rest.head? = some '#' then c.skipLine else c
  if !atLineEnd c.rest then none
  else
    let c := if c.rest.isEmpty then c else c.skipBreak
    let wanted := if given = 0 then 0 else (outer - 1) + given
    let (widest, breaks, c) ← blockBreaks? wanted c
    let indent := if wanted = 0 then max (max widest outer) 1 else wanted
    let (text, ended, breaks, c) ←
      blockLinesFuel folded indent (c.rest.length + 1) [] [] breaks false c
    let text := match chomping with
      | .strip => text
      | .clip => text ++ ended
      | .keep => text ++ ended ++ breaks
    pure (text, c)

end StateLang.Yaml
