import StateLang.Yaml.Token

/-!
# From YAML text to tokens

A mapping key needs no mark of its own: it is known for a key only when a colon
follows. So the scanner remembers where a key could have started, one place for
each flow collection it is in, and puts the key's tokens there later. A key
that needs no mark lies within one line and 1024 characters.
-/

namespace StateLang.Yaml

/-- A place at which a key may have started. -/
structure KeyStart where
  /-- At the indentation of a block mapping nothing but a key may stand. -/
  required : Bool
  /-- The number of tokens before it. -/
  place : Nat
  line : Nat
  column : Nat

structure Scanner where
  cursor : Cursor
  /-- The tokens found, the latest first. -/
  found : List Token
  /-- The columns of the open block collections, the innermost first. -/
  indents : List Nat
  /-- Where a key may have started in the innermost collection. -/
  key? : Option KeyStart
  /-- The same for the collections around each open flow collection. -/
  outerKeys : List (Option KeyStart)
  /-- A key may start here. -/
  keyAllowed : Bool

namespace Scanner

def ofChars (chars : List Char) : Scanner := ⟨⟨chars, 0, 0⟩, [], [], none, [], true⟩

def inFlow (s : Scanner) : Bool := !s.outerKeys.isEmpty

/-- The least column of what belongs to the innermost block. -/
def contentColumn (s : Scanner) : Nat := s.indents.head?.elim 0 (· + 1)

def push (s : Scanner) (token : Token) : Scanner := { s with found := token :: s.found }

def moveTo (s : Scanner) (c : Cursor) : Scanner := { s with cursor := c }

/-- Put a token in front of those that came after a place. -/
def insertAt (s : Scanner) (place : Nat) (token : Token) : Scanner :=
  let later := s.found.length - place
  { s with found := s.found.take later ++ token :: s.found.drop later }

/-- Open a block collection at a column, unless one is open there. -/
def openBlock (s : Scanner) (column place : Nat) (token : Token) : Scanner :=
  if s.inFlow || column < s.contentColumn then s
  else { s.insertAt place token with indents := column :: s.indents }

/-- Close the block collections that `test` selects by their columns, from the innermost out. -/
def closeBlocks (s : Scanner) (test : Nat → Bool) : Scanner :=
  if s.inFlow then s
  else
    let closed := (s.indents.takeWhile test).length
    { s with
      found := List.replicate closed .blockEnd ++ s.found
      indents := s.indents.drop closed }

def closeAllBlocks (s : Scanner) : Scanner := s.closeBlocks fun _ => true

/-- No key started here after all. -/
def dropKey? (s : Scanner) : Option Scanner :=
  match s.key? with
  | some key => if key.required then none else some { s with key? := none }
  | none => some s

/-- A key may start with the next token. -/
def noteKey? (s : Scanner) : Option Scanner :=
  if s.keyAllowed then do
    let required := !s.inFlow && s.indents.head? = some s.cursor.column
    let s ← s.dropKey?
    pure { s with key? := some ⟨required, s.found.length, s.cursor.line, s.cursor.column⟩ }
  else some s

/-- Whether a key that started there can still be one here. -/
def isFresh (s : Scanner) (key : KeyStart) : Bool :=
  key.line = s.cursor.line && s.cursor.column ≤ key.column + 1024

/-- Forget the places where a key can no longer have started. -/
def dropStaleKeys? (s : Scanner) : Option Scanner :=
  let keep (key? : Option KeyStart) : Option (Option KeyStart) :=
    match key? with
    | none => some none
    | some key =>
        if s.isFresh key then some (some key) else if key.required then none else some none
  do
    let key? ← keep s.key?
    let outerKeys ← s.outerKeys.mapM keep
    pure { s with key? := key?, outerKeys := outerKeys }

/-- Pass blanks, comments and line ends. Every round but the last passes a line end, so the
length of the text is enough fuel. -/
def skipSpaceFuel : Nat → Scanner → Scanner
  | 0, s => s
  | fuel + 1, s =>
      let c := s.cursor
      let c := if c.column = 0 && c.rest.head? = some byteOrderMark then c.skip 1 else c
      let tabs := s.inFlow || !s.keyAllowed
      let c := c.skipWhile fun x => x = ' ' || (tabs && x = '\t')
      let c := if c.rest.head? = some '#' then c.skipLine else c
      if c.rest.head?.any isBreak then
        skipSpaceFuel fuel { s with cursor := c.skipBreak, keyAllowed := s.keyAllowed || !s.inFlow }
      else s.moveTo c

def skipSpace (s : Scanner) : Scanner := skipSpaceFuel (s.cursor.rest.length + 1) s

/-! ## One token -/

def scanDocumentMark? (s : Scanner) (token : Token) : Option Scanner := do
  let s ← s.closeAllBlocks.dropKey?
  pure ({ s with keyAllowed := false, cursor := s.cursor.skip 3 }.push token)

def scanDirective? (s : Scanner) : Option Scanner := do
  let s ← s.closeAllBlocks.dropKey?
  let (token, c) ← readDirective? s.cursor
  pure ({ s with keyAllowed := false, cursor := c }.push token)

def scanFlowStart? (s : Scanner) (token : Token) : Option Scanner := do
  let s ← s.noteKey?
  pure ({ s with
    outerKeys := s.key? :: s.outerKeys
    key? := none
    keyAllowed := true
    cursor := s.cursor.skip 1 }.push token)

def scanFlowEnd? (s : Scanner) (token : Token) : Option Scanner := do
  let s ← s.dropKey?
  let s := match s.outerKeys with
    | [] => s
    | key? :: outer => { s with key? := key?, outerKeys := outer }
  pure ({ s with keyAllowed := false, cursor := s.cursor.skip 1 }.push token)

def scanFlowEntry? (s : Scanner) : Option Scanner := do
  let s ← s.dropKey?
  pure ({ s with keyAllowed := true, cursor := s.cursor.skip 1 }.push .flowEntry)

/-- An entry or a marked key opens a block collection where a key may start. -/
def openBlockHere? (s : Scanner) (token : Token) : Option Scanner :=
  if s.inFlow then some s
  else if s.keyAllowed then some (s.openBlock s.cursor.column s.found.length token)
  else none

def scanBlockEntry? (s : Scanner) : Option Scanner := do
  let s ← s.openBlockHere? .blockSequenceStart
  let s ← s.dropKey?
  pure ({ s with keyAllowed := true, cursor := s.cursor.skip 1 }.push .blockEntry)

def scanKey? (s : Scanner) : Option Scanner := do
  let s ← s.openBlockHere? .blockMappingStart
  let s ← s.dropKey?
  pure ({ s with keyAllowed := !s.inFlow, cursor := s.cursor.skip 1 }.push .key)

def scanValue? (s : Scanner) : Option Scanner := do
  let s ← match s.key? with
    | some key =>
        let s := s.insertAt key.place .key
        let s := s.openBlock key.column key.place .blockMappingStart
        some { s with key? := none, keyAllowed := false }
    | none => do
        let s ← s.openBlockHere? .blockMappingStart
        pure { s with keyAllowed := !s.inFlow }
  pure ((s.moveTo (s.cursor.skip 1)).push .value)

def scanNamed? (s : Scanner) (token : String → Token) : Option Scanner := do
  let s ← s.noteKey?
  let (name, c) ← readName? s.cursor
  pure ({ s with keyAllowed := false, cursor := c }.push (token name))

def scanTag? (s : Scanner) : Option Scanner := do
  let s ← s.noteKey?
  let (handle, c) ← readTag? s.inFlow s.cursor
  pure ({ s with keyAllowed := false, cursor := c }.push (.tag handle))

def scanBlockScalar? (s : Scanner) (folded : Bool) : Option Scanner := do
  let s ← s.dropKey?
  let (text, c) ← blockScalar? folded s.contentColumn s.cursor
  pure ({ s with keyAllowed := true, cursor := c }.push (.scalar (String.ofList text)))

def scanQuoted? (s : Scanner) (read? : Cursor → Option (List Char × Cursor)) : Option Scanner := do
  let s ← s.noteKey?
  let (text, c) ← read? s.cursor
  pure ({ s with keyAllowed := false, cursor := c }.push (.scalar (String.ofList text)))

def scanPlain? (s : Scanner) : Option Scanner := do
  let s ← s.noteKey?
  let (text, newLine, c) ← plain? s.inFlow s.contentColumn s.cursor
  pure ({ s with keyAllowed := newLine, cursor := c }.push (.scalar (String.ofList text)))

/-- Marks that start no plain scalar. -/
def isIndicator (c : Char) : Bool := "-?:,[]\x7b\x7d#&*!|>'\"%@`".toList.contains c

/-- A plain scalar may start with a dash, and outside flow collections with a question mark or a
colon, if no blank follows. -/
def startsPlain (s : Scanner) (c : Char) (rest : List Char) : Bool :=
  !(isSpace c || isIndicator c) || (c = '-' && !(rest.head?.any isBlank)) ||
    (!s.inFlow && (c = '?' || c = ':') && !atSpace rest)

/-- The token at a character, which is no blank, line end or comment. -/
def scanToken? (s : Scanner) (c : Char) (rest : List Char) : Option Scanner :=
  if s.cursor.column = 0 && c = '%' then s.scanDirective?
  else if s.cursor.atMarker '-' then s.scanDocumentMark? .documentStart
  else if s.cursor.atMarker '.' then s.scanDocumentMark? .documentEnd
  else if c = '[' then s.scanFlowStart? .flowSequenceStart
  else if c = '\x7b' then s.scanFlowStart? .flowMappingStart
  else if c = ']' then s.scanFlowEnd? .flowSequenceEnd
  else if c = '\x7d' then s.scanFlowEnd? .flowMappingEnd
  else if c = ',' then s.scanFlowEntry?
  else if c = '-' && atSpace rest then s.scanBlockEntry?
  else if c = '?' && (s.inFlow || atSpace rest) then s.scanKey?
  else if c = ':' && (s.inFlow || atSpace rest) then s.scanValue?
  else if c = '*' then s.scanNamed? .reference
  else if c = '&' then s.scanNamed? .anchor
  else if c = '!' then s.scanTag?
  else if c = '|' && !s.inFlow then s.scanBlockScalar? false
  else if c = '>' && !s.inFlow then s.scanBlockScalar? true
  else if c = '\'' then s.scanQuoted? singleQuoted?
  else if c = '"' then s.scanQuoted? doubleQuoted?
  else if s.startsPlain c rest then s.scanPlain?
  else none

/-- Every token passes a character, so the length of the text is enough fuel. -/
def scanFuel : Nat → Scanner → Option (List Token)
  | 0, _ => none
  | fuel + 1, s => do
      let s ← s.skipSpace.dropStaleKeys?
      let s := s.closeBlocks fun column => s.cursor.column < column
      match s.cursor.rest with
      | [] => do
          let s ← s.closeAllBlocks.dropKey?
          pure s.found.reverse
      | c :: rest => do
          let s ← s.scanToken? c rest
          scanFuel fuel s

end Scanner

/-- The tokens of a text, if it is well formed so far. -/
def scan? (text : String) : Option (List Token) := do
  let chars ← prepare? text
  Scanner.scanFuel (chars.length + 1) (.ofChars chars)

end StateLang.Yaml
