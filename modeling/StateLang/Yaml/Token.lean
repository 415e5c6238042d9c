import StateLang.Yaml.Scalar

/-!
# YAML tokens

The structure of a text as a list of tokens: the starts and ends of blocks are
tokens too, found from the indentation.
-/

namespace StateLang.Yaml

inductive Token
  | version (major minor : Nat)
  | tagHandle (handle : String)
  | documentStart
  | documentEnd
  | blockSequenceStart
  | blockMappingStart
  | blockEnd
  | flowSequenceStart
  | flowSequenceEnd
  | flowMappingStart
  | flowMappingEnd
  | blockEntry
  | flowEntry
  | key
  | value
  | reference (name : String)
  | anchor (name : String)
  | tag (handle : String)
  | scalar (text : String)
  deriving DecidableEq, Repr

/-! ## Names, tags and directives -/

def isNameChar (c : Char) : Bool := c.isAlphanum || c = '_' || c = '-'

/-- The name after the mark of an anchor or an alias. -/
def readName? (c : Cursor) : Option (String × Cursor) :=
  let name := (c.rest.drop 1).takeWhile isNameChar
  let c := c.skip (name.length + 1)
  let ends := match c.rest with
    | [] => true
    | x :: _ => isSpace x || "?:,]\x7d%@`".toList.contains x
  if !name.isEmpty && ends then some (String.ofList name, c) else none

def isUriChar (c : Char) : Bool := isNameChar c || ";/?:@&=+$.%!~*'()".toList.contains c

/-- Every percent sign starts an escape of two hexadecimal digits. -/
def escapesValid : List Char → Bool
  | [] => true
  | '%' :: a :: b :: s => (hexValue? a).isSome && (hexValue? b).isSome && escapesValid s
  | c :: s => c ≠ '%' && escapesValid s

/-- Pass the characters of a tag or of a tag's meaning. -/
def skipUri? (isChar : Char → Bool) (c : Cursor) : Option (Nat × Cursor) :=
  let uri := c.rest.takeWhile isChar
  if escapesValid uri then some (uri.length, c.skip uri.length) else none

/-- A tag's handle and its length: `!`, `!!` or `!name!`. -/
def tagHandle (s : List Char) : String × Nat :=
  let name := (s.drop 1).takeWhile isNameChar
  if (s.drop (name.length + 1)).head? = some '!' then
    (String.ofList ('!' :: name ++ ['!']), name.length + 2)
  else ("!", 1)

/-- A tag; only its handle is kept. A tag in angle brackets has none. -/
def readTag? (inFlow : Bool) (c : Cursor) : Option (String × Cursor) := do
  let (handle, c) ←
    if (c.rest.drop 1).head? = some '<' then do
      let (count, c) ← skipUri? (fun x => isUriChar x || x = ',' || x = '[' || x = ']') (c.skip 2)
      if count = 0 || c.rest.head? ≠ some '>' then none else pure ("", c.skip 1)
    else do
      let (handle, length) := tagHandle c.rest
      let (count, c) ← skipUri? isUriChar (c.skip length)
      if count = 0 && handle ≠ "!" then none else pure (handle, c)
  let ends := atSpace c.rest || (inFlow && c.rest.head? = some ',')
  if ends then pure (handle, c) else none

/-- A number of at most nine digits. -/
def readNumber? (c : Cursor) : Option (Nat × Cursor) :=
  let digits := c.rest.takeWhile Char.isDigit
  if digits.isEmpty || 9 < digits.length then none
  else some (digits.foldl (fun n x => n * 10 + (x.toNat - 48)) 0, c.skip digits.length)

def readVersion? (c : Cursor) : Option (Token × Cursor) := do
  let (major, c) ← readNumber? (c.skipWhile isBlank)
  if c.rest.head? ≠ some '.' then none
  else
    let (minor, c) ← readNumber? (c.skip 1)
    pure (.version major minor, c)

def readTagDirective? (c : Cursor) : Option (Token × Cursor) := do
  let c := c.skipWhile isBlank
  if c.rest.head? ≠ some '!' then none
  else
    let (handle, length) := tagHandle c.rest
    let c := c.skip length
    if !(c.rest.head?.any isBlank) then none
    else
      let (count, c) ← skipUri? (fun x => isUriChar x || x = ',' || x = '[' || x = ']')
        (c.skipWhile isBlank)
      if count = 0 || !atSpace c.rest then none else pure (.tagHandle handle, c)

/-- A line that starts with a percent sign: the version, or the meaning of a tag handle. -/
def readDirective? (c : Cursor) : Option (Token × Cursor) := do
  let name := (c.rest.drop 1).takeWhile isNameChar
  let c := c.skip (name.length + 1)
  if !atSpace c.rest then none
  else
    let (token, c) ←
      if name = "YAML".toList then readVersion? c
      else if name = "TAG".toList then readTagDirective? c
      else none
    let c := c.skipWhile isBlank
    let c := if c.rest.head? = some '#' then c.skipLine else c
    if !atLineEnd c.rest then none
    else pure (token, if c.rest.isEmpty then c else c.skipBreak)

end StateLang.Yaml
