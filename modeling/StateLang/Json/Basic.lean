/-!
# JSON values and their text

Fields stand in the order in which they are given. The compact text has no
blanks; the indented one puts every item and field on a line of its own, two
blanks further in, and leaves an empty list or object on one line.
-/

namespace StateLang

inductive Json
  | null
  | bool (value : Bool)
  | num (value : Nat)
  | str (text : String)
  | arr (items : List Json)
  | obj (fields : List (String × Json))

namespace Json

/-- A value under the name of its variant. -/
def variant (name : String) (payload : Json) : Json := obj [(name, payload)]

/-- One hexadecimal digit, in lower case. -/
def hexDigit (n : Nat) : Char := if n < 10 then Char.ofNat (48 + n) else Char.ofNat (87 + n)

/-- A character inside a quoted text: the quote, the backslash and the control characters are
escaped, all others stand for themselves. -/
def escapeChar (c : Char) : List Char :=
  if c = '"' then ['\\', '"']
  else if c = '\\' then ['\\', '\\']
  else if c = '\x08' then ['\\', 'b']
  else if c = '\x0c' then ['\\', 'f']
  else if c = '\n' then ['\\', 'n']
  else if c = '\r' then ['\\', 'r']
  else if c = '\t' then ['\\', 't']
  else if c.toNat < 32 then ['\\', 'u', '0', '0', hexDigit (c.toNat / 16), hexDigit (c.toNat % 16)]
  else [c]

def quote (text : String) : String :=
  "\"" ++ String.ofList (text.toList.flatMap escapeChar) ++ "\""

mutual

/-- Write the compact text of a value behind `out`. -/
def appendCompact (out : String) : Json → String
  | null => out ++ "null"
  | bool value => out ++ (if value then "true" else "false")
  | num value => out ++ toString value
  | str text => out ++ quote text
  | arr [] => out ++ "[]"
  | arr (first :: rest) => appendCompactItems (appendCompact (out ++ "[") first) rest ++ "]"
  | obj [] => out ++ "\x7b\x7d"
  | obj (first :: rest) =>
      appendCompactFields (appendCompactField (out ++ "\x7b") first) rest ++ "\x7d"

def appendCompactItems (out : String) : List Json → String
  | [] => out
  | first :: rest => appendCompactItems (appendCompact (out ++ ",") first) rest

def appendCompactField (out : String) : String × Json → String
  | (name, value) => appendCompact (out ++ quote name ++ ":") value

def appendCompactFields (out : String) : List (String × Json) → String
  | [] => out
  | first :: rest => appendCompactFields (appendCompactField (out ++ ",") first) rest

end

/-- The text without blanks. -/
def compact (value : Json) : String := appendCompact "" value

/-- A new line, `depth` steps in. -/
def newLine (depth : Nat) : String := "\n" ++ String.ofList (List.replicate (2 * depth) ' ')

mutual

/-- Write the indented text of a value, `depth` steps in, behind `out`. -/
def appendPretty (depth : Nat) (out : String) : Json → String
  | null => out ++ "null"
  | bool value => out ++ (if value then "true" else "false")
  | num value => out ++ toString value
  | str text => out ++ quote text
  | arr [] => out ++ "[]"
  | arr (first :: rest) =>
      appendPrettyItems (depth + 1)
        (appendPretty (depth + 1) (out ++ "[" ++ newLine (depth + 1)) first) rest ++
        newLine depth ++ "]"
  | obj [] => out ++ "\x7b\x7d"
  | obj (first :: rest) =>
      appendPrettyFields (depth + 1)
        (appendPrettyField (depth + 1) (out ++ "\x7b" ++ newLine (depth + 1)) first) rest ++
        newLine depth ++ "\x7d"

def appendPrettyItems (depth : Nat) (out : String) : List Json → String
  | [] => out
  | first :: rest =>
      appendPrettyItems depth (appendPretty depth (out ++ "," ++ newLine depth) first) rest

def appendPrettyField (depth : Nat) (out : String) : String × Json → String
  | (name, value) => appendPretty depth (out ++ quote name ++ ": ") value

def appendPrettyFields (depth : Nat) (out : String) : List (String × Json) → String
  | [] => out
  | first :: rest =>
      appendPrettyFields depth (appendPrettyField depth (out ++ "," ++ newLine depth) first) rest

end

/-- The text with every item and field on its own line. -/
def pretty (value : Json) : String := appendPretty 0 "" value

end Json

end StateLang
