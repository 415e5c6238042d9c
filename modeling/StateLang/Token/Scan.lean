import StateLang.Token.Gap
import StateLang.Token.Pattern

/-!
# From text to tokens

Scanning never fails: it crosses a gap, takes the longest lexeme, and where no
pattern accepts a prefix it takes one character as a token of kind `unknown`.
-/

namespace StateLang.Token

/-- The kind and the length of the lexeme at the start of a non-empty text. -/
def nextLexeme (s : List Char) : Kind × Nat := (longestMatch s).getD (.unknown, 1)

/-- Every lexeme has at least one character, so the length of the text is enough fuel. -/
def scanFuel : Nat → Nat → TextCursor → List Token
  | 0, _, _ => []
  | fuel + 1, index, cursor =>
      let start := Gap.cross cursor
      match start.rest with
      | [] => [endAt index start.pos]
      | text =>
          let (kind, length) := nextLexeme text
          let lexeme := text.take length
          ⟨kind, String.ofList lexeme, index, start.pos⟩ ::
            scanFuel fuel (index + 1) ⟨start.pos.after lexeme, text.drop length⟩

/-- The tokens of a source, the last of them its end. -/
def scan (source : String) : List Token :=
  scanFuel (source.toList.length + 1) 0 ⟨.start, source.toList⟩

end StateLang.Token
