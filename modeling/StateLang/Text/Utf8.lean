/-!
# Reading bytes as text

Bytes that are no UTF-8 do not stop the reading. Each longest run of bytes that
starts a character and cannot go on, and each byte that starts none, becomes
one replacement character.
-/

namespace StateLang.Utf8

/-- Stands for what cannot be read. -/
def replacement : Char := '\uFFFD'

/-- A character whose last `owed` bytes are still to come; the next of them lies between `low`
and `high`. -/
structure Partial where
  value : Nat
  owed : Nat
  low : UInt8
  high : UInt8
  deriving DecidableEq, Repr

/-- What the first byte of a longer character promises. The bounds on the second byte leave out
overlong forms, surrogates and values past the last character. -/
def lead? (b : UInt8) : Option Partial :=
  if b < 0xC2 then none
  else if b < 0xE0 then some ⟨b.toNat - 0xC0, 1, 0x80, 0xBF⟩
  else if b = 0xE0 then some ⟨0, 2, 0xA0, 0xBF⟩
  else if b = 0xED then some ⟨0xD, 2, 0x80, 0x9F⟩
  else if b < 0xF0 then some ⟨b.toNat - 0xE0, 2, 0x80, 0xBF⟩
  else if b = 0xF0 then some ⟨0, 3, 0x90, 0xBF⟩
  else if b < 0xF4 then some ⟨b.toNat - 0xF0, 3, 0x80, 0xBF⟩
  else if b = 0xF4 then some ⟨4, 3, 0x80, 0x8F⟩
  else none

/-- The characters read, the latest first, and the one begun. -/
structure Decoder where
  read : List Char
  begun? : Option Partial
  deriving DecidableEq, Repr

namespace Decoder

/-- Begin a character after the characters `read`. -/
def beginChar (read : List Char) (b : UInt8) : Decoder :=
  if b < 0x80 then ⟨Char.ofNat b.toNat :: read, none⟩
  else
    match lead? b with
    | some p => ⟨read, some p⟩
    | none => ⟨replacement :: read, none⟩

def feed (d : Decoder) (b : UInt8) : Decoder :=
  match d.begun? with
  | none => beginChar d.read b
  | some p =>
      if p.low ≤ b ∧ b ≤ p.high then
        let value := p.value * 64 + (b.toNat - 0x80)
        if p.owed ≤ 1 then ⟨Char.ofNat value :: d.read, none⟩
        else ⟨d.read, some ⟨value, p.owed - 1, 0x80, 0xBF⟩⟩
      else beginChar (replacement :: d.read) b

/-- All characters, a last one that was only begun replaced. -/
def finish (d : Decoder) : List Char :=
  match d.begun? with
  | none => d.read.reverse
  | some _ => (replacement :: d.read).reverse

end Decoder

/-- The text of bytes, with replacements for what is no UTF-8. -/
def decodeLossy (bytes : ByteArray) : String :=
  String.ofList (bytes.data.toList.foldl Decoder.feed ⟨[], none⟩).finish

end StateLang.Utf8
