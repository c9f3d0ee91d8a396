import LexScope.Span.Basic
import LexScope.Text.Byte

/-!
# Characters as bytes

Offsets count the bytes of a text in UTF-8, columns of an editor count UTF-16 units. This file goes
between texts and their bytes, cuts spans out of a text, and measures bytes in units. Both measures
read a character off its first byte, so no decoding is needed for a column.
-/

namespace LexScope.Utf8

/-- The bytes of some characters. -/
def encode (chars : List Char) : List UInt8 := chars.flatMap String.utf8EncodeChar

/-- The bytes of a text. -/
def bytes (text : String) : List UInt8 := encode text.toList

/-- The six bits that a continuation byte carries. -/
def payload (b : UInt8) : Nat := b.toNat - 0x80

/-- The characters of some bytes. The bytes are taken to be well formed; what a truncated character
leaves behind is dropped. -/
def decode : List UInt8 → List Char
  | [] => []
  | a :: rest =>
    if a < 0x80 then Char.ofNat a.toNat :: decode rest
    else if a < 0xE0 then
      match rest with
      | b :: rest => Char.ofNat ((a.toNat - 0xC0) * 64 + payload b) :: decode rest
      | [] => []
    else if a < 0xF0 then
      match rest with
      | b :: c :: rest =>
        Char.ofNat (((a.toNat - 0xE0) * 64 + payload b) * 64 + payload c) :: decode rest
      | _ => []
    else
      match rest with
      | b :: c :: d :: rest =>
        Char.ofNat ((((a.toNat - 0xF0) * 64 + payload b) * 64 + payload c) * 64 + payload d) ::
          decode rest
      | _ => []

/-- The bytes of a span. -/
def cut (source : List UInt8) (s : Span) : List UInt8 := (source.drop s.start).take s.length

/-- The text of a span. -/
def slice (source : List UInt8) (s : Span) : String := String.ofList (decode (cut source s))

/-- A character starts at the offset, or the text ends there. -/
def isBoundary (source : List UInt8) (offset : Nat) : Bool :=
  match source[offset]? with
  | some b => !Byte.isContinuation b
  | none => offset == source.length

/-- The bytes of a span that is in order, inside the text, and cuts no character. -/
def cut? (source : List UInt8) (s : Span) : Option (List UInt8) :=
  if s.start ≤ s.stop ∧ s.stop ≤ source.length ∧ isBoundary source s.start ∧
      isBoundary source s.stop then
    some (cut source s)
  else none

/-- UTF-16 units of the character that starts with this byte; a continuation byte adds none. -/
def units (b : UInt8) : Nat :=
  if Byte.isContinuation b then 0 else if b < 0xF0 then 1 else 2

/-- Length of some bytes in UTF-16 units. -/
def unitLength : List UInt8 → Nat
  | [] => 0
  | b :: rest => units b + unitLength rest

/-- The first character boundary whose column is at least `target`, when the bytes start at column
`column`; the end of the bytes if there is none. -/
def offsetFrom (target : Nat) : Nat → List UInt8 → Nat
  | _, [] => 0
  | column, b :: rest =>
    if target ≤ column && !Byte.isContinuation b then 0
    else 1 + offsetFrom target (column + units b) rest

/-- The byte offset of a UTF-16 column. -/
def offsetOfUnit (source : List UInt8) (column : Nat) : Nat := offsetFrom column 0 source

end LexScope.Utf8
