import LexScope.Text.Hex

/-!
# Percent escapes

A character that may not stand in a part of a URI is written as the bytes of its UTF-8 form, each of
them a percent sign and two hexadecimal digits. Which characters those are depends on the part, but
control characters and characters beyond ASCII stand in none of them.
-/

namespace LexScope.Percent

/-- A byte as an escape, with capital digits. -/
def escape (b : UInt8) : List Char :=
  ['%', (Hex.digit (b.toNat / 16)).toUpper, (Hex.digit (b.toNat % 16)).toUpper]

/-- Control characters and characters beyond ASCII. -/
def isForeign (c : Char) : Bool := decide (c.toNat < 0x20) || decide (0x7E < c.toNat)

/-- Escape the foreign characters and the characters of a list. A percent sign is left alone, so
what is escaped already stays as it is. -/
def encode (reserved chars : List Char) : List Char :=
  chars.flatMap fun c =>
    if isForeign c || reserved.contains c then (String.utf8EncodeChar c).flatMap escape else [c]

/-- The bytes of a text with its escapes undone. A percent sign without two digits is itself. -/
def decode : List Char → List UInt8
  | '%' :: a :: b :: rest =>
    match Hex.value? a, Hex.value? b with
    | some high, some low => UInt8.ofNat (16 * high + low) :: decode rest
    | _, _ => 37 :: decode (a :: b :: rest)
  | c :: rest => String.utf8EncodeChar c ++ decode rest
  | [] => []

end LexScope.Percent
