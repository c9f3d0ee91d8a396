import LexScope.Text.Byte

/-!
# Atoms

An atom is a run of bytes up to the next delimiter, where a backslash takes the following byte as it
is and bars take everything between them. A character literal `#\x` takes the byte after its
backslash even if it is a bracket or a quote.

All lengths here are lengths of a beginning of the given bytes, so no end of the text has to be
carried along.
-/

namespace LexScope

open Byte

/-- Length up to and with the first `mark` that no backslash escapes. -/
def closing? (mark : UInt8) : List UInt8 → Option Nat
  | [] => none
  | [b] => if b == mark then some 1 else none
  | b :: c :: rest =>
    if b == mark then some 1
    else if b == backslash then (closing? mark rest).map (· + 2)
    else (closing? mark (c :: rest)).map (· + 1)

/-- Length of the atom at the start of the bytes, a character literal apart. Inside bars delimiters
do not count, and bars that are never closed take all that is left. -/
def plainAtomLength (inBars : Bool) : List UInt8 → Nat
  | [] => 0
  | [b] => if b != backslash && !inBars && isDelimiter b then 0 else 1
  | b :: c :: rest =>
    if b == backslash then 2 + plainAtomLength inBars rest
    else if b == bar then 1 + plainAtomLength (!inBars) (c :: rest)
    else if !inBars && isDelimiter b then 0
    else 1 + plainAtomLength inBars (c :: rest)

/-- Length of the atom at the start of the bytes. -/
def atomLength : List UInt8 → Nat
  | a :: b :: rest =>
    if a == hash && b == backslash then
      match rest with
      | [] => 2
      | _ :: rest' => 3 + plainAtomLength false rest'
    else plainAtomLength false (a :: b :: rest)
  | bytes => plainAtomLength false bytes

/-- End of the atom that starts at an offset. -/
def atomEnd (bytes : List UInt8) (offset : Nat) : Nat := offset + atomLength (bytes.drop offset)

/-- The characters without a sign in front. -/
def dropSign : List Char → List Char
  | '+' :: rest => rest
  | '-' :: rest => rest
  | chars => chars

/-- Characters of a number before its exponent. -/
def isMantissaChar (c : Char) : Bool := c.isDigit || c == '.' || c == '/'

/-- An exponent: its letter, an optional sign, and at least one digit. -/
def isExponent : List Char → Bool
  | [] => false
  | mark :: rest =>
    ['e', 'd', 'f', 's', 'l'].contains mark.toLower && !(dropSign rest).isEmpty &&
      (dropSign rest).all Char.isDigit

/-- The name reads as a number: `-1.5e3`, `2/3` and `.5` do, while `1+` and `1-` are names. -/
def looksNumeric (name : String) : Bool :=
  let body := dropSign name.toList
  let rest := body.dropWhile isMantissaChar
  (body.takeWhile isMantissaChar).any Char.isDigit && (rest.isEmpty || isExponent rest)

end LexScope
