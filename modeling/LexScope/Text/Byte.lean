/-!
# Byte classes

Every character that gives a document its structure is ASCII, so the reader works on bytes. The
bytes of a character beyond ASCII are all at least `0x80`, belong to none of the classes here, and
are therefore always part of a name.
-/

namespace LexScope.Byte

/-- The bracket `(`. -/
def opening : UInt8 := 40
/-- The bracket `)`. -/
def closing : UInt8 := 41
/-- The double quote around a string. -/
def doubleQuote : UInt8 := 34
/-- The semicolon before a line comment. -/
def semicolon : UInt8 := 59
/-- The apostrophe that quotes a datum. -/
def quote : UInt8 := 39
/-- The backquote before a template. -/
def backquote : UInt8 := 96
/-- The comma before an evaluated part of a template. -/
def comma : UInt8 := 44
/-- The at sign of a splicing comma. -/
def atSign : UInt8 := 64
/-- The full stop. -/
def dot : UInt8 := 46
/-- The number sign, which starts a dispatched reading. -/
def hash : UInt8 := 35
/-- The backslash, which escapes one character. -/
def backslash : UInt8 := 92
/-- The vertical bar around an escaped name. -/
def bar : UInt8 := 124
/-- The colon before a keyword. -/
def colon : UInt8 := 58
/-- The plus sign of a feature test. -/
def plus : UInt8 := 43
/-- The minus sign of a feature test. -/
def minus : UInt8 := 45
/-- The asterisk of a bit vector. -/
def asterisk : UInt8 := 42
/-- The end of a line. -/
def newline : UInt8 := 10
/-- The carriage return, which may precede the end of a line. -/
def carriageReturn : UInt8 := 13
/-- The letters `x`, `b`, `o` and `r`, which say in what base a number is written. -/
def radixLetters : List UInt8 := [120, 98, 111, 114]
/-- The letters `c`, `p`, `s` and `a` before a datum that is read as usual. -/
def structureLetters : List UInt8 := [99, 112, 115, 97]

/-- Space, tab, newline, carriage return and form feed. -/
def isWhitespace (b : UInt8) : Bool :=
  b == 32 || b == 9 || b == newline || b == carriageReturn || b == 12

/-- The bytes that end a name. -/
def isDelimiter (b : UInt8) : Bool :=
  isWhitespace b || b == opening || b == closing || b == doubleQuote || b == semicolon ||
    b == quote || b == backquote || b == comma

/-- The bytes that may stand between a quotation marker and what it quotes. -/
def isMarker (b : UInt8) : Bool :=
  b == quote || b == backquote || b == comma || b == atSign || b == dot || b == hash

/-- A decimal digit. -/
def isDigit (b : UInt8) : Bool := decide (48 ≤ b) && decide (b ≤ 57)

/-- The small letter of an ASCII capital; every other byte is left alone. -/
def toLower (b : UInt8) : UInt8 := if 65 ≤ b ∧ b ≤ 90 then b + 32 else b

/-- A byte of a character other than its first. -/
def isContinuation (b : UInt8) : Bool := decide (128 ≤ b) && decide (b < 192)

end LexScope.Byte
