import LexScope.Error
import LexScope.Text.Utf8

/-!
# Lines and columns

An editor addresses a text by line and column, both from zero, where a column counts UTF-16 units.
A line ends before its newline, and before a carriage return in front of that.
-/

namespace LexScope

/-- A place in a text as an editor counts it. -/
structure Position where
  /-- The line, from zero. -/
  line : Nat
  /-- The column in UTF-16 units, from zero. -/
  character : Nat
  deriving DecidableEq

/-- A text with the starts of its lines. -/
structure Lines where
  /-- The bytes of the text. -/
  bytes : List UInt8
  /-- Offset of the first byte of each line. -/
  starts : List Nat

namespace Lines

/-- The offsets after the newlines of some bytes that start at `pos`. -/
def startsFrom (pos : Nat) : List UInt8 → List Nat
  | [] => []
  | b :: rest =>
    if b == Byte.newline then (pos + 1) :: startsFrom (pos + 1) rest else startsFrom (pos + 1) rest

/-- The lines of a text given by its bytes. -/
def ofBytes (bytes : List UInt8) : Lines := ⟨bytes, 0 :: startsFrom 0 bytes⟩

/-- Number of lines. -/
def count (l : Lines) : Nat := l.starts.length

/-- The line that holds an offset: the last one that starts no later. -/
def lineOf (l : Lines) (offset : Nat) : Nat :=
  (l.starts.takeWhile fun s => decide (s ≤ offset)).length - 1

/-- The bytes of a line without its end. -/
def lineBytes (l : Lines) (line : Nat) : Option (List UInt8) :=
  l.starts[line]?.map fun start =>
    let stop :=
      match l.starts[line + 1]? with
      | some next => next - 1
      | none => l.bytes.length
    let raw := Utf8.cut l.bytes ⟨start, stop⟩
    if raw.getLast? == some Byte.carriageReturn then raw.dropLast else raw

/-- Length of a span in UTF-16 units; a span that is not one of the text has none. -/
def unitLength (l : Lines) (s : Span) : Nat := ((Utf8.cut? l.bytes s).map Utf8.unitLength).getD 0

/-- The place of an offset. An offset past the end counts as the end, and one inside a character as
the start of its line. -/
def position (l : Lines) (offset : Nat) : Position :=
  let offset := min offset l.bytes.length
  let line := l.lineOf offset
  ⟨line, l.unitLength ⟨(l.starts[line]?).getD 0, offset⟩⟩

/-- The places of the two ends of a span. -/
def range (l : Lines) (s : Span) : Position × Position := (l.position s.start, l.position s.stop)

/-- The offset of a place. A column past the end of its line counts as that end; a line past the end
of the text is an error. -/
def offset (l : Lines) (p : Position) : Except Error Nat :=
  match l.starts[p.line]?, l.lineBytes p.line with
  | some start, some line => .ok (start + Utf8.offsetOfUnit line p.character)
  | _, _ => .error (.positionOutside p.line p.character)

end Lines

end LexScope
