import LexScope.Form.Layout
import LexScope.Text.Utf8

/-!
# Elements of a form

The elements between two offsets are read without looking into nested forms: a bracketed element is
passed in one step through the pair index, strings and comments through the layout. Feature tests
(`#+test form`) are passed together with the form they guard. Reading ends at an opening bracket
whose partner is unknown or lies outside.

Reading goes in two steps. `readings` finds elements and feature tests one after the other, and
`elementsOf` drops what the tests guard.
-/

namespace LexScope

open Byte

/-- What an element is. -/
inductive ElementKind where
  /-- A bracketed form. -/
  | group (pair : Pair)
  /-- A name, number or other atom. -/
  | atom
  /-- A string. -/
  | string
  deriving DecidableEq

/-- One datum of a form. -/
structure Element where
  /-- What it is. -/
  kind : ElementKind
  /-- The datum without markers before it. -/
  span : Span
  /-- Where the markers before it start. -/
  start : Nat
  /-- A quote or backquote stands before it. -/
  quoted : Bool
  deriving DecidableEq

namespace Element

/-- The bracket pair of a group. -/
def group (e : Element) : Option Pair :=
  match e.kind with
  | .group pair => some pair
  | _ => none

/-- The element is an atom. -/
def isAtom (e : Element) : Bool := e.kind == .atom

/-- The element is a string. -/
def isString (e : Element) : Bool := e.kind == .string

/-- The first offset after the element. -/
def stop (e : Element) : Nat := e.span.stop

end Element

/-- The markers at the start of some bytes: their length, and whether one of them quotes. -/
def leadingMarkers : List UInt8 → Nat × Bool
  | [] => (0, false)
  | [b] =>
    if b == quote || b == backquote then (1, true)
    else if b == comma then (1, false)
    else (0, false)
  | b :: c :: rest =>
    if b == quote || b == backquote then (1 + (leadingMarkers (c :: rest)).1, true)
    else if b == comma then
      if c == atSign || c == dot then
        let inner := leadingMarkers rest
        (2 + inner.1, inner.2)
      else
        let inner := leadingMarkers (c :: rest)
        (1 + inner.1, inner.2)
    else if b == hash && c == quote then
      let inner := leadingMarkers rest
      (2 + inner.1, inner.2)
    else (0, false)

/-- One step of reading. -/
inductive Reading where
  /-- An element. -/
  | element (e : Element)
  /-- The start of a feature test. -/
  | feature
  deriving DecidableEq

/-- Read the group whose bracket opens at `opened`. Nothing is read if its partner is unknown or not
before `stop`. -/
def Reading.group (layout : Layout) (stop pos opened : Nat) (quoted : Bool) :
    Option (Option Reading × Nat) :=
  match layout.pairs.closingOf opened with
  | none => none
  | some closed =>
    if closed < stop then
      let pair : Pair := ⟨opened, closed⟩
      some (some (.element ⟨.group pair, pair.span, pos, quoted⟩), closed - pos)
    else none

/-- The string at `datum` up to `stop`. -/
def stringSpan (layout : Layout) (stop datum : Nat) : Span :=
  match layout.strings.spanAt datum with
  | some s => ⟨s.start, min s.stop stop⟩
  | none => ⟨datum, stop⟩

/-- Read the datum that starts with byte `d`, `width` bytes after the markers before it start at
`pos`. The result counts the bytes after `pos`, as in `Reading.step`. -/
def Reading.datum (layout : Layout) (stop pos width : Nat) (quoted : Bool) (d : UInt8)
    (rest : List UInt8) : Option (Option Reading × Nat) :=
  if d == hash && (rest.head? == some plus || rest.head? == some minus) then
    some (some .feature, width + 1)
  else if d == hash && rest.head? == some opening then
    Reading.group layout stop pos (pos + width + 1) quoted
  else if d == opening then Reading.group layout stop pos (pos + width) quoted
  else if d == closing then some (none, width)
  else if d == doubleQuote then
    let span := stringSpan layout stop (pos + width)
    some (some (.element ⟨.string, span, pos, quoted⟩), span.stop - (pos + 1))
  else
    match atomLength (d :: rest) with
    | 0 => some (none, width)
    | n + 1 =>
      some (some (.element ⟨.atom, ⟨pos + width, pos + width + n + 1⟩, pos, quoted⟩), width + n)

/-- One step of reading at `pos`, where byte `b` stands: what is read, if anything, and how many
bytes the step takes after `b`. There is no step at an opening bracket whose partner is not before
`stop`, nor at markers that nothing follows. -/
def Reading.step (layout : Layout) (stop pos : Nat) (b : UInt8) (rest : List UInt8) :
    Option (Option Reading × Nat) :=
  if isWhitespace b then some (none, 0)
  else
    match layout.comments.spanAt pos with
    | some c => some (none, c.stop - (pos + 1))
    | none =>
      match (b :: rest).drop (leadingMarkers (b :: rest)).1 with
      | [] => none
      | d :: rest' =>
        Reading.datum layout stop pos (leadingMarkers (b :: rest)).1 (leadingMarkers (b :: rest)).2
          d rest'

/-- Everything that is read from `pos` up to `stop`, where the bytes are those between the two.
Feature tests are reported and not yet acted upon. -/
def readings (layout : Layout) (stop pos : Nat) : List UInt8 → List Reading
  | [] => []
  | b :: rest =>
    match Reading.step layout stop pos b rest with
    | none => []
    | some (read, more) =>
      read.toList ++ readings layout stop (pos + 1 + more) (rest.drop more)
termination_by bytes => bytes.length

/-- The elements among the readings: a feature test takes the two readings after it away. -/
def elementsOf : List Reading → List Element
  | .element e :: rest => e :: elementsOf rest
  | .feature :: _ :: _ :: rest => elementsOf rest
  | _ => []

/-- The bytes from `pos` up to `stop`. -/
def window (bytes : List UInt8) (pos stop : Nat) : List UInt8 := (bytes.take stop).drop pos

/-- The elements between two offsets of a document. -/
def elementsBetween (bytes : List UInt8) (layout : Layout) (pos stop : Nat) : List Element :=
  let stop := min stop bytes.length
  elementsOf (readings layout stop pos (window bytes pos stop))

end LexScope
