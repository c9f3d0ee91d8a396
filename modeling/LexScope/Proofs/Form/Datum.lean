import LexScope.Form.Element
import LexScope.Proofs.Text.Boundary

/-!
# Printed data

Data as a writer means them: atoms, strings and lists, each with the quotation marks before it. This
file says how a datum is printed, and where its parts then stand: the element that it is for the
list around it, and the pieces that it puts into the layout of the document. Nothing here is read
off a text; the offsets only add up the sizes of what is printed.
-/

namespace LexScope

/-- The byte neither ends a word nor changes how the word is read. -/
def Byte.isPlain (b : UInt8) : Bool :=
  !isDelimiter b && b != backslash && b != bar && b != hash

/-- A plain name or number. -/
structure Word where
  /-- Its characters. -/
  chars : List Char
  /-- There is at least one. -/
  nonempty : chars ≠ []
  /-- None is a delimiter, a backslash, a bar or a number sign. -/
  plain : ∀ b ∈ Utf8.encode chars, Byte.isPlain b = true

/-- An atom of a datum. -/
inductive Atom where
  /-- A plain name. -/
  | word (w : Word)
  /-- A decimal number. -/
  | number (n : Nat)
  /-- One of the two brackets as a character. -/
  | character (opens : Bool)
  /-- A name between bars. -/
  | barred (contents : List Char) (noBar : '|' ∉ contents) (noBackslash : '\\' ∉ contents)

/-- A quotation mark before a datum. -/
inductive Mark where
  /-- The apostrophe. -/
  | quote
  /-- The backquote. -/
  | template

/-- What stands between two neighbours of a list. -/
inductive Gap where
  /-- One space. -/
  | space
  /-- A comment to the end of its line, between two spaces. -/
  | comment (text : List Char) (oneLine : '\n' ∉ text)

/-- A datum. In a list, `gaps i` stands after item `i`, if another item follows. -/
inductive Datum where
  /-- An atom. -/
  | atom (marks : List Mark) (a : Atom)
  /-- A string with any contents. -/
  | string (marks : List Mark) (contents : List Char)
  /-- A list, perhaps an empty one. -/
  | list (marks : List Mark) (gaps : Nat → Gap) (items : List Datum)

/-! ## Printing -/

/-- The characters of an atom. -/
def Atom.chars : Atom → List Char
  | word w => w.chars
  | number n => Nat.toDigits 10 n
  | character opens => ['#', '\\', if opens then '(' else ')']
  | barred contents _ _ => '|' :: (contents ++ ['|'])

/-- The character of a mark. -/
def Mark.char : Mark → Char
  | quote => '\u0027'
  | template => '\u0060'

/-- The characters of a gap. -/
def Gap.chars : Gap → List Char
  | space => [' ']
  | comment text _ => ' ' :: ';' :: (text ++ ['\n', ' '])

/-- The characters before an item, which for the first one of a list are none. -/
def Gap.lead : Option Gap → List Char
  | none => []
  | some gap => gap.chars

/-- A character inside a string: a quote or a backslash is escaped by a backslash. -/
def escapeChar (c : Char) : List Char := if c = '"' ∨ c = '\\' then ['\\', c] else [c]

/-- A string with its quotes. -/
def literal (contents : List Char) : List Char := '"' :: (contents.flatMap escapeChar ++ ['"'])

namespace Datum

mutual

/-- The characters of a datum. -/
def chars : Datum → List Char
  | atom marks a => marks.map Mark.char ++ a.chars
  | string marks contents => marks.map Mark.char ++ literal contents
  | list marks gaps items => marks.map Mark.char ++ '(' :: (charsFrom none gaps items ++ [')'])

/-- The characters of neighbours, with `lead` before the first. -/
def charsFrom (lead : Option Gap) (gaps : Nat → Gap) : List Datum → List Char
  | [] => []
  | d :: rest =>
    Gap.lead lead ++ (chars d ++ charsFrom (some (gaps 0)) (fun i => gaps (i + 1)) rest)

end

/-- Number of bytes of a datum. -/
def size (d : Datum) : Nat := (Utf8.encode d.chars).length

/-- Number of bytes of neighbours. -/
def sizeFrom (lead : Option Gap) (gaps : Nat → Gap) (items : List Datum) : Nat :=
  (Utf8.encode (charsFrom lead gaps items)).length

/-! ## Where things stand -/

/-- The marks before a datum. -/
def marks : Datum → List Mark
  | atom marks _ => marks
  | string marks _ => marks
  | list marks _ _ => marks

/-- The element that a datum printed at `pos` is for the list around it. -/
def element (pos : Nat) (d : Datum) : Element where
  kind :=
    match d with
    | atom .. => .atom
    | string .. => .string
    | list marks .. => .group ⟨pos + marks.length, pos + d.size - 1⟩
  span := ⟨pos + d.marks.length, pos + d.size⟩
  start := pos
  quoted := !d.marks.isEmpty

/-- The elements that neighbours are, printed at `pos`. -/
def elementsFrom (pos : Nat) (lead : Option Gap) (gaps : Nat → Gap) : List Datum → List Element
  | [] => []
  | d :: rest =>
    let start := pos + (Utf8.encode (Gap.lead lead)).length
    d.element start ::
      elementsFrom (start + d.size) (some (gaps 0)) (fun i => gaps (i + 1)) rest

end Datum

/-- A part of a printed datum that shows in the layout. -/
inductive Piece where
  /-- A list between its brackets, with the elements in it. -/
  | form (p : Pair) (elements : List Element)
  /-- A comment. -/
  | comment (s : Span)
  /-- A string. -/
  | string (s : Span)

namespace Piece

/-- A list between its brackets, with the elements in it. -/
def form? : Piece → Option (Pair × List Element)
  | form p elements => some (p, elements)
  | _ => none

/-- The brackets of a list. -/
def pair? : Piece → Option Pair
  | form p _ => some p
  | _ => none

/-- The span of a comment. -/
def comment? : Piece → Option Span
  | comment s => some s
  | _ => none

/-- The span of a string. -/
def string? : Piece → Option Span
  | string s => some s
  | _ => none

end Piece

/-- The comment of a gap printed at `pos`. -/
def Gap.pieces (pos : Nat) : Option Gap → List Piece
  | some (comment text _) => [.comment ⟨pos + 1, pos + 2 + (Utf8.encode text).length⟩]
  | _ => []

namespace Datum

mutual

/-- The pieces of a datum printed at `pos`, in order. -/
def pieces (pos : Nat) : Datum → List Piece
  | atom .. => []
  | d@(string marks _) => [.string ⟨pos + marks.length, pos + d.size⟩]
  | d@(list marks gaps items) =>
    let inside := pos + marks.length + 1
    .form ⟨pos + marks.length, pos + d.size - 1⟩ (elementsFrom inside none gaps items) ::
      piecesFrom inside none gaps items

/-- The pieces of neighbours printed at `pos`, in order. -/
def piecesFrom (pos : Nat) (lead : Option Gap) (gaps : Nat → Gap) : List Datum → List Piece
  | [] => []
  | d :: rest =>
    let start := pos + (Utf8.encode (Gap.lead lead)).length
    Gap.pieces pos lead ++ (pieces start d ++
      piecesFrom (start + size d) (some (gaps 0)) (fun i => gaps (i + 1)) rest)

end

/-- The lists of a datum printed at `pos`, outermost first: the brackets of each, and the elements
between them. -/
def forms (pos : Nat) (d : Datum) : List (Pair × List Element) :=
  (d.pieces pos).filterMap Piece.form?

end Datum

end LexScope
