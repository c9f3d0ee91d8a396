import LexScope.Form.Node

/-!
# Symbols of a document

The places where a symbol is written. Comments and strings are passed through the layout, and
numbers, keywords and dispatched readings such as `#x1F` or `#:name` are not symbols.
-/

namespace LexScope

open Byte

/-- A symbol written in a document. -/
structure Symbol where
  /-- The name in lower case. -/
  name : String
  /-- Where it is written. -/
  span : Span
  deriving DecidableEq

/-- How many bytes after a number sign at `pos` are passed before symbols are read again. Digits may
stand between the sign and the letter that says how to read on. -/
def dispatchLength (pairs : PairIndex) (pos : Nat) (rest : List UInt8) : Nat :=
  let digits := (rest.takeWhile isDigit).length
  match rest.dropWhile isDigit with
  | [] => digits
  | d :: tail =>
    let letter := pos + 1 + digits
    let d := toLower d
    if d == quote then digits + 1
    else if d == backslash then max (atomLength (hash :: rest)) (digits + 2) - 1
    else if d == plus || d == minus then
      match pairs.closingOf (letter + 1) with
      | some closed => closed - pos
      | none => digits + 1 + atomLength tail
    else if d == colon || d == asterisk || radixLetters.contains d then
      digits + 1 + atomLength tail
    else if structureLetters.contains d then digits + 1
    else digits

/-- The text of an atom is that of a symbol: no keyword, dot or number. -/
def isSymbolText (text : String) : Bool :=
  text.toList.head? != some ':' && text != "." && !looksNumeric text

/-- The words of some bytes that start at offset `pos`, each with its place: all atoms but those of
dispatched readings. `skip` holds the comments and strings. -/
def wordsFrom (pairs : PairIndex) (skip : SpanSet) (pos : Nat) :
    List UInt8 → List (Span × List UInt8)
  | [] => []
  | b :: rest =>
    match skip.spanAt pos with
    | some s => wordsFrom pairs skip (max s.stop (pos + 1)) (rest.drop (s.stop - (pos + 1)))
    | none =>
      if isDelimiter b then wordsFrom pairs skip (pos + 1) rest
      else if b == hash then
        let more := dispatchLength pairs pos rest
        wordsFrom pairs skip (pos + 1 + more) (rest.drop more)
      else
        let length := atomLength (b :: rest)
        (⟨pos, pos + length⟩, (b :: rest).take length) ::
          wordsFrom pairs skip (max (pos + length) (pos + 1)) (rest.drop (length - 1))
termination_by bytes => bytes.length

/-- The symbol that a word is, if it is one. -/
def Symbol.ofWord (word : Span × List UInt8) : Option Symbol :=
  let text := String.ofList (Utf8.decode word.2)
  if isSymbolText text then some ⟨lowerCase text, word.1⟩ else none

/-- The words of a document in the order in which they are written. -/
def Source.words (src : Source) : List (Span × List UInt8) :=
  wordsFrom src.layout.pairs src.layout.commentsAndStrings 0 src.bytes

/-- The symbols of a document in the order in which they are written. -/
def Source.symbols (src : Source) : List Symbol := src.words.filterMap Symbol.ofWord

end LexScope
