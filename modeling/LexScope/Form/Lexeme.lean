import LexScope.Form.Atom
import LexScope.Span.Basic

/-!
# Lexemes

The first reading of a document cuts it into lexemes, from left to right and without memory: each
lexeme is decided by the bytes from its start on. Only what shapes a document is told apart, so most
lexemes are plain bytes.

A string, a block comment or an escaped name that is never closed takes all that is left, and no
lexeme follows it.
-/

namespace LexScope

open Byte

/-- The markers that quote a datum, start a template, or evaluate a part of one. -/
inductive Marker where
  /-- The apostrophe. -/
  | quote
  /-- The backquote. -/
  | template
  /-- The comma, also when it splices. -/
  | comma
  deriving DecidableEq

/-- What a marker stands before, past any further markers. -/
inductive Target where
  /-- A bracketed form. -/
  | form
  /-- An atom; `length` counts from the marker's own start. -/
  | atom (length : Nat)
  /-- Nothing that a marker applies to. -/
  | nothing
  deriving DecidableEq

/-- The kinds of lexemes. -/
inductive LexemeKind where
  /-- A comment, of one line or in a block. -/
  | comment
  /-- A string with its quotes. -/
  | string
  /-- The bracket `(`. -/
  | opening
  /-- The bracket `)`. -/
  | closing
  /-- A marker alone, without what it stands before. -/
  | marker (m : Marker) (target : Target)
  /-- Anything that shapes nothing. -/
  | plain
  /-- A block comment without its end. -/
  | unclosedComment
  /-- A string without its end. -/
  | unclosedString
  /-- An escaped name without its end. -/
  | unclosedName
  deriving DecidableEq

/-- A lexeme and where it stands. -/
structure Lexeme where
  /-- What it is. -/
  kind : LexemeKind
  /-- Its bytes. -/
  span : Span
  deriving DecidableEq

/-- Length through the end of a block comment, after its opening; `depth` block comments inside it
are open. -/
def blockEnd? : Nat → List UInt8 → Option Nat
  | depth, a :: b :: rest =>
    if a == bar && b == hash then
      match depth with
      | 0 => some 2
      | depth + 1 => (blockEnd? depth rest).map (· + 2)
    else if a == hash && b == bar then (blockEnd? (depth + 1) rest).map (· + 2)
    else (blockEnd? depth (b :: rest)).map (· + 1)
  | _, _ => none

/-- Number of marker bytes at the start; the number sign of a character literal is none. -/
def markerRun : List UInt8 → Nat
  | [] => 0
  | b :: rest =>
    if isMarker b && !(b == hash && rest.head? == some backslash) then 1 + markerRun rest else 0

/-- What a marker of `width` bytes stands before; the bytes are those after it. -/
def Target.after (width : Nat) (rest : List UInt8) : Target :=
  let run := markerRun rest
  match rest.drop run with
  | [] => nothing
  | b :: rest' =>
    if b == opening then form
    else if b == closing || b == doubleQuote || b == semicolon then nothing
    else
      match atomLength (b :: rest') with
      | 0 => nothing
      | n => atom (width + run + n)

/-- Kind of the lexeme that starts with byte `b`, and how many bytes it takes after `b`. -/
def LexemeKind.read (b : UInt8) (rest : List UInt8) : LexemeKind × Nat :=
  if b == semicolon then (comment, (rest.takeWhile (· != newline)).length)
  else if b == doubleQuote then
    match closing? doubleQuote rest with
    | some n => (string, n)
    | none => (unclosedString, rest.length)
  else if b == hash then
    match rest with
    | [] => (plain, 0)
    | c :: rest' =>
      if c == bar then
        match blockEnd? 0 rest' with
        | some n => (comment, 1 + n)
        | none => (unclosedComment, rest.length)
      else if c == backslash then (plain, atomLength (b :: rest) - 1)
      else if c == Byte.quote then (plain, 1)
      else (plain, 0)
  else if b == bar then
    match closing? bar rest with
    | some n => (plain, n)
    | none => (unclosedName, rest.length)
  else if b == backslash then (plain, 1)
  else if b == Byte.opening then (opening, 0)
  else if b == Byte.closing then (closing, 0)
  else if b == Byte.quote then (marker .quote (.after 1 rest), 0)
  else if b == backquote then (marker .template (.after 1 rest), 0)
  else if b == Byte.comma then
    match rest with
    | c :: rest' =>
      if c == atSign || c == dot then (marker .comma (.after 2 rest'), 1)
      else (marker .comma (.after 1 rest), 0)
    | [] => (marker .comma (.after 1 rest), 0)
  else (plain, 0)

/-- The lexemes of some bytes that start at offset `pos`. -/
def lexemesFrom (pos : Nat) : List UInt8 → List Lexeme
  | [] => []
  | b :: rest =>
    let (kind, more) := LexemeKind.read b rest
    let width := 1 + min more rest.length
    ⟨kind, ⟨pos, pos + width⟩⟩ :: lexemesFrom (pos + width) (rest.drop more)
termination_by bytes => bytes.length

/-- The lexemes of a document. -/
def lexemes (bytes : List UInt8) : List Lexeme := lexemesFrom 0 bytes

end LexScope
