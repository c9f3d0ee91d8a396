import LexScope.Text.Split
import LexScope.Uri.Percent

/-!
# Paths of URIs

A path is read segment by segment. A segment of one dot is dropped, and one of two dots takes back
the segment before it; a drive letter is never taken back. The path of a file loses the slashes at
its start, and its drive letter is followed by a colon.
-/

namespace LexScope

/-- Where a URI leads. -/
inductive UriPath where
  /-- Segments, each after a slash; there are none if the path is empty. -/
  | segments (path : List (List Char))
  /-- Plain text under a scheme that needs no path. -/
  | plain (text : List Char)
  deriving DecidableEq

namespace UriPath

/-- Characters that are escaped in a path. -/
def reserved : List Char := [' ', '"', '<', '>', '`', '#', '?', '\x7b', '\x7d']

/-- The text after a dot, which may be escaped, at the start of a segment. -/
def afterDot? : List Char → Option (List Char)
  | '.' :: rest => some rest
  | '%' :: '2' :: 'e' :: rest => some rest
  | '%' :: '2' :: 'E' :: rest => some rest
  | _ => none

/-- The segment is one dot. -/
def isDot (segment : List Char) : Bool := afterDot? segment == some []

/-- The segment is two dots. -/
def isDoubleDot (segment : List Char) : Bool := (afterDot? segment).bind afterDot? == some []

/-- The segment is a drive letter: a letter and a colon or a bar. -/
def isDrive : List Char → Bool
  | [letter, mark] => letter.isAlpha && (mark == ':' || mark == '|')
  | _ => false

/-- A drive letter with a colon. -/
def withColon : List Char → List Char
  | [letter, _] => [letter, ':']
  | segment => segment

/-- Take back the latest segment, unless it is a drive letter. -/
def takeBack : List (List Char) → List (List Char)
  | [] => []
  | latest :: rest => if isDrive latest then latest :: rest else rest

/-- Read the segments that follow `done`, which is given in reverse. A dot in the last place leaves
an empty segment, so that the path still ends in a slash. -/
def resolve (ofFile : Bool) (done : List (List Char)) : List (List Char) → List (List Char)
  | [] => done.reverse
  | segment :: rest =>
    if isDoubleDot segment then
      resolve ofFile (if rest.isEmpty then [] :: takeBack done else takeBack done) rest
    else if isDot segment then resolve ofFile (if rest.isEmpty then [] :: done else done) rest
    else if ofFile && done.isEmpty && isDrive segment then
      resolve ofFile [withColon segment] rest
    else resolve ofFile (segment :: done) rest

/-- Without the empty segments at its start; something always stays. -/
def trimmed (path : List (List Char)) : List (List Char) :=
  match path.dropWhile List.isEmpty with
  | [] => [[]]
  | path => path

/-- Read a path after its first slash. -/
def ofText (ofFile : Bool) (isSlash : Char → Bool) (text : List Char) : List (List Char) :=
  resolve ofFile [] (splitWhere isSlash (Percent.encode reserved text))

/-- The text of a path. -/
def render : UriPath → List Char
  | segments path => path.flatMap ('/' :: ·)
  | plain text => text

end UriPath

end LexScope
