import LexScope.Uri.Host
import LexScope.Uri.Path

/-!
# URIs

A URI in its parts, as it is kept after reading: nothing is left to escape, and scheme and domain
are in lower case. Writing a URI puts the parts together.
-/

namespace LexScope

/-- Who serves what a URI names. -/
structure Authority where
  /-- User and password, with an at sign after them if there are any. -/
  user : List Char
  /-- The host. -/
  host : Host
  /-- The number of the service at the host, unless the scheme implies it. -/
  service : Option Nat
  deriving DecidableEq

/-- A URI. -/
structure Uri where
  /-- The scheme. -/
  scheme : List Char
  /-- Who serves it, if two slashes announce that. -/
  authority : Option Authority
  /-- Where it leads. -/
  path : UriPath
  /-- The text after a question mark. -/
  query : Option (List Char)
  /-- The text after a number sign. -/
  fragment : Option (List Char)
  deriving DecidableEq

/-- The text of an authority. -/
def Authority.render (a : Authority) : List Char :=
  a.user ++ a.host.render ++
    match a.service with
    | some service => ':' :: Nat.toDigits 10 service
    | none => []

namespace Uri

/-- Between the scheme and the path. Without an authority a path may not start with two slashes,
because these would announce one; a segment of one dot keeps them apart. -/
def beforePath (u : Uri) : List Char :=
  match u.authority, u.path.render with
  | some a, _ => ['/', '/'] ++ a.render
  | none, '/' :: '/' :: _ => ['/', '.']
  | none, _ => []

/-- A part after the mark that announces it. -/
def marked (mark : Char) : Option (List Char) → List Char
  | some text => mark :: text
  | none => []

/-- The text of a URI. -/
def render (u : Uri) : String :=
  String.ofList (u.scheme ++ [':'] ++ u.beforePath ++ u.path.render ++ marked '?' u.query ++
    marked '#' u.fragment)

end Uri

end LexScope
