import LexScope.Uri.Basic

/-!
# Reading URIs

Documents are known by URIs, and two spellings of one URI mean one document; a URI is therefore read
into its parts and written again.

How the text after the scheme is read depends on the scheme. Some schemes have to name a host,
`file` may name one, and under all others two slashes announce a host; without any slash the rest of
such a URI is plain text.
-/

namespace LexScope

/-- How the text after a scheme is read. -/
inductive SchemeKind where
  /-- A host has to be named. -/
  | hosted
  /-- Files, possibly of another host. -/
  | file
  /-- Any other scheme. -/
  | other
  deriving DecidableEq

namespace SchemeKind

/-- The kind of a scheme. -/
def of (scheme : String) : SchemeKind :=
  if scheme == "file" then file
  else if ["http", "https", "ws", "wss", "ftp"].contains scheme then hosted
  else other

/-- A separator of segments. Only under other schemes is a backslash an ordinary character. -/
def isSlash (kind : SchemeKind) (c : Char) : Bool := c == '/' || (c == '\\' && kind != other)

end SchemeKind

namespace Uri

/-- A character that starts the query or the fragment. -/
def isMark (c : Char) : Bool := c == '?' || c == '#'

/-- Characters that are escaped in a user or a password. -/
def reservedInUser : List Char :=
  UriPath.reserved ++ ['/', ':', ';', '=', '@', '[', '\\', ']', '^', '|']

/-- Characters that are escaped in a query. -/
def reservedInQuery (kind : SchemeKind) : List Char :=
  [' ', '"', '#', '<', '>'] ++ if kind = .other then [] else ['\x27']

/-- Characters that are escaped in a fragment. -/
def reservedInFragment : List Char := [' ', '"', '<', '>', '`']

/-- The number of the service that a scheme implies. -/
def impliedService? : String → Option Nat
  | "http" | "ws" => some 80
  | "https" | "wss" => some 443
  | "ftp" => some 21
  | _ => none

/-- The text without control characters and blanks around it and without any tabs and line ends. -/
def cleaned (text : List Char) : List Char :=
  let isOuter (c : Char) : Bool := decide (c.toNat ≤ 0x20)
  let inner := ((text.dropWhile isOuter).reverse.dropWhile isOuter).reverse
  inner.filter fun c => !(c == '\t' || c == '\n' || c == '\r')

/-- Cut off the scheme: a letter, then letters, digits, `+`, `-` and `.` up to a colon. -/
def scheme? (text : List Char) : Option (List Char × List Char) :=
  let scheme := text.takeWhile (· != ':')
  match text.dropWhile (· != ':') with
  | [] => none
  | _ :: rest =>
    if scheme.head?.any Char.isAlpha &&
        scheme.all fun c => c.isAlphanum || c == '+' || c == '-' || c == '.' then
      some (scheme.map Char.toLower, rest)
    else none

/-! ### Authority -/

/-- The text before the last at sign, if there is one, and the text after it. -/
def splitUser (text : List Char) : Option (List Char) × List Char :=
  let reversed := text.reverse
  match reversed.dropWhile (· != '@') with
  | [] => (none, text)
  | _ :: before => (some before.reverse, (reversed.takeWhile (· != '@')).reverse)

/-- User and password. Neither a colon before an empty password nor an at sign after nothing is
kept. -/
def userOf (text : List Char) : List Char :=
  let name := Percent.encode reservedInUser (text.takeWhile (· != ':'))
  let password := Percent.encode reservedInUser ((text.dropWhile (· != ':')).drop 1)
  if name.isEmpty && password.isEmpty then []
  else name ++ (if password.isEmpty then [] else ':' :: password) ++ ['@']

/-- The text up to the first colon outside of brackets, and the text from there. -/
def splitService (inBrackets : Bool) : List Char → List Char × List Char
  | [] => ([], [])
  | c :: rest =>
    if c == ':' && !inBrackets then ([], c :: rest)
    else
      let (host, service) := splitService (c == '[' || (inBrackets && c != ']')) rest
      (c :: host, service)

/-- The number of the service after a colon, and the text that follows its digits. Only a backslash
may follow them, where it does not end the authority. -/
def service? (scheme : String) : List Char → Option (Option Nat × List Char)
  | [] => some (none, [])
  | _ :: text =>
    let digits := text.takeWhile Char.isDigit
    let rest := text.dropWhile Char.isDigit
    match Address.numeral? 10 digits with
    | none => none
    | some service =>
      if decide (65535 < service) || rest.head?.any (· != '\\') then none
      else if digits.isEmpty || impliedService? scheme == some service then some (none, rest)
      else some (some service, rest)

/-- Read an authority; what follows it is the path. Without a host there is neither a number of a
service nor a user. -/
def authority? (kind : SchemeKind) (scheme : String) (text : List Char) :
    Option (Authority × List Char) :=
  let isEnd (c : Char) : Bool := kind.isSlash c || isMark c
  let rest := text.dropWhile fun c => !isEnd c
  let (userText, place) := splitUser (text.takeWhile fun c => !isEnd c)
  let (hostText, serviceText) := splitService false place
  let user := userOf (userText.getD [])
  let host? := if kind = .other then Host.ofName? hostText else Host.ofDomain? hostText
  match host?, service? scheme serviceText with
  | some host, some (service, beyond) =>
    if hostText.isEmpty && (!serviceText.isEmpty || !user.isEmpty ||
        (userText == some [] && !rest.isEmpty)) then
      none
    else some (⟨user, host, service⟩, beyond ++ rest)
  | _, _ => none

/-! ### Path -/

/-- Without a slash at the start. -/
def afterSlash (kind : SchemeKind) : List Char → List Char
  | [] => []
  | c :: rest => if kind.isSlash c then rest else c :: rest

/-- The host of a file; the own host is not named. -/
def fileHost? (text : List Char) : Option Host :=
  if text.isEmpty then some .empty
  else
    (Host.ofDomain? text).map fun host =>
      if host == .name "localhost".toList then .empty else host

/-- The place of a file, whose path follows a slash. A drive is part of the own host, so that a path
with a drive letter leaves no other one. -/
def filePlace (host : Host) (text : List Char) : Authority × UriPath :=
  let path := UriPath.ofText true SchemeKind.file.isSlash (text.takeWhile fun c => !isMark c)
  let host := if path.head?.any UriPath.isDrive then .empty else host
  (⟨[], host, none⟩, .segments (UriPath.trimmed path))

/-- Read what follows the scheme of a file: authority, path, and the text from the query on. Two
slashes announce a host, unless what follows them is a drive letter. -/
def readFile? (text : List Char) : Option (Option Authority × UriPath × List Char) :=
  let isSlash := SchemeKind.file.isSlash
  let isEnd (c : Char) : Bool := isSlash c || isMark c
  let place? : Option (Host × List Char) :=
    match text with
    | a :: b :: rest =>
      if isSlash a && isSlash b then
        let hostText := rest.takeWhile fun c => !isEnd c
        if UriPath.isDrive hostText then some (.empty, rest)
        else
          (fileHost? hostText).map fun host =>
            (host, afterSlash .file (rest.dropWhile fun c => !isEnd c))
      else some (.empty, afterSlash .file text)
    | _ => some (.empty, afterSlash .file text)
  place?.map fun (host, text) =>
    let (authority, path) := filePlace host text
    (some authority, path, text.dropWhile fun c => !isMark c)

/-- Read what follows a scheme that has to name a host. -/
def readHosted? (scheme : String) (text : List Char) :
    Option (Option Authority × UriPath × List Char) :=
  let isSlash := SchemeKind.hosted.isSlash
  (authority? .hosted scheme (text.dropWhile isSlash)).map fun (authority, rest) =>
    let text := afterSlash .hosted rest
    (some authority, .segments (UriPath.ofText false isSlash (text.takeWhile fun c => !isMark c)),
      text.dropWhile fun c => !isMark c)

/-- Read what follows any other scheme. -/
def readOther? (scheme : String) (text : List Char) :
    Option (Option Authority × UriPath × List Char) :=
  let isSlash := SchemeKind.other.isSlash
  let segmentsOf (rest : List Char) : UriPath :=
    .segments (UriPath.ofText false isSlash
      (afterSlash .other (rest.takeWhile fun c => !isMark c)))
  match text with
  | '/' :: '/' :: rest =>
    (authority? .other scheme rest).map fun (authority, rest) =>
      let path := if rest.head?.all isMark then .segments [] else segmentsOf rest
      (some authority, path, rest.dropWhile fun c => !isMark c)
  | '/' :: rest => some (none, segmentsOf ('/' :: rest), rest.dropWhile fun c => !isMark c)
  | _ =>
    some (none, .plain (Percent.encode [] (text.takeWhile fun c => !isMark c)),
      text.dropWhile fun c => !isMark c)

/-! ### The whole -/

/-- The query and the fragment, with what announces them. -/
def splitMarks (text : List Char) : Option (List Char) × Option (List Char) :=
  let fragmentOf : List Char → Option (List Char)
    | '#' :: fragment => some fragment
    | _ => none
  match text with
  | '?' :: rest =>
    (some (rest.takeWhile (· != '#')), fragmentOf (rest.dropWhile (· != '#')))
  | _ => (none, fragmentOf text)

/-- Read a URI. -/
def parse? (text : String) : Option Uri :=
  match scheme? (cleaned text.toList) with
  | none => none
  | some (scheme, rest) =>
    let name := String.ofList scheme
    let kind := SchemeKind.of name
    let read :=
      match kind with
      | .hosted => readHosted? name rest
      | .file => readFile? rest
      | .other => readOther? name rest
    read.map fun (authority, path, rest) =>
      let (query, fragment) := splitMarks rest
      ⟨scheme, authority, path, query.map (Percent.encode (reservedInQuery kind)),
        fragment.map (Percent.encode reservedInFragment)⟩

/-- The one spelling of a URI by which a document is known. -/
def normalize? (text : String) : Option String := (parse? text).map render

end Uri

end LexScope
