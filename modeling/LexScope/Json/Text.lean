import LexScope.Json
import LexScope.Text.Hex

/-!
# JSON as text

A value is written without blanks, with the members of an object in their order. Reading is a
descent over the characters with a depth limit. The limit never cuts a text short: one level of the
descent in two takes a character, and the limit is more than twice the length of the text.
-/

namespace LexScope.Json

/-! ### Writing -/

/-- A character inside a string. Quotes, backslashes and control characters are escaped. -/
def escaped (c : Char) : List Char :=
  if c == '"' || c == '\\' then ['\\', c]
  else if c.toNat < 32 then ['\\', 'u', '0', '0', Hex.digit (c.toNat / 16), Hex.digit (c.toNat % 16)]
  else [c]

/-- A string between quotes. -/
def quoted (s : String) : String := "\"" ++ String.ofList (s.toList.flatMap escaped) ++ "\""

/-- A number; decimals are written as a negative power of ten. -/
def renderNumber (mantissa : Int) (decimals : Nat) : String :=
  if decimals = 0 then toString mantissa else toString mantissa ++ "e-" ++ toString decimals

mutual

/-- The text of a value. -/
def render : Json → String
  | null => "null"
  | bool true => "true"
  | bool false => "false"
  | number mantissa decimals => renderNumber mantissa decimals
  | string s => quoted s
  | array elements => "[" ++ ",".intercalate (renderElements elements) ++ "]"
  | object members => "\x7b" ++ ",".intercalate (renderMembers members) ++ "\x7d"

/-- The texts of the elements of an array. -/
def renderElements : List Json → List String
  | [] => []
  | j :: rest => render j :: renderElements rest

/-- The texts of the members of an object. -/
def renderMembers : List (String × Json) → List String
  | [] => []
  | (name, j) :: rest => (quoted name ++ ":" ++ render j) :: renderMembers rest

end

/-! ### Reading -/

/-- A blank between the parts of a value. -/
def isBlank (c : Char) : Bool := c == ' ' || c == '\t' || c == '\n' || c == '\r'

/-- The character that a letter after a backslash stands for. -/
def escape? : Char → Option Char
  | 'b' => some '\x08'
  | 'f' => some '\x0c'
  | 'n' => some '\n'
  | 'r' => some '\r'
  | 't' => some '\t'
  | c => if c == '"' || c == '\\' || c == '/' then some c else none

/-- The code units of a string up to its closing quote, and the text after that. An escaped unit may
be half of a character, every other unit is a whole one. -/
def readUnits : List Char → Option (List Nat × List Char)
  | [] => none
  | '"' :: rest => some ([], rest)
  | '\\' :: 'u' :: a :: b :: c :: d :: rest =>
    match Hex.value? a, Hex.value? b, Hex.value? c, Hex.value? d, readUnits rest with
    | some a, some b, some c, some d, some (units, rest') =>
      some ((((a * 16 + b) * 16 + c) * 16 + d) :: units, rest')
    | _, _, _, _, _ => none
  | '\\' :: c :: rest =>
    match escape? c, readUnits rest with
    | some c, some (units, rest') => some (c.toNat :: units, rest')
    | _, _ => none
  | c :: rest =>
    if c.toNat < 32 then none
    else (readUnits rest).map fun (units, rest') => (c.toNat :: units, rest')

/-- Join the halves of characters; a half on its own is no text. -/
def joinUnits : List Nat → Option (List Char)
  | [] => some []
  | [u] => if Nat.isValidChar u then some [Char.ofNat u] else none
  | u :: v :: rest =>
    if Nat.isValidChar u then (joinUnits (v :: rest)).map (Char.ofNat u :: ·)
    else if u < 0xDC00 ∧ 0xDC00 ≤ v ∧ v < 0xE000 then
      (joinUnits rest).map (Char.ofNat (0x10000 + (u - 0xD800) * 0x400 + (v - 0xDC00)) :: ·)
    else none

/-- The rest of a string after its opening quote, and the text after the string. -/
def readString (cs : List Char) : Option (String × List Char) :=
  match readUnits cs with
  | some (units, rest) => (joinUnits units).map fun s => (String.ofList s, rest)
  | none => none

/-- The number that digits spell. -/
def digitsValue (ds : List Char) : Nat := ds.foldl (fun n d => n * 10 + (d.toNat - 48)) 0

/-- The digits that start a text; there has to be one. -/
def readDigits (cs : List Char) : Option (List Char × List Char) :=
  match cs.takeWhile Char.isDigit with
  | [] => none
  | ds => some (ds, cs.dropWhile Char.isDigit)

/-- Digits before the decimal point, which start with zero only if that is all. -/
def readWhole (cs : List Char) : Option (List Char × List Char) :=
  match readDigits cs with
  | some ('0' :: _ :: _, _) => none
  | other => other

/-- Digits after a decimal point, if there is one. -/
def readFraction : List Char → Option (List Char × List Char)
  | '.' :: rest => readDigits rest
  | cs => some ([], cs)

/-- The greatest power of ten that a number may be written with. -/
def maxExponent : Nat := 308

/-- An exponent, if there is one. -/
def readExponent : List Char → Option (Int × List Char)
  | [] => some (0, [])
  | e :: rest =>
    if e != 'e' && e != 'E' then some (0, e :: rest)
    else
      let (sign, digits) : Int × List Char :=
        match rest with
        | '-' :: r => (-1, r)
        | '+' :: r => (1, r)
        | r => (1, r)
      match readDigits digits with
      | some (ds, rest') =>
        if digitsValue ds ≤ maxExponent then some (sign * digitsValue ds, rest') else none
      | none => none

/-- A number. -/
def readNumber (cs : List Char) : Option (Json × List Char) :=
  let (sign, digits) : Int × List Char :=
    match cs with
    | '-' :: rest => (-1, rest)
    | _ => (1, cs)
  match readWhole digits with
  | none => none
  | some (whole, rest) =>
    match readFraction rest with
    | none => none
    | some (fraction, rest) =>
      match readExponent rest with
      | none => none
      | some (exponent, rest) =>
        let power := exponent - fraction.length
        let mantissa := digitsValue (whole ++ fraction) * Nat.pow 10 power.toNat
        some (number (sign * mantissa) (-power).toNat, rest)

/-- A word at the start of a text. -/
def readWord (word : String) (j : Json) (cs : List Char) : Option (Json × List Char) :=
  if word.toList.isPrefixOf cs then some (j, cs.drop word.length) else none

mutual

/-- A value and the text after it, read at most `depth` levels down. -/
def readValue (depth : Nat) (cs : List Char) : Option (Json × List Char) :=
  match depth with
  | 0 => none
  | depth + 1 =>
    match cs.dropWhile isBlank with
    | '"' :: rest => (readString rest).map fun (s, rest') => (string s, rest')
    | '[' :: rest =>
      match rest.dropWhile isBlank with
      | ']' :: rest' => some (array [], rest')
      | _ => (readElements depth rest).map fun (js, rest') => (array js, rest')
    | '\x7b' :: rest =>
      match rest.dropWhile isBlank with
      | '\x7d' :: rest' => some (object [], rest')
      | _ => (readMembers depth rest).map fun (ms, rest') => (object ms, rest')
    | 'n' :: rest => readWord "ull" null rest
    | 't' :: rest => readWord "rue" (bool true) rest
    | 'f' :: rest => readWord "alse" (bool false) rest
    | other => readNumber other

/-- The elements of an array up to its closing bracket; there is at least one. -/
def readElements (depth : Nat) (cs : List Char) : Option (List Json × List Char) :=
  match depth with
  | 0 => none
  | depth + 1 =>
    match readValue depth cs with
    | none => none
    | some (j, rest) =>
      match rest.dropWhile isBlank with
      | ']' :: rest' => some ([j], rest')
      | ',' :: rest' => (readElements depth rest').map fun (js, rest'') => (j :: js, rest'')
      | _ => none

/-- The members of an object up to its closing brace; there is at least one. -/
def readMembers (depth : Nat) (cs : List Char) : Option (List (String × Json) × List Char) :=
  match depth with
  | 0 => none
  | depth + 1 =>
    match cs.dropWhile isBlank with
    | '"' :: rest =>
      match readString rest with
      | none => none
      | some (name, rest) =>
        match rest.dropWhile isBlank with
        | ':' :: rest =>
          match readValue depth rest with
          | none => none
          | some (j, rest) =>
            match rest.dropWhile isBlank with
            | '\x7d' :: rest' => some ([(name, j)], rest')
            | ',' :: rest' =>
              (readMembers depth rest').map fun (ms, rest'') => ((name, j) :: ms, rest'')
            | _ => none
        | _ => none
    | _ => none

end

/-- The value that a text spells, if it spells one and nothing follows. -/
def parse? (text : String) : Option Json :=
  match readValue (2 * text.length + 2) text.toList with
  | some (j, rest) => if rest.all isBlank then some j else none
  | none => none

end LexScope.Json
