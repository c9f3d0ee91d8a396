import LexScope.Text.Hex
import LexScope.Text.Split

/-!
# Internet addresses

A host may be given by its number. The four bytes of an IPv4 address are written in decimal,
octal or hexadecimal, and the last number may stand for several bytes. The eight pieces of an IPv6
address are written in hexadecimal, the last two possibly as an IPv4 address, and one run of zeros
may be left out. Both have one normal form.
-/

namespace LexScope.Address

/-- The number that digits of a base spell. -/
def numeral? (base : Nat) (digits : List Char) : Option Nat :=
  digits.foldl (fun value c =>
    match value, Hex.value? c with
    | some v, some d => if d < base then some (v * base + d) else none
    | _, _ => none) (some 0)

/-! ### IPv4 -/

/-- A number of an IPv4 address: hexadecimal after `0x`, octal after `0`, decimal otherwise. -/
def part? : List Char → Option Nat
  | [] => none
  | '0' :: 'x' :: digits => numeral? 16 digits
  | '0' :: 'X' :: digits => numeral? 16 digits
  | '0' :: c :: digits => numeral? 8 (c :: digits)
  | digits => numeral? 10 digits

/-- The parts of a dotted name; a dot at the end is dropped. -/
def parts (name : List Char) : List (List Char) :=
  let all := splitWhere (· == '.') name
  if all.getLast? == some [] && decide (1 < all.length) then all.dropLast else all

/-- The last part of a name is a number, so that the name has to be an IPv4 address. -/
def endsInNumber (name : List Char) : Bool :=
  match (parts name).getLast? with
  | some last => (!last.isEmpty && last.all Char.isDigit) || (part? last).isSome
  | none => false

/-- The address of numbers, the last of which fills all bytes that are left. -/
def assemble? (numbers : List Nat) : Option Nat :=
  match numbers.reverse with
  | [] => none
  | last :: reversed =>
    let leading := reversed.reverse
    if decide (leading.length < 4) && leading.all (fun n => decide (n < 256)) &&
        decide (last < Nat.pow 256 (4 - leading.length)) then
      some (leading.foldl (fun value n => value * 256 + n) 0 * Nat.pow 256 (4 - leading.length)
        + last)
    else none

/-- The IPv4 address that a name spells. -/
def ipv4? (name : List Char) : Option Nat := ((parts name).mapM part?).bind assemble?

/-- An IPv4 address as four decimal numbers. -/
def renderIpv4 (address : Nat) : List Char :=
  let bytes := [address / 16777216 % 256, address / 65536 % 256, address / 256 % 256, address % 256]
  joinWith '.' (bytes.map (Nat.toDigits 10))

/-! ### IPv6 -/

/-- A piece of an IPv6 address: one to four hexadecimal digits. -/
def piece? (digits : List Char) : Option Nat :=
  if digits.isEmpty || decide (4 < digits.length) then none else numeral? 16 digits

/-- A byte in decimal without needless zeros. -/
def byte? (digits : List Char) : Option Nat :=
  match digits with
  | [] => none
  | '0' :: _ :: _ => none
  | _ => (numeral? 10 digits).filter fun n => decide (n < 256)

/-- The two pieces that an IPv4 address in four decimal numbers stands for. -/
def dotted? (text : List Char) : Option (List Nat) :=
  match (splitWhere (· == '.') text).mapM byte? with
  | some [a, b, c, d] => some [a * 256 + b, c * 256 + d]
  | _ => none

/-- The pieces between colons. Only the last one may be an IPv4 address. -/
def pieces? : List (List Char) → Option (List Nat)
  | [] => some []
  | [last] => if last.contains '.' then dotted? last else (piece? last).map ([·])
  | first :: more =>
    match piece? first, pieces? more with
    | some n, some rest => some (n :: rest)
    | _, _ => none

/-- The two sides of the first pair of colons. -/
def splitDouble : List Char → Option (List Char × List Char)
  | ':' :: ':' :: rest => some ([], rest)
  | c :: rest => (splitDouble rest).map fun (left, right) => (c :: left, right)
  | [] => none

/-- The pieces of one side of a pair of colons. -/
def side? (text : List Char) : Option (List Nat) :=
  if text.isEmpty then some [] else pieces? (splitWhere (· == ':') text)

/-- The eight pieces of an IPv6 address. A pair of colons stands for at least one piece, and no IPv4
address comes before it. -/
def ipv6? (text : List Char) : Option (List Nat) :=
  match splitDouble text with
  | none => (pieces? (splitWhere (· == ':') text)).filter fun ps => ps.length == 8
  | some (left, right) =>
    match side? left, side? right with
    | some l, some r =>
      if left.contains '.' || decide (7 < l.length + r.length) then none
      else some (l ++ List.replicate (8 - l.length - r.length) 0 ++ r)
    | _, _ => none

/-- Length of the run of zeros at the start. -/
def zeros (pieces : List Nat) : Nat := (pieces.takeWhile (· == 0)).length

/-- Start and length of the first longest run of zeros. -/
def longestZeros : List Nat → Nat × Nat
  | [] => (0, 0)
  | p :: rest =>
    let here := zeros (p :: rest)
    let (start, length) := longestZeros rest
    if length ≤ here then (0, here) else (start + 1, length)

/-- Pieces in hexadecimal with colons between them. -/
def renderPieces (pieces : List Nat) : List Char := joinWith ':' (pieces.map (Nat.toDigits 16))

/-- An IPv6 address. Its first longest run of two or more zeros is left out. -/
def renderIpv6 (pieces : List Nat) : List Char :=
  let (start, length) := longestZeros pieces
  if 2 ≤ length then
    renderPieces (pieces.take start) ++ [':', ':'] ++ renderPieces (pieces.drop (start + length))
  else renderPieces pieces

end LexScope.Address
