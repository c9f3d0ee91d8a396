import LexScope.Text.CaseMap
import LexScope.Uri.Address
import LexScope.Uri.Percent
import LexScope.Uri.Punycode

/-!
# Hosts

The host of a URI is a name or an address. Where the scheme knows domains, a name is freed of
escapes, brought to lower case and written in ASCII, and one that ends in a number has to be an IPv4
address. Under other schemes a name is any text without delimiters. An IPv6 address stands in
brackets under every scheme.
-/

namespace LexScope

/-- The host of a URI. -/
inductive Host where
  /-- A name, which may be empty. -/
  | name (text : List Char)
  /-- An IPv4 address. -/
  | ipv4 (address : Nat)
  /-- The eight pieces of an IPv6 address. -/
  | ipv6 (pieces : List Nat)
  deriving DecidableEq

namespace Host

/-- No host. -/
def empty : Host := name []

/-- Characters that stand in no domain, besides control characters and the blank. -/
def outsideDomain : List Char :=
  ['%', '#', '/', ':', '<', '>', '?', '@', '[', '\\', ']', '^', '|']

/-- Characters that stand in no name under other schemes. -/
def outsideName : List Char :=
  ['\x00', '\t', '\n', '\r', ' ', '#', '/', ':', '<', '>', '?', '@', '[', '\\', ']', '^', '|']

/-- The characters that stand for a character of a domain: capitals become small letters, wide forms
of ASCII become ASCII, all full stops are one, and invisible marks are dropped. -/
def fold (c : Char) : List Char :=
  if c.toNat < 0x80 then [c.toLower]
  else if ['\u00AD', '\u200B', '\u2060', '\uFEFF'].contains c then []
  else if c == '\u3002' || c == '\uFF61' then ['.']
  else if 0xFF01 ≤ c.toNat ∧ c.toNat ≤ 0xFF5E then [(Char.ofNat (c.toNat - 0xFEE0)).toLower]
  else if c == 'İ' then ['i', '\u0307']
  else [lowerChar c]

/-- A label of a domain in ASCII. -/
def label (text : List Char) : List Char :=
  if text.all fun c => decide (c.toNat < 0x80) then text
  else ['x', 'n', '-', '-'] ++ Punycode.encode text

/-- A domain in ASCII. -/
def domain? (text : List Char) : Option (List Char) :=
  let folded := text.flatMap fold
  if folded.any fun c => decide (c.toNat ≤ 0x20) || c == '\x7f' || outsideDomain.contains c then
    none
  else some (joinWith '.' ((splitWhere (· == '.') folded).map label))

/-- A text in brackets. -/
def bracketed? : List Char → Option (List Char)
  | '[' :: rest => if rest.getLast? == some ']' then some rest.dropLast else none
  | _ => none

/-- A host that starts with a bracket is an IPv6 address. -/
def literal? (text : List Char) : Option Host :=
  ((bracketed? text).bind Address.ipv6?).map ipv6

/-- A domain or an address. -/
def ofDomain? (text : List Char) : Option Host :=
  if text.head? == some '[' then literal? text
  else
    match (String.fromUTF8? ⟨(Percent.decode text).toArray⟩).bind fun s => domain? s.toList with
    | none => none
    | some [] => none
    | some domain =>
      if Address.endsInNumber domain then (Address.ipv4? domain).map ipv4 else some (name domain)

/-- A name under a scheme that does not know domains. -/
def ofName? (text : List Char) : Option Host :=
  if text.head? == some '[' then literal? text
  else if text.any outsideName.contains then none
  else some (name (Percent.encode [] text))

/-- The text of a host. -/
def render : Host → List Char
  | name text => text
  | ipv4 address => Address.renderIpv4 address
  | ipv6 pieces => ['['] ++ Address.renderIpv6 pieces ++ [']']

end Host

end LexScope
