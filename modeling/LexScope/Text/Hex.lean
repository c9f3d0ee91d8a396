/-!
# Hexadecimal digits

Escapes in JSON and in URIs and the pieces of an IPv6 address are written in hexadecimal. Digits are
written in small letters and read in either case.
-/

namespace LexScope.Hex

/-- The digit of a number below sixteen. -/
def digit (n : Nat) : Char := Char.ofNat (if n < 10 then 48 + n else 87 + n)

/-- The value of a digit. -/
def value? (c : Char) : Option Nat :=
  if c.isDigit then some (c.toNat - 48)
  else if 'a' ≤ c ∧ c ≤ 'f' then some (c.toNat - 87)
  else if 'A' ≤ c ∧ c ≤ 'F' then some (c.toNat - 55)
  else none

/-- A digit has the value of the number that it was written for. -/
theorem value?_digit : ∀ n < 16, value? (digit n) = some n := by decide

end LexScope.Hex
