/-!
# Labels beyond ASCII

A label of a domain is written in ASCII by Punycode: its ASCII characters come first, then the
places of the others as a list of numbers. The others are taken in ascending order. Each number says
how many pairs of code point and place are passed over, and is written with digits of base
thirty-six whose least significant one comes first; how large its digits may be is adapted to the
numbers before.
-/

namespace LexScope.Punycode

/-- The digit of a number below thirty-six: letters first, then decimal digits. -/
def digit (n : Nat) : Char := Char.ofNat (if n < 26 then 97 + n else 22 + n)

/-- The least value that a digit in position `k` has while more digits follow it. -/
def threshold (bias k : Nat) : Nat := min 26 (max 1 (k - bias))

/-- The digits of a number from position `k` on. -/
def number (bias k n : Nat) : List Char :=
  let t := threshold bias k
  if n < t then [digit n]
  else digit (t + (n - t) % (36 - t)) :: number bias (k + 36) ((n - t) / (36 - t))
termination_by n
decreasing_by
  have hle : (n - threshold bias k) / (36 - threshold bias k) ≤ n - threshold bias k :=
    Nat.div_le_self _ _
  have hpos : 1 ≤ threshold bias k := by unfold threshold; omega
  omega

/-- How often a number can be divided by thirty-five until it is small, in steps of the base, and
what is left of it. -/
def reduced (delta steps : Nat) : Nat × Nat :=
  if 455 < delta then reduced (delta / 35) (steps + 36) else (delta, steps)
termination_by delta
decreasing_by exact Nat.div_lt_self (by omega) (by omega)

/-- The bias after a number, when `count` characters are written. -/
def adapted (delta count : Nat) (isFirst : Bool) : Nat :=
  let scaled := if isFirst then delta / 700 else delta / 2
  let (rest, steps) := reduced (scaled + scaled / count) 0
  steps + 36 * rest / (rest + 38)

/-- What has been written of a label. -/
structure Progress where
  /-- The digits so far. -/
  digits : List Char
  /-- Pairs passed over since the last number. -/
  delta : Nat
  /-- The bias of the next number. -/
  bias : Nat
  /-- Characters that are written. -/
  count : Nat

/-- Pass a character of the label while the characters with code point `target` are written. -/
def pass (basic target : Nat) (p : Progress) (c : Char) : Progress :=
  if c.toNat < target then { p with delta := p.delta + 1 }
  else if c.toNat = target then
    ⟨p.digits ++ number p.bias 36 p.delta, 0, adapted p.delta (p.count + 1) (p.count == basic),
      p.count + 1⟩
  else p

/-- Write the characters with the given code points, which ascend and start at `next` or later. -/
def writeFrom (label : List Char) (basic : Nat) (next : Nat) (p : Progress) :
    List Nat → Progress
  | [] => p
  | target :: rest =>
    let reached := { p with delta := p.delta + (target - next) * (p.count + 1) }
    let written := label.foldl (pass basic target) reached
    writeFrom label basic (target + 1) { written with delta := written.delta + 1 } rest

/-- Put a number into an ascending list that has each number once. -/
def insertOnce (n : Nat) : List Nat → List Nat
  | [] => [n]
  | m :: rest => if n < m then n :: m :: rest else if n = m then m :: rest else
    m :: insertOnce n rest

/-- A label in ASCII. -/
def encode (label : List Char) : List Char :=
  let basic := label.filter fun c => decide (c.toNat < 0x80)
  let others := (label.filter fun c => !decide (c.toNat < 0x80)).map Char.toNat
  let separator := if basic.isEmpty then [] else ['-']
  let written := writeFrom label basic.length 0x80 ⟨[], 0, 72, basic.length⟩
    (others.foldr insertOnce [])
  basic ++ separator ++ written.digits

end LexScope.Punycode
