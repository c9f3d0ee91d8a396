import LexScope.Text.CaseTable

/-!
# Lower case

Names are compared in lower case. For letters beyond ASCII the mapping is that of Unicode, with its
two special cases: a capital sigma at the end of a word becomes the final form, and a capital I with
a dot above becomes two characters.

Words that the language itself fixes (form heads, lambda-list markers, loop words, exclusion modes)
are ASCII, and for them `lowerAscii` is enough.
-/

namespace LexScope

/-- The code point is in one of the closed intervals. -/
def inIntervals (intervals : List (Nat × Nat)) (n : Nat) : Bool :=
  intervals.any fun (first, last) => decide (first ≤ n) && decide (n ≤ last)

/-- The simple lower-case mapping of one character. -/
def lowerChar (c : Char) : Char :=
  if c.toNat < 0x80 then c.toLower
  else
    match CaseTable.lower.find? fun r =>
        decide (r.first ≤ c.toNat) && decide (c.toNat ≤ r.last) with
    | some r =>
      if (c.toNat - r.first) % r.step == 0 then Char.ofNat (c.toNat + r.shift).toNat else c
    | none => c

/-- Past the case-ignorable characters the next one is cased. -/
def reachesCased (chars : List Char) : Bool :=
  match chars.find? fun c => !inIntervals CaseTable.ignorable c.toNat with
  | some c => inIntervals CaseTable.cased c.toNat
  | none => false

/-- Lower-case some characters that follow `before`, which is given in reverse: a capital sigma
needs to know what stands on both of its sides. -/
def lowerChars (before : List Char) : List Char → List Char
  | [] => []
  | c :: rest =>
    let image : List Char :=
      if c == 'Σ' then
        [if reachesCased before && !reachesCased rest then 'ς' else 'σ']
      else if c == 'İ' then ['i', '\u0307']
      else [lowerChar c]
    image ++ lowerChars (c :: before) rest

/-- The text in lower case. -/
def lowerCase (text : String) : String := String.ofList (lowerChars [] text.toList)

/-- The text with its ASCII capitals in lower case. -/
def lowerAscii (text : String) : String := String.ofList (text.toList.map Char.toLower)

/-- The two texts differ at most in the case of ASCII letters. -/
def sameWord (a b : String) : Bool := lowerAscii a == lowerAscii b

end LexScope
