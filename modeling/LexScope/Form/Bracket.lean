import LexScope.Span.Basic

/-!
# Bracket pairs

The index of the matched brackets of a document. Pairs are sorted by their opening bracket, and each
carries the chain of pairs around it, innermost first. The chains are built in one sweep with a
stack, so neighbouring chains share their tails.
-/

namespace LexScope

/-- A matched pair of brackets. -/
structure Pair where
  /-- Offset of the opening bracket. -/
  opening : Nat
  /-- Offset of the closing bracket. -/
  closing : Nat
  deriving DecidableEq, Inhabited

namespace Pair

/-- The whole form, brackets included. -/
def span (p : Pair) : Span := ⟨p.opening, p.closing + 1⟩

/-- What stands between the brackets. -/
def inner (p : Pair) : Span := ⟨p.opening + 1, p.closing⟩

/-- The pair `q` is nested in `p` or equal to it. -/
def encloses (p q : Pair) : Bool :=
  decide (p.opening ≤ q.opening) && decide (q.closing ≤ p.closing)

/-- Order by opening bracket, then by closing bracket. -/
def atMost (p q : Pair) : Bool :=
  decide (p.opening < q.opening) || (p.opening == q.opening && decide (p.closing ≤ q.closing))

end Pair

/-- A pair with the pairs around it. -/
structure Nested where
  /-- The pair itself. -/
  pair : Pair
  /-- The pairs around it, innermost first. -/
  around : List Pair

/-- The bracket pairs of a document in order of their opening brackets. -/
structure PairIndex where
  /-- The pairs with their surroundings. -/
  entries : List Nested

namespace PairIndex

/-- Give each pair of a sorted list its surroundings; `stack` holds the pairs that may still be
open. -/
def nestFrom (stack : List Pair) : List Pair → List Nested
  | [] => []
  | p :: rest =>
    let around := stack.dropWhile fun q => decide (q.closing < p.opening)
    ⟨p, around⟩ :: nestFrom (p :: around) rest

/-- The index of well-nested pairs given in any order. -/
def ofPairs (pairs : List Pair) : PairIndex := ⟨nestFrom [] (pairs.mergeSort Pair.atMost)⟩

/-- All pairs in order. -/
def pairs (index : PairIndex) : List Pair := index.entries.map (·.pair)

/-- Number of pairs. -/
def size (index : PairIndex) : Nat := index.entries.length

/-- The entry of the pair that opens at an offset. -/
def entryAt (index : PairIndex) (opening : Nat) : Option Nested :=
  index.entries.find? fun e => e.pair.opening == opening

/-- The pair that opens at an offset. -/
def get? (index : PairIndex) (opening : Nat) : Option Pair :=
  (index.entryAt opening).map (·.pair)

/-- The bracket that closes the one at an offset. -/
def closingOf (index : PairIndex) (opening : Nat) : Option Nat :=
  (index.get? opening).map (·.closing)

/-- The bracket that opens what the one at an offset closes. -/
def openingOf (index : PairIndex) (closing : Nat) : Option Nat :=
  (index.entries.find? fun e => e.pair.closing == closing).map (·.pair.opening)

/-- The pair directly around the one that opens at an offset. -/
def parent (index : PairIndex) (opening : Nat) : Option Pair :=
  (index.entryAt opening).bind (·.around.head?)

/-- The pairs that no other pair is around. -/
def topLevel (index : PairIndex) : List Pair :=
  (index.entries.filter (·.around.isEmpty)).map (·.pair)

/-- The innermost pair whose brackets enclose, or stand at, an offset. The search starts at the last
pair that opens no later and goes outwards. -/
def enclosing (index : PairIndex) (offset : Nat) : Option Pair :=
  match (index.entries.takeWhile fun e => decide (e.pair.opening ≤ offset)).getLast? with
  | none => none
  | some e => (e.pair :: e.around).find? fun p => decide (offset ≤ p.closing)

/-- The outermost pair whose brackets enclose, or stand at, an offset. -/
def topLevelAt (index : PairIndex) (offset : Nat) : Option Pair :=
  (index.enclosing offset).map fun p =>
    ((index.entryAt p.opening).bind (·.around.getLast?)).getD p

/-- The pairs of a sorted list that open before `closing`, each one skipping those nested in it. -/
def siblings (closing : Nat) : List Pair → List Pair
  | [] => []
  | p :: rest =>
    if p.opening < closing then
      p :: siblings closing (rest.dropWhile fun q => decide (q.opening ≤ p.closing))
    else []
termination_by pairs => pairs.length
decreasing_by
  have := (List.dropWhile_sublist (fun q : Pair => decide (q.opening ≤ p.closing))
    (l := rest)).length_le
  simp only [List.length_cons]
  omega

/-- The pairs directly inside a pair of the index, in order. -/
def children (index : PairIndex) (p : Pair) : List Pair :=
  match index.pairs.dropWhile fun q => decide (q.opening < p.opening) with
  | [] => []
  | q :: rest => if q.opening == p.opening then siblings p.closing rest else []

end PairIndex

end LexScope
