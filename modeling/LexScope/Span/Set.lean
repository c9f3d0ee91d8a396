import LexScope.Span.Basic

/-!
# Sets of offsets

A set of offsets is kept as its maximal stretches: non-empty spans in order, with a gap between
neighbours. `SpanSet.ofList` brings any spans into that form, so two spans that only touch become
one, and union and difference stay in it.
-/

namespace LexScope

/-- A set of offsets as a list of spans in order. -/
structure SpanSet where
  /-- The stretches of the set. -/
  spans : List Span
  deriving DecidableEq, Inhabited

namespace SpanSet

/-- No offsets. -/
def empty : SpanSet := ⟨[]⟩

/-- Join spans sorted by start onto the last stretch `current` while they reach it. -/
def mergeFrom (current : Span) : List Span → List Span
  | [] => [current]
  | s :: rest =>
    if s.start ≤ current.stop then mergeFrom ⟨current.start, max current.stop s.stop⟩ rest
    else current :: mergeFrom s rest

/-- Join overlapping and touching spans of a sorted list. -/
def merge : List Span → List Span
  | [] => []
  | s :: rest => mergeFrom s rest

/-- The offsets of arbitrary spans. -/
def ofList (spans : List Span) : SpanSet :=
  ⟨merge ((spans.filter fun s => !s.isEmpty).mergeSort Span.atMost)⟩

/-- Number of stretches. -/
def size (set : SpanSet) : Nat := set.spans.length

/-- A set without offsets. -/
def isEmpty (set : SpanSet) : Bool := set.spans.isEmpty

/-- The first stretch that ends after `offset`: the only one that can hold it. -/
def firstAfter (set : SpanSet) (offset : Nat) : Option Span :=
  set.spans.find? fun s => decide (offset < s.stop)

/-- The stretch that holds `offset`. -/
def spanAt (set : SpanSet) (offset : Nat) : Option Span :=
  (set.firstAfter offset).filter fun s => decide (s.start ≤ offset)

/-- The offset is in the set. -/
def contains (set : SpanSet) (offset : Nat) : Bool := (set.spanAt offset).isSome

/-- The span shares an offset with the set; an empty span stands for its start. -/
def meets (set : SpanSet) (s : Span) : Bool :=
  if s.isEmpty then set.contains s.start
  else (set.firstAfter s.start).any fun t => decide (t.start < s.stop)

/-- The span lies in one stretch of the set. -/
def covers (set : SpanSet) (s : Span) : Bool :=
  (set.spanAt s.start).any fun t => decide (s.stop ≤ t.stop)

/-- The offsets of either set. -/
def union (a b : SpanSet) : SpanSet := ofList (a.spans ++ b.spans)

/-- Cut the holes out of the sorted spans. `start` is where the first span still has to be
decided: what lies before it is already kept or cut. -/
def cut (start stop : Nat) (rest : List Span) (holes : List Span) : List Span :=
  match holes with
  | [] => (if start < stop then [⟨start, stop⟩] else []) ++ rest
  | hole :: holes' =>
    if hole.stop ≤ start then cut start stop rest holes'
    else if stop ≤ hole.start then
      (if start < stop then [⟨start, stop⟩] else []) ++
        match rest with
        | [] => []
        | s :: rest' => cut s.start s.stop rest' (hole :: holes')
    else
      (if start < hole.start then [⟨start, hole.start⟩] else []) ++
        if stop < hole.stop then
          match rest with
          | [] => []
          | s :: rest' => cut s.start s.stop rest' (hole :: holes')
        else cut hole.stop stop rest holes'
termination_by rest.length + holes.length

/-- The offsets of `a` that are not in `b`. -/
def diff (a b : SpanSet) : SpanSet :=
  match a.spans with
  | [] => empty
  | s :: rest => ⟨cut s.start s.stop rest b.spans⟩

/-- The set of no spans is empty. -/
theorem ofList_nil : ofList [] = ⟨[]⟩ := by
  simp [ofList, merge]

/-- A stretch found at an offset holds it. -/
theorem bounds_of_spanAt {set : SpanSet} {offset : Nat} {s : Span}
    (h : set.spanAt offset = some s) : s.start ≤ offset ∧ offset < s.stop := by
  obtain ⟨hfind, hstart⟩ := Option.filter_eq_some_iff.1 h
  have hstop := List.find?_some hfind
  simp only [decide_eq_true_eq] at hstart hstop
  exact ⟨hstart, hstop⟩

end SpanSet

end LexScope
