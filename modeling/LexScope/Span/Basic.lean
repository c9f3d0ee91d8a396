/-!
# Spans

A document is addressed by byte offsets, and a span is a half-open stretch of them. Scopes are the
one place where the end counts too: a cursor right before a closing bracket is still inside, which
is what `Span.touches` says.
-/

namespace LexScope

/-- The offsets from `start` up to, and without, `stop`. -/
structure Span where
  /-- First offset of the span. -/
  start : Nat
  /-- First offset after the span. -/
  stop : Nat
  deriving DecidableEq, Inhabited

namespace Span

/-- The span at `offset` that holds no offset. -/
def point (offset : Nat) : Span := ⟨offset, offset⟩

/-- How many offsets the span holds. -/
def length (s : Span) : Nat := s.stop - s.start

/-- A span without offsets. -/
def isEmpty (s : Span) : Bool := s.start == s.stop

/-- The offset is one of the span's. -/
def contains (s : Span) (offset : Nat) : Bool :=
  decide (s.start ≤ offset) && decide (offset < s.stop)

/-- The offset is one of the span's, or its end. -/
def touches (s : Span) (offset : Nat) : Bool :=
  decide (s.start ≤ offset) && decide (offset ≤ s.stop)

/-- The span `t` lies between the ends of `s`. -/
def covers (s t : Span) : Bool :=
  decide (s.start ≤ t.start) && decide (t.stop ≤ s.stop)

/-- The two spans share an offset. An empty span holds none and so meets nothing. -/
def meets (s t : Span) : Bool :=
  !s.isEmpty && !t.isEmpty && decide (s.start < t.stop) && decide (t.start < s.stop)

/-- The least span that covers both. -/
def hull (s t : Span) : Span := ⟨min s.start t.start, max s.stop t.stop⟩

/-- Order by start, and by end where the starts agree. -/
def precedes (s t : Span) : Bool :=
  decide (s.start < t.start) || (s.start == t.start && decide (s.stop < t.stop))

/-- The reflexive order that sorts spans. -/
def atMost (s t : Span) : Bool := !t.precedes s

/-- The span written `start..stop`. -/
def render (s : Span) : String := s!"{s.start}..{s.stop}"

/-- A span holds the offsets from its start up to, but not at, its stop. -/
theorem contains_iff {s : Span} {offset : Nat} :
    s.contains offset = true ↔ s.start ≤ offset ∧ offset < s.stop := by
  simp [contains]

/-- A span touches the offsets from its start up to its stop. -/
theorem touches_iff {s : Span} {offset : Nat} :
    s.touches offset = true ↔ s.start ≤ offset ∧ offset ≤ s.stop := by
  simp [touches]

/-- A span covers those that start and stop within it. -/
theorem covers_iff {s t : Span} :
    s.covers t = true ↔ s.start ≤ t.start ∧ t.stop ≤ s.stop := by
  simp [covers]

end Span

end LexScope
