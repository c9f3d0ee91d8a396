import LexScope.Span.Set

/-!
# Spans further on

A span moved by `k` offsets, and a set of offsets moved by as much. Every question about spans
compares offsets with one another and never with a fixed number, so each operation commutes with
the move.
-/

namespace LexScope

/-- Shifting both numbers keeps whether they are equal. -/
@[simp] theorem add_left_beq (k m n : Nat) : (k + m == k + n) = (m == n) := by
  rw [Bool.eq_iff_iff, beq_iff_eq, beq_iff_eq, Nat.add_left_cancel_iff]

namespace Span

/-- The span `k` offsets further on. -/
def shift (k : Nat) (s : Span) : Span := ⟨k + s.start, k + s.stop⟩

variable (k : Nat) (s t : Span)

/-- A moved span starts where the span did, moved. -/
@[simp] theorem shift_start : (s.shift k).start = k + s.start := rfl

/-- A moved span stops where the span did, moved. -/
@[simp] theorem shift_stop : (s.shift k).stop = k + s.stop := rfl

/-- A moved span has both its ends moved. -/
@[simp] theorem shift_mk (start stop : Nat) :
    shift k ⟨start, stop⟩ = ⟨k + start, k + stop⟩ := rfl

/-- Shifting a span by nothing changes nothing. -/
@[simp] theorem shift_zero : shift 0 = id := by
  funext s
  simp [shift]

/-- Moved spans are equal when the spans are. -/
@[simp] theorem shift_inj : s.shift k = t.shift k ↔ s = t := by
  rw [shift, shift, Span.mk.injEq, Nat.add_left_cancel_iff, Nat.add_left_cancel_iff]
  exact ⟨fun ⟨hstart, hstop⟩ => by cases s; cases t; simp_all, fun h => h ▸ ⟨rfl, rfl⟩⟩

/-- Moving a span keeps its length. -/
@[simp] theorem length_shift : (s.shift k).length = s.length := by
  simp [length, Nat.add_sub_add_left]

/-- Moving a span keeps whether it is empty. -/
@[simp] theorem isEmpty_shift : (s.shift k).isEmpty = s.isEmpty := by
  simp [isEmpty]

/-- A moved span holds the offsets of the span, moved. -/
@[simp] theorem contains_shift (offset : Nat) :
    (s.shift k).contains (k + offset) = s.contains offset := by
  simp [contains]

/-- A moved span touches the offsets the span does, moved. -/
@[simp] theorem touches_shift (offset : Nat) :
    (s.shift k).touches (k + offset) = s.touches offset := by
  simp [touches]

/-- Shifting both spans keeps whether they meet. -/
@[simp] theorem meets_shift : (s.shift k).meets (t.shift k) = s.meets t := by
  simp [meets]

/-- Shifting both spans keeps whether the first precedes the second. -/
@[simp] theorem precedes_shift : (s.shift k).precedes (t.shift k) = s.precedes t := by
  simp [precedes]

/-- Shifting both spans keeps their order. -/
@[simp] theorem atMost_shift : (s.shift k).atMost (t.shift k) = s.atMost t := by
  simp [atMost]

end Span

namespace SpanSet

/-- The set `k` offsets further on. -/
def shift (k : Nat) (set : SpanSet) : SpanSet := ⟨set.spans.map (Span.shift k)⟩

variable (k : Nat) (set : SpanSet)

/-- Shifting a set by nothing changes nothing. -/
@[simp] theorem shift_zero : shift 0 = id := by
  funext set
  simp [shift]

private theorem mergeFrom_shift (current : Span) (spans : List Span) :
    mergeFrom (current.shift k) (spans.map (Span.shift k)) =
      (mergeFrom current spans).map (Span.shift k) := by
  induction spans generalizing current with
  | nil => rfl
  | cons s rest ih =>
    simp only [List.map_cons, mergeFrom, Span.shift_start, Span.shift_stop,
      Nat.add_le_add_iff_left]
    split
    · rw [← ih, Span.shift_mk, Nat.add_max_add_left]
    · rw [List.map_cons, ih]

private theorem merge_shift (spans : List Span) :
    merge (spans.map (Span.shift k)) = (merge spans).map (Span.shift k) := by
  cases spans with
  | nil => rfl
  | cons s rest => exact mergeFrom_shift k s rest

/-- The set of moved spans is the set, moved. -/
@[simp] theorem ofList_shift (spans : List Span) :
    ofList (spans.map (Span.shift k)) = (ofList spans).shift k := by
  have hfilter : (spans.map (Span.shift k)).filter (fun s => !s.isEmpty) =
      (spans.filter fun s => !s.isEmpty).map (Span.shift k) := by
    simp [List.filter_map, Function.comp_def]
  rw [ofList, hfilter, ← List.map_mergeSort (r := Span.atMost), merge_shift]
  · rfl
  · intro s _ t _
    exact (Span.atMost_shift k s t).symm

/-- The union of moved sets is the union, moved. -/
@[simp] theorem union_shift (a b : SpanSet) :
    (a.shift k).union (b.shift k) = (a.union b).shift k := by
  rw [union, shift, shift, ← List.map_append, ofList_shift]
  rfl

/-- A moved set finds the first span after an offset, moved. -/
@[simp] theorem firstAfter_shift (offset : Nat) :
    (set.shift k).firstAfter (k + offset) = (set.firstAfter offset).map (Span.shift k) := by
  have hafter : (fun s : Span => decide (k + offset < s.stop)) ∘ Span.shift k =
      fun s => decide (offset < s.stop) := by
    funext s
    simp
  rw [firstAfter, firstAfter, shift, List.find?_map, hafter]

/-- A moved set finds the span at an offset, moved. -/
@[simp] theorem spanAt_shift (offset : Nat) :
    (set.shift k).spanAt (k + offset) = (set.spanAt offset).map (Span.shift k) := by
  simp [spanAt, Option.filter_map, Function.comp_def]

/-- Nothing of the moved set lies before the move. -/
theorem spanAt_shift_of_lt {offset : Nat} (h : offset < k) :
    (set.shift k).spanAt offset = none := by
  rw [spanAt, Option.filter_eq_none_iff]
  intro s hs
  have hmem := List.mem_of_find?_eq_some hs
  obtain ⟨t, -, rfl⟩ := List.mem_map.1 hmem
  have hlt : ¬k + t.start ≤ offset := by omega
  exact mt of_decide_eq_true hlt

/-- A moved set holds the offsets of the set, moved. -/
@[simp] theorem contains_shift (offset : Nat) :
    (set.shift k).contains (k + offset) = set.contains offset := by
  simp [contains]

/-- A moved set meets the spans the set does, moved. -/
@[simp] theorem meets_shift (s : Span) : (set.shift k).meets (s.shift k) = set.meets s := by
  simp [meets, Option.any_map]

end SpanSet

end LexScope
