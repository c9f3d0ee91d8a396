import LexScope.Form.Symbol
import LexScope.Proofs.Form.Printed
import LexScope.Proofs.Span.Shift

/-!
# Forms further on

The layout of a document that starts with blank bytes is that of the document without them, moved
by their number: no lexeme depends on what stands before it, and everything after the lexemes only
compares offsets. The sweep over the layers starts at offset zero, but the first layer it enters
sets the cursor, so that the start does not show.

Elements and words are then read at the moved offsets as they were read before.
-/

namespace LexScope

open Byte Utf8

variable (k : Nat)

/-! ## Brackets -/

namespace Pair

/-- The pair `k` offsets further on. -/
def shift (p : Pair) : Pair := ⟨k + p.opening, k + p.closing⟩

variable (p q : Pair)

/-- A moved pair opens where the pair did, moved. -/
@[simp] theorem shift_opening : (p.shift k).opening = k + p.opening := rfl

/-- A moved pair closes where the pair did, moved. -/
@[simp] theorem shift_closing : (p.shift k).closing = k + p.closing := rfl

/-- Shifting a pair by nothing changes nothing. -/
@[simp] theorem shift_zero : shift 0 = id := by
  funext p
  simp [shift]

/-- The span of a moved pair is the span, moved. -/
@[simp] theorem span_shift : (p.shift k).span = p.span.shift k := rfl

/-- Shifting both pairs keeps their order. -/
@[simp] theorem atMost_shift : (p.shift k).atMost (q.shift k) = p.atMost q := by
  simp [atMost]

end Pair

/-- The pair and those around it, `k` offsets further on. -/
def Nested.shift (n : Nested) : Nested := ⟨n.pair.shift k, n.around.map (Pair.shift k)⟩

/-- The pair of a moved nested pair is the pair, moved. -/
@[simp] theorem Nested.shift_pair (n : Nested) : (n.shift k).pair = n.pair.shift k := rfl

/-- Shifting a nested pair by nothing changes nothing. -/
@[simp] theorem Nested.shift_zero : Nested.shift 0 = id := by
  funext n
  simp [shift]

namespace PairIndex

/-- The pairs of the index, `k` offsets further on. -/
def shift (index : PairIndex) : PairIndex := ⟨index.entries.map (Nested.shift k)⟩

variable (index : PairIndex)

/-- Shifting an index by nothing changes nothing. -/
@[simp] theorem shift_zero : shift 0 = id := by
  funext index
  simp [shift]

private theorem nestFrom_shift (stack pairs : List Pair) :
    nestFrom (stack.map (Pair.shift k)) (pairs.map (Pair.shift k)) =
      (nestFrom stack pairs).map (Nested.shift k) := by
  induction pairs generalizing stack with
  | nil => rfl
  | cons p rest ih =>
    simp only [List.map_cons, nestFrom, List.dropWhile_map, Function.comp_def, Pair.shift_closing,
      Pair.shift_opening, Nat.add_lt_add_iff_left, ← ih]
    rfl

/-- The index of moved pairs is the index, moved. -/
@[simp] theorem ofPairs_shift (pairs : List Pair) :
    ofPairs (pairs.map (Pair.shift k)) = (ofPairs pairs).shift k := by
  rw [ofPairs, ← List.map_mergeSort (r := Pair.atMost)]
  · exact congrArg PairIndex.mk (nestFrom_shift k [] _)
  · intro p _ q _
    exact (Pair.atMost_shift k p q).symm

/-- A moved index lists the pairs, moved. -/
@[simp] theorem pairs_shift : (index.shift k).pairs = index.pairs.map (Pair.shift k) := by
  simp [pairs, shift, Function.comp_def]

/-- A moved index finds the closing brackets, moved. -/
@[simp] theorem closingOf_shift (offset : Nat) :
    (index.shift k).closingOf (k + offset) = (index.closingOf offset).map (k + ·) := by
  simp [closingOf, get?, entryAt, shift, List.find?_map, Function.comp_def]

private theorem siblings_shift (closing : Nat) (pairs : List Pair) :
    siblings (k + closing) (pairs.map (Pair.shift k)) =
      (siblings closing pairs).map (Pair.shift k) := by
  fun_induction siblings closing pairs with
  | case1 => simp [siblings]
  | case2 p rest hlt ih =>
    rw [List.map_cons, siblings, Pair.shift_opening, if_pos (Nat.add_lt_add_left hlt k),
      List.map_cons, ← ih, List.dropWhile_map]
    simp [Function.comp_def]
  | case3 p rest hlt =>
    rw [List.map_cons, siblings, Pair.shift_opening,
      if_neg (mt Nat.lt_of_add_lt_add_left hlt), List.map_nil]

/-- A moved pair has the children of the pair, moved. -/
@[simp] theorem children_shift (p : Pair) :
    (index.shift k).children (p.shift k) = (index.children p).map (Pair.shift k) := by
  simp only [children, pairs_shift, List.dropWhile_map, Function.comp_def, Pair.shift_opening,
    Nat.add_lt_add_iff_left]
  cases index.pairs.dropWhile fun q => decide (q.opening < p.opening) with
  | nil => rfl
  | cons q rest =>
    simp only [List.map_cons, Pair.shift_opening, add_left_beq, Pair.shift_closing, siblings_shift]
    split <;> rfl

end PairIndex

/-! ## Lexemes -/

/-- The lexeme `k` offsets further on. -/
def Lexeme.shift (l : Lexeme) : Lexeme := ⟨l.kind, l.span.shift k⟩

/-- What a lexeme is does not depend on where it stands. -/
theorem lexemesFrom_shift (pos : Nat) (bytes : List UInt8) :
    lexemesFrom (k + pos) bytes = (lexemesFrom pos bytes).map (Lexeme.shift k) := by
  fun_induction lexemesFrom pos bytes with
  | case1 => simp [lexemesFrom]
  | case2 pos b rest kind more hread width ih =>
    rw [lexemesFrom, hread, List.map_cons, ← ih, Lexeme.shift, Span.shift_mk]
    simp only [Nat.add_assoc, width]

/-! ## Layout -/

/-- The reach of the markers, `k` offsets further on. -/
def MarkerSpans.shift (m : MarkerSpans) : MarkerSpans :=
  ⟨m.forms.map (Span.shift k), m.atoms.map (Span.shift k)⟩

/-- Shifting the spans of a marker by nothing changes nothing. -/
@[simp] theorem MarkerSpans.shift_zero : MarkerSpans.shift 0 = id := by
  funext m
  simp [shift]

/-- The moved spans of a marker are its spans, moved. -/
@[simp] theorem MarkerSpans.spans_shift (m : MarkerSpans) :
    (m.shift k).spans = m.spans.map (Span.shift k) := by
  simp [spans, shift]

/-- The layout `k` offsets further on. -/
def Layout.shift (layout : Layout) : Layout where
  size := k + layout.size
  pairs := layout.pairs.shift k
  comments := layout.comments.shift k
  strings := layout.strings.shift k
  markers m := (layout.markers m).shift k
  truncatedAt := layout.truncatedAt.map (k + ·)

/-- The marker `k` offsets further on. The brackets that were open there do not change. -/
def PendingMarker.shift (p : PendingMarker) : PendingMarker := ⟨p.marker, k + p.start, p.depth⟩

namespace LayoutState

/-- The marker spans found, `k` offsets further on. -/
def shiftFound (found : List (Marker × Span)) : List (Marker × Span) :=
  found.map fun f => (f.1, f.2.shift k)

/-- What has been found, `k` offsets further on. -/
def shift (st : LayoutState) : LayoutState where
  stack := st.stack.map (k + ·)
  pairs := st.pairs.map (Pair.shift k)
  comments := st.comments.map (Span.shift k)
  strings := st.strings.map (Span.shift k)
  pending := st.pending.map (PendingMarker.shift k)
  forms := shiftFound k st.forms
  atoms := shiftFound k st.atoms
  truncatedAt := st.truncatedAt.map (k + ·)

private theorem close_shift (st : LayoutState) (offset : Nat) :
    (st.shift k).close (k + offset) = (st.close offset).shift k := by
  have hdepth (depth : Nat) : (fun p : PendingMarker => p.depth == depth) ∘ PendingMarker.shift k =
      fun p => p.depth == depth := rfl
  obtain ⟨stack, pairs, comments, strings, pending, forms, atoms, truncatedAt⟩ := st
  cases stack with
  | nil => rfl
  | cons opened stack =>
    simp only [close, shift, shiftFound, List.map_cons, List.length_map, List.takeWhile_map,
      List.dropWhile_map, hdepth, List.map_append, List.map_reverse, List.map_map]
    rfl

private theorem step_shift (st : LayoutState) (l : Lexeme) :
    (st.shift k).step (l.shift k) = (st.step l).shift k := by
  obtain ⟨kind, span⟩ := l
  cases kind with
  | closing => exact close_shift k st span.start
  | marker m target =>
    cases target with
    | form => simp [step, Lexeme.shift, shift, PendingMarker.shift]
    | atom length => simp [step, Lexeme.shift, shift, shiftFound, Nat.add_assoc]
    | nothing => rfl
  | _ => simp [step, Lexeme.shift, shift]

private theorem foldl_step_shift (st : LayoutState) (found : List Lexeme) :
    (found.map (Lexeme.shift k)).foldl step (st.shift k) = (found.foldl step st).shift k := by
  rw [List.foldl_map]
  exact List.foldl_hom (shift k) (step_shift k)

private theorem spansOf_shift (found : List (Marker × Span)) (m : Marker) :
    spansOf (shiftFound k found) m = (spansOf found m).map (Span.shift k) := by
  rw [spansOf, spansOf, List.map_mergeSort (s := Span.atMost)]
  · simp [shiftFound, List.filter_map, Function.comp_def]
  · intro s _ t _
    exact (Span.atMost_shift k s t).symm

private theorem finish_shift (st : LayoutState) (size : Nat) :
    (st.shift k).finish (k + size) = (st.finish size).shift k := by
  simp only [finish, shift, PairIndex.ofPairs_shift, SpanSet.ofList_shift, spansOf_shift]
  rfl

end LayoutState

namespace Layout

variable (layout : Layout)

/-- Shifting a layout by nothing changes nothing. -/
@[simp] theorem shift_zero : shift 0 = id := by
  funext layout
  simp [shift]

/-- A moved layout has the pairs, moved. -/
@[simp] theorem shift_pairs : (layout.shift k).pairs = layout.pairs.shift k := rfl

/-- A moved layout has the comments, moved. -/
@[simp] theorem shift_comments : (layout.shift k).comments = layout.comments.shift k := rfl

/-- A moved layout has the strings, moved. -/
@[simp] theorem shift_strings : (layout.shift k).strings = layout.strings.shift k := rfl

/-- A moved layout has the spans of each marker, moved. -/
@[simp] theorem shift_markers (m : Marker) :
    (layout.shift k).markers m = (layout.markers m).shift k := rfl

/-- Blank bytes in front move the layout and leave no other trace. -/
theorem ofBytes_append {w : List UInt8} (hw : ∀ b ∈ w, isWhitespace b = true)
    (bytes : List UInt8) : ofBytes (w ++ bytes) = (ofBytes bytes).shift w.length := by
  have hscan : (lexemes (w ++ bytes)).foldl LayoutState.step {} =
      ((lexemes bytes).foldl LayoutState.step {}).shift w.length := by
    calc (lexemes (w ++ bytes)).foldl LayoutState.step {}
        = (lexemesFrom (0 + w.length) bytes).foldl LayoutState.step {} :=
          LayoutState.scan_bytes fun b hb => .inr (hw b hb)
      _ = ((lexemes bytes).map (Lexeme.shift w.length)).foldl LayoutState.step {} := by
          rw [Nat.add_comm, lexemesFrom_shift, lexemes]
      _ = ((lexemes bytes).foldl LayoutState.step {}).shift w.length :=
          LayoutState.foldl_step_shift w.length {} _
  rw [ofBytes, hscan, List.length_append, LayoutState.finish_shift, ofBytes]

end Layout

/-! ## Layers -/

/-- The layer `k` offsets further on. -/
def Layer.shift (layer : Layer) : Layer := ⟨layer.span.shift k, layer.isData⟩

namespace LayerState

/-- The end of a layer, `k` offsets further on, with what the layer makes of what it covers. -/
def shiftEnd (layer : Nat × Bool) : Nat × Bool := (k + layer.1, layer.2)

/-- The sweep `k` offsets further on. -/
def shift (st : LayerState) : LayerState where
  around := st.around.map (shiftEnd k)
  cursor := k + st.cursor
  data := st.data.map (Span.shift k)

private theorem advance_shift (st : LayerState) (stop : Nat) (isData : Bool) :
    (st.shift k).advance (k + stop) isData = (st.advance stop isData).shift k := by
  simp only [advance, shift, Nat.add_lt_add_iff_left]
  split <;> rfl

private theorem leave_shift (st : LayerState) (start : Nat) :
    (st.shift k).leave (k + start) = (st.leave start).shift k := by
  have hended : (fun a : Nat × Bool => decide (a.1 ≤ k + start)) ∘ shiftEnd k =
      fun a => decide (a.1 ≤ start) := by
    funext a
    simp [shiftEnd]
  have hfold (ended : List (Nat × Bool)) (st : LayerState) :
      (ended.map (shiftEnd k)).foldl (fun acc a => acc.advance a.1 a.2) (st.shift k) =
        (ended.foldl (fun acc a => acc.advance a.1 a.2) st).shift k := by
    rw [List.foldl_map]
    exact List.foldl_hom (shift k) fun st a => advance_shift k st a.1 a.2
  simp only [leave]
  rw [show (st.shift k).around = st.around.map (shiftEnd k) from rfl, List.takeWhile_map,
    List.dropWhile_map, hended, hfold]
  rfl

private theorem enter_shift (st : LayerState) (layer : Layer) :
    (st.shift k).enter (layer.shift k) = (st.enter layer).shift k := by
  have hleave := leave_shift k st layer.span.start
  simp only [enter, Layer.shift, Span.shift_start, Span.shift_stop, hleave]
  generalize st.leave layer.span.start = left
  obtain ⟨around, cursor, data⟩ := left
  cases around with
  | nil => rfl
  | cons a rest =>
    have hadvance := advance_shift k ⟨a :: rest, cursor, data⟩ layer.span.start a.2
    simp only [shift, List.map_cons, shiftEnd] at hadvance ⊢
    rw [hadvance, Nat.add_min_add_left]

private theorem finish_shift (st : LayerState) :
    (st.shift k).finish = st.finish.map (Span.shift k) := by
  have hfold (around : List (Nat × Bool)) (st : LayerState) :
      (around.map (shiftEnd k)).foldl
          (fun acc a => { acc.advance a.1 a.2 with cursor := max acc.cursor a.1 }) (st.shift k) =
        (around.foldl (fun acc a => { acc.advance a.1 a.2 with cursor := max acc.cursor a.1 })
          st).shift k := by
    rw [List.foldl_map]
    refine List.foldl_hom (shift k) fun st a => ?_
    simp only [shiftEnd, advance_shift]
    simp only [shift, Nat.add_max_add_left]
  exact congrArg LayerState.data (hfold st.around st)

/-- Where a sweep starts does not show: the first layer sets the cursor. -/
theorem finish_foldl_enter_shift (layers : List Layer) :
    ((layers.map (Layer.shift k)).foldl enter {}).finish =
      ((layers.foldl enter {}).finish).map (Span.shift k) := by
  cases layers with
  | nil => rfl
  | cons layer rest =>
    have hfirst : ({} : LayerState).enter (layer.shift k) =
        (({} : LayerState).enter layer).shift k :=
      enter_shift k {} layer
    rw [List.map_cons, List.foldl_cons, List.foldl_cons, hfirst, List.foldl_map,
      List.foldl_hom (shift k) (enter_shift k), finish_shift]

end LayerState

namespace Layout

variable (layout : Layout)

private theorem layers_shift (chosen : Marker → Bool) :
    (layout.shift k).layers chosen = (layout.layers chosen).map (Layer.shift k) := by
  have hmarker (m : Marker) :
      (if chosen m then ((layout.shift k).markers m).spans.map fun s => (⟨s, m != .comma⟩ : Layer)
        else []) =
      (if chosen m then (layout.markers m).spans.map fun s => (⟨s, m != .comma⟩ : Layer)
        else []).map (Layer.shift k) := by
    split
    · simp [Layer.shift]
    · rfl
  simp only [layers]
  rw [hmarker, hmarker, hmarker, ← List.map_append, ← List.map_append, List.map_mergeSort]
  intro a _ b _
  simp [Layer.shift]

/-- A moved layout has the marked data, moved. -/
@[simp] theorem dataOf_shift (chosen : Marker → Bool) :
    (layout.shift k).dataOf chosen = (layout.dataOf chosen).shift k := by
  rw [dataOf, layers_shift, LayerState.finish_foldl_enter_shift, SpanSet.ofList_shift, dataOf]

/-- A moved layout has the quoted context, moved. -/
@[simp] theorem quotedContext_shift :
    (layout.shift k).quotedContext = layout.quotedContext.shift k :=
  dataOf_shift k layout _

/-- A moved layout has the comments and strings, moved. -/
@[simp] theorem commentsAndStrings_shift :
    (layout.shift k).commentsAndStrings = layout.commentsAndStrings.shift k := by
  simp [commentsAndStrings]

/-- What a mode leaves out moves with the document. -/
@[simp] theorem excluded_shift (mode : Mode) :
    (layout.shift k).excluded mode = (layout.excluded mode).shift k := by
  simp only [excluded, dataOf_shift, commentsAndStrings_shift, SpanSet.union_shift]
  split <;> rfl

end Layout

/-! ## Elements -/

/-- The kind of an element `k` offsets further on. -/
def ElementKind.shift : ElementKind → ElementKind
  | group pair => group (pair.shift k)
  | atom => atom
  | string => string

/-- Shifting what an element is by nothing changes nothing. -/
@[simp] theorem ElementKind.shift_zero : ElementKind.shift 0 = id := by
  funext kind
  cases kind <;> simp [shift]

namespace Element

/-- The element `k` offsets further on. -/
def shift (e : Element) : Element := ⟨e.kind.shift k, e.span.shift k, k + e.start, e.quoted⟩

variable (e : Element)

/-- Shifting an element by nothing changes nothing. -/
@[simp] theorem shift_zero : shift 0 = id := by
  funext e
  simp [shift]

/-- A moved element is what the element is, moved. -/
@[simp] theorem shift_kind : (e.shift k).kind = e.kind.shift k := rfl

/-- A moved element spans what the element does, moved. -/
@[simp] theorem shift_span : (e.shift k).span = e.span.shift k := rfl

/-- Moving an element keeps its quotation mark. -/
@[simp] theorem shift_quoted : (e.shift k).quoted = e.quoted := rfl

/-- A moved element has the group of the element, moved. -/
@[simp] theorem group_shift : (e.shift k).group = e.group.map (Pair.shift k) := by
  obtain ⟨kind, span, start, quoted⟩ := e
  cases kind <;> rfl

/-- Moving an element keeps whether it is an atom. -/
@[simp] theorem isAtom_shift : (e.shift k).isAtom = e.isAtom := by
  obtain ⟨kind, span, start, quoted⟩ := e
  cases kind <;> rfl

/-- Moving an element keeps whether it is a string. -/
@[simp] theorem isString_shift : (e.shift k).isString = e.isString := by
  obtain ⟨kind, span, start, quoted⟩ := e
  cases kind <;> rfl

end Element

namespace Reading

/-- What is read `k` offsets further on. -/
def shift : Reading → Reading
  | element e => element (e.shift k)
  | feature => feature

/-- A step of reading `k` offsets further on takes as many bytes. -/
def shiftStep (step : Option Reading × Nat) : Option Reading × Nat := (step.1.map (shift k), step.2)

variable (layout : Layout) (stop pos : Nat)

private theorem group_shift (opened : Nat) (quoted : Bool) :
    group (layout.shift k) (k + stop) (k + pos) (k + opened) quoted =
      (group layout stop pos opened quoted).map (shiftStep k) := by
  simp only [group, Layout.shift_pairs, PairIndex.closingOf_shift]
  cases layout.pairs.closingOf opened with
  | none => rfl
  | some closed =>
    simp only [Option.map_some, Nat.add_lt_add_iff_left, Nat.add_sub_add_left]
    split <;> rfl

private theorem stringSpan_shift (datum : Nat) :
    stringSpan (layout.shift k) (k + stop) (k + datum) =
      (stringSpan layout stop datum).shift k := by
  simp only [stringSpan, Layout.shift_strings, SpanSet.spanAt_shift]
  cases layout.strings.spanAt datum with
  | none => rfl
  | some s => simp [Nat.add_min_add_left]

private theorem datum_shift (width : Nat) (quoted : Bool) (d : UInt8) (rest : List UInt8) :
    datum (layout.shift k) (k + stop) (k + pos) width quoted d rest =
      (datum layout stop pos width quoted d rest).map (shiftStep k) := by
  have hwidth : k + pos + width = k + (pos + width) := Nat.add_assoc ..
  unfold datum
  rw [hwidth, Nat.add_assoc k (pos + width) 1, group_shift, group_shift, stringSpan_shift]
  split
  · rfl
  split
  · rfl
  split
  · rfl
  split
  · rfl
  split
  · simp only [Span.shift_stop, Nat.add_assoc, Nat.add_sub_add_left]
    rfl
  split
  · rfl
  · simp only [Nat.add_assoc]
    rfl

private theorem step_shift (b : UInt8) (rest : List UInt8) :
    step (layout.shift k) (k + stop) (k + pos) b rest =
      (step layout stop pos b rest).map (shiftStep k) := by
  simp only [step, Layout.shift_comments, SpanSet.spanAt_shift, datum_shift]
  split
  · rfl
  cases layout.comments.spanAt pos with
  | none =>
    simp only [Option.map_none]
    split <;> rfl
  | some c =>
    simp only [Option.map_some, Span.shift_stop, Nat.add_assoc, Nat.add_sub_add_left]
    rfl

end Reading

section Elements

variable (layout : Layout) (stop pos : Nat)

private theorem readings_shift (bytes : List UInt8) :
    readings (layout.shift k) (k + stop) (k + pos) bytes =
      (readings layout stop pos bytes).map (Reading.shift k) := by
  fun_induction readings layout stop pos bytes with
  | case1 => simp [readings]
  | case2 pos b rest hstep =>
    rw [readings, Reading.step_shift, hstep]
    rfl
  | case3 pos b rest read more hstep ih =>
    rw [readings, Reading.step_shift, hstep, List.map_append, ← ih]
    simp only [Option.map_some, Reading.shiftStep, Nat.add_assoc]
    cases read <;> rfl

private theorem elementsOf_shift (found : List Reading) :
    elementsOf (found.map (Reading.shift k)) = (elementsOf found).map (Element.shift k) := by
  fun_induction elementsOf found with
  | case1 e rest ih => simp [Reading.shift, elementsOf, ih]
  | case2 a b rest ih => simp [Reading.shift, elementsOf, ih]
  | case3 found helement hfeature =>
    match found, helement, hfeature with
    | [], _, _ => rfl
    | .element e :: rest, helement, _ => exact absurd rfl (helement e rest)
    | [.feature], _, _ => rfl
    | [.feature, _], _, _ => rfl
    | .feature :: a :: b :: rest, _, hfeature => exact absurd rfl (hfeature a b rest)

/-- Elements are read behind other bytes as they are read without them. -/
theorem elementsBetween_append (w bytes : List UInt8) :
    elementsBetween (w ++ bytes) (layout.shift w.length) (w.length + pos) (w.length + stop) =
      (elementsBetween bytes layout pos stop).map (Element.shift w.length) := by
  have hwindow (stop : Nat) :
      window (w ++ bytes) (w.length + pos) (w.length + stop) = window bytes pos stop := by
    simp [window, List.take_append, List.drop_append]
  simp only [elementsBetween, List.length_append, Nat.add_min_add_left, hwindow, readings_shift,
    elementsOf_shift]

end Elements

/-! ## Words -/

private theorem dispatchLength_shift (pairs : PairIndex) (pos : Nat) (rest : List UInt8) :
    dispatchLength (pairs.shift k) (k + pos) rest = dispatchLength pairs pos rest := by
  simp only [dispatchLength, Nat.add_assoc, PairIndex.closingOf_shift]
  split
  · rfl
  · next d tail _ =>
    cases pairs.closingOf (pos + (1 + ((rest.takeWhile isDigit).length + 1))) with
    | none => rfl
    | some closed => simp only [Option.map_some, Nat.add_sub_add_left]

private theorem wordsFrom_shift (pairs : PairIndex) (skip : SpanSet) (pos : Nat)
    (bytes : List UInt8) :
    wordsFrom (pairs.shift k) (skip.shift k) (k + pos) bytes =
      (wordsFrom pairs skip pos bytes).map fun word => (word.1.shift k, word.2) := by
  fun_induction wordsFrom pairs skip pos bytes with
  | case1 => simp [wordsFrom]
  | case2 pos b rest s hspan ih =>
    rw [wordsFrom, SpanSet.spanAt_shift, hspan, ← ih]
    simp only [Option.map_some, Span.shift_stop, Nat.add_assoc, Nat.add_max_add_left,
      Nat.add_sub_add_left]
  | case3 pos b rest hspan hdelimiter ih =>
    rw [wordsFrom, SpanSet.spanAt_shift, hspan, ← ih]
    simp only [Option.map_none, hdelimiter, if_true, Nat.add_assoc]
  | case4 pos b rest hspan hdelimiter hhash more ih =>
    rw [wordsFrom, SpanSet.spanAt_shift, hspan, ← ih]
    simp only [Option.map_none, hdelimiter, hhash, if_true, Bool.false_eq_true, if_false,
      dispatchLength_shift, Nat.add_assoc, more]
  | case5 pos b rest hspan hdelimiter hhash length ih =>
    rw [wordsFrom, SpanSet.spanAt_shift, hspan, List.map_cons, ← ih]
    simp only [Option.map_none, hdelimiter, hhash, Bool.false_eq_true, if_false, Nat.add_assoc,
      Nat.add_max_add_left, Span.shift_mk, length]

/-- Blank bytes in front of everything that is passed hold no word. -/
theorem wordsFrom_append {w : List UInt8} (hw : ∀ b ∈ w, isWhitespace b = true)
    (pairs : PairIndex) (skip : SpanSet) (bytes : List UInt8) {pos : Nat}
    (hpos : pos + w.length ≤ k) :
    wordsFrom pairs (skip.shift k) pos (w ++ bytes) =
      wordsFrom pairs (skip.shift k) (pos + w.length) bytes := by
  induction w generalizing pos with
  | nil => rfl
  | cons b w ih =>
    obtain ⟨hb, hrest⟩ := List.forall_mem_cons.1 hw
    have hdelimiter : isDelimiter b = true := by simp [isDelimiter, hb]
    rw [List.length_cons] at hpos
    rw [List.cons_append, wordsFrom, SpanSet.spanAt_shift_of_lt k skip (by omega)]
    simp only [hdelimiter, if_true]
    rw [ih hrest (by omega), List.length_cons, Nat.add_assoc, Nat.add_comm 1]

/-- The symbol `k` offsets further on. -/
def Symbol.shift (s : Symbol) : Symbol := ⟨s.name, s.span.shift k⟩

/-- Shifting a symbol by nothing changes nothing. -/
@[simp] theorem Symbol.shift_zero : Symbol.shift 0 = id := by
  funext s
  simp [shift]

private theorem Symbol.ofWord_shift (word : Span × List UInt8) :
    Symbol.ofWord (word.1.shift k, word.2) = (Symbol.ofWord word).map (Symbol.shift k) := by
  unfold Symbol.ofWord
  dsimp only
  split <;> rfl

/-- The symbols of a document move with it. -/
theorem Source.symbols_append {w : List UInt8} (hw : ∀ b ∈ w, isWhitespace b = true)
    (bytes : List UInt8) (layout : Layout) :
    Source.symbols ⟨w ++ bytes, layout.shift w.length⟩ =
      (Source.symbols ⟨bytes, layout⟩).map (Symbol.shift w.length) := by
  have hwords : Source.words ⟨w ++ bytes, layout.shift w.length⟩ =
      (Source.words ⟨bytes, layout⟩).map fun word => (word.1.shift w.length, word.2) := by
    simp only [Source.words, Layout.shift_pairs, Layout.commentsAndStrings_shift]
    rw [wordsFrom_append w.length hw _ _ _ (by omega), Nat.add_comm, wordsFrom_shift]
  simp only [Source.symbols, hwords, List.filterMap_map, List.map_filterMap, Function.comp_def,
    Symbol.ofWord_shift]

end LexScope
