import LexScope.Form.Bracket
import LexScope.Form.Lexeme
import LexScope.Mode
import LexScope.Span.Set

/-!
# Layout of a document

The layout is what the lexemes of a document say about its shape: the bracket pairs, the comments
and strings, and how far each quotation marker reaches. It is a fold over the lexemes with a stack
of open brackets. Brackets without a partner leave no trace, and a marker before a form reaches to
the bracket that closes that form.

Marker spans nest, and the innermost one decides whether an offset is data or code: a comma turns
its extent back into code, and a quote inside that comma makes data again.
-/

namespace LexScope

/-- The spans of one kind of marker. They start at the marker and may nest. -/
structure MarkerSpans where
  /-- Markers before a bracketed form. -/
  forms : List Span
  /-- Markers before an atom. -/
  atoms : List Span

namespace MarkerSpans

/-- All spans of the marker, those of forms first. -/
def spans (m : MarkerSpans) : List Span := m.forms ++ m.atoms

/-- The offsets that the marker reaches. -/
def all (m : MarkerSpans) : SpanSet := .ofList m.spans

/-- The marker does not occur. -/
def isEmpty (m : MarkerSpans) : Bool := m.forms.isEmpty && m.atoms.isEmpty

end MarkerSpans

/-- The shape of a document. -/
structure Layout where
  /-- Number of bytes. -/
  size : Nat
  /-- Matched brackets. -/
  pairs : PairIndex
  /-- Comments. -/
  comments : SpanSet
  /-- Strings. -/
  strings : SpanSet
  /-- Reach of each kind of marker. -/
  markers : Marker → MarkerSpans
  /-- Where a string, comment or escaped name starts that is never closed. -/
  truncatedAt : Option Nat

/-- A marker whose form has not been closed yet. -/
structure PendingMarker where
  /-- The kind of marker. -/
  marker : Marker
  /-- Where it stands. -/
  start : Nat
  /-- How many brackets were open there. -/
  depth : Nat

/-- What has been found so far, the newest first. -/
structure LayoutState where
  /-- Open brackets, innermost first. -/
  stack : List Nat := []
  /-- Closed pairs. -/
  pairs : List Pair := []
  /-- Comments. -/
  comments : List Span := []
  /-- Strings. -/
  strings : List Span := []
  /-- Markers that wait for their form to close, innermost first. -/
  pending : List PendingMarker := []
  /-- Markers before forms. -/
  forms : List (Marker × Span) := []
  /-- Markers before atoms. -/
  atoms : List (Marker × Span) := []
  /-- Start of what is never closed. -/
  truncatedAt : Option Nat := none

namespace LayoutState

/-- A bracket closes at an offset: it makes a pair with the innermost open one, and ends the markers
that stand right before that pair. Without an open bracket it is ignored. -/
def close (st : LayoutState) (offset : Nat) : LayoutState :=
  match st.stack with
  | [] => st
  | opened :: stack =>
    let ended := st.pending.takeWhile fun p => p.depth == stack.length
    { st with
      stack := stack
      pairs := ⟨opened, offset⟩ :: st.pairs
      pending := st.pending.dropWhile fun p => p.depth == stack.length
      forms := (ended.map fun p => (p.marker, ⟨p.start, offset + 1⟩)).reverse ++ st.forms }

/-- Take in one lexeme. -/
def step (st : LayoutState) (l : Lexeme) : LayoutState :=
  match l.kind with
  | .comment => { st with comments := l.span :: st.comments }
  | .string => { st with strings := l.span :: st.strings }
  | .opening => { st with stack := l.span.start :: st.stack }
  | .closing => st.close l.span.start
  | .marker m .form =>
    { st with pending := ⟨m, l.span.start, st.stack.length⟩ :: st.pending }
  | .marker m (.atom length) =>
    { st with atoms := (m, ⟨l.span.start, l.span.start + length⟩) :: st.atoms }
  | .marker _ .nothing => st
  | .plain => st
  | .unclosedComment =>
    { st with comments := l.span :: st.comments, truncatedAt := some l.span.start }
  | .unclosedString =>
    { st with strings := l.span :: st.strings, truncatedAt := some l.span.start }
  | .unclosedName => { st with truncatedAt := some l.span.start }

/-- The spans of one marker, sorted. -/
def spansOf (found : List (Marker × Span)) (m : Marker) : List Span :=
  ((found.filter fun f => f.1 == m).map (·.2)).mergeSort Span.atMost

/-- The layout that has been found in a document of `size` bytes. -/
def finish (st : LayoutState) (size : Nat) : Layout where
  size := size
  pairs := .ofPairs st.pairs
  comments := .ofList st.comments
  strings := .ofList st.strings
  markers m := ⟨spansOf st.forms m, spansOf st.atoms m⟩
  truncatedAt := st.truncatedAt

end LayoutState

/-- A marker span, and whether it makes data of what it covers. -/
structure Layer where
  /-- The marker span. -/
  span : Span
  /-- Quotes and templates make data, commas make code. -/
  isData : Bool

/-- State of the sweep over nested layers. -/
structure LayerState where
  /-- Ends of the layers around the cursor with what they make of it, innermost first. -/
  around : List (Nat × Bool) := []
  /-- Everything before it is decided. -/
  cursor : Nat := 0
  /-- The data found. -/
  data : List Span := []

namespace LayerState

/-- Decide the stretch from the cursor to `stop`, and move there. -/
def advance (st : LayerState) (stop : Nat) (isData : Bool) : LayerState :=
  { st with
    cursor := stop
    data := if isData && st.cursor < stop then ⟨st.cursor, stop⟩ :: st.data else st.data }

/-- Leave the layers that end at or before `start`. -/
def leave (st : LayerState) (start : Nat) : LayerState :=
  let ended := st.around.takeWhile fun (stop, _) => decide (stop ≤ start)
  let rest := st.around.dropWhile fun (stop, _) => decide (stop ≤ start)
  { ended.foldl (fun acc (stop, isData) => acc.advance stop isData) st with around := rest }

/-- Enter a layer, which ends no later than the one around it. -/
def enter (st : LayerState) (layer : Layer) : LayerState :=
  let left := st.leave layer.span.start
  match left.around with
  | [] => { left with cursor := layer.span.start, around := [(layer.span.stop, layer.isData)] }
  | (stop, isData) :: _ =>
    { left.advance layer.span.start isData with
      around := (min layer.span.stop stop, layer.isData) :: left.around }

/-- Leave every layer. -/
def finish (st : LayerState) : List Span :=
  (st.around.foldl (fun acc (stop, isData) =>
    { acc.advance stop isData with cursor := max acc.cursor stop }) st).data

end LayerState

/-- The markers that count under a mode. -/
def Mode.counts (mode : Mode) : Marker → Bool
  | .quote => mode.dropsQuotes
  | .template => mode.dropsTemplates
  | .comma => mode.keepsCommas

namespace Layout

/-- The layout of a document. -/
def ofBytes (bytes : List UInt8) : Layout :=
  ((lexemes bytes).foldl LayoutState.step {}).finish bytes.length

/-- Comments and strings together. -/
def commentsAndStrings (layout : Layout) : SpanSet := layout.comments.union layout.strings

/-- The layers of the chosen markers, outermost first. -/
def layers (layout : Layout) (chosen : Marker → Bool) : List Layer :=
  let ofMarker (m : Marker) : List Layer :=
    if chosen m then (layout.markers m).spans.map fun s => ⟨s, m != .comma⟩ else []
  (ofMarker .quote ++ ofMarker .template ++ ofMarker .comma).mergeSort fun a b =>
    decide (a.span.start < b.span.start) ||
      (a.span.start == b.span.start && decide (b.span.stop ≤ a.span.stop))

/-- The offsets whose innermost layer, among the chosen markers, makes data of them. -/
def dataOf (layout : Layout) (chosen : Marker → Bool) : SpanSet :=
  .ofList ((layout.layers chosen).foldl LayerState.enter {}).finish

/-- Quoted or template data without the parts that commas evaluate: what is not evaluated in
place. -/
def quotedContext (layout : Layout) : SpanSet := layout.dataOf fun _ => true

/-- What a mode leaves out. -/
def excluded (layout : Layout) (mode : Mode) : SpanSet :=
  let data := layout.dataOf mode.counts
  if mode.dropsComments then data.union layout.commentsAndStrings else data

end Layout

end LexScope
