import LexScope.Proofs.Form.Case
import LexScope.Proofs.Form.Shift

/-!
# Copies of a document

One document copies another if it has the same forms at a fixed distance, with the same texts as
far as a view of characters tells them apart. Blank bytes in front make a copy that differs in
nothing but its place, and writing letters in another case makes one at the same place.

The collection of bindings reads a document through its forms and their texts only, so whatever
holds for copies holds for both.
-/

namespace LexScope

open Byte Utf8

/-! ## Trees -/

namespace Node

/-- The tree `k` offsets further on. -/
def shift (k : Nat) : Node → Node
  | mk e items => mk (e.shift k) (items.map (shift k))

variable (k : Nat)

/-- A moved node has its element and its items moved. -/
@[simp] theorem shift_mk (e : Element) (items : List Node) :
    shift k (mk e items) = mk (e.shift k) (items.map (shift k)) := by
  rw [shift]

/-- The element of a moved node is the moved element. -/
@[simp] theorem shift_element (n : Node) : (n.shift k).element = n.element.shift k := by
  cases n
  rw [shift_mk]
  rfl

/-- The items of a moved node are the moved items. -/
@[simp] theorem shift_items (n : Node) : (n.shift k).items = n.items.map (shift k) := by
  cases n
  rw [shift_mk]
  rfl

/-- Moving a node keeps its quotation mark. -/
@[simp] theorem quoted_shift (n : Node) : (n.shift k).quoted = n.quoted := by
  simp [quoted]

/-- A moved node stops where the node did, moved. -/
@[simp] theorem stop_shift (n : Node) : (n.shift k).stop = k + n.stop := by
  simp [stop, Element.stop]

end Node

/-! ## Copies -/

/-- Everything of `src` stands in `copy` too, `k` offsets further on and with texts that look the
same. -/
structure Source.Copies (view : Char → Char) (k : Nat) (src copy : Source) : Prop where
  /-- At most the case of letters is hidden. -/
  caseView : CaseView view
  /-- The layout is moved. -/
  layout : copy.layout = src.layout.shift k
  /-- The elements are moved. -/
  elements : ∀ pos stop, elementsBetween copy.bytes copy.layout (k + pos) (k + stop) =
    (elementsBetween src.bytes src.layout pos stop).map (Element.shift k)
  /-- Texts look the same. -/
  slices : ∀ s, viewText view (copy.slice (s.shift k)) = viewText view (src.slice s)
  /-- The symbols are moved. -/
  symbols : copy.symbols = src.symbols.map (Symbol.shift k)

/-- Blank bytes in front of a document make a copy of it. -/
theorem Source.copies_append {w : List UInt8} (hw : ∀ b ∈ w, isWhitespace b = true)
    (bytes : List UInt8) :
    Source.Copies id w.length ⟨bytes, .ofBytes bytes⟩ ⟨w ++ bytes, .ofBytes (w ++ bytes)⟩ where
  caseView := .id
  layout := Layout.ofBytes_append hw bytes
  elements pos stop := by
    simp only [Layout.ofBytes_append hw bytes]
    exact elementsBetween_append (Layout.ofBytes bytes) stop pos w bytes
  slices s := by
    have hcut : Utf8.cut (w ++ bytes) (s.shift w.length) = Utf8.cut bytes s := by
      rw [Utf8.cut, Span.shift_start, List.drop_length_add_append, Span.length_shift, Utf8.cut]
    rw [Source.slice, Utf8.slice, hcut]
    rfl
  symbols := by
    rw [Layout.ofBytes_append hw]
    exact Source.symbols_append hw bytes _

/-- A document in which letters are written in another case is a copy. -/
theorem Source.copies_of_map_toLower {a b : List UInt8} (h : a.map toLower = b.map toLower) :
    Source.Copies Char.toLower 0 ⟨a, .ofBytes a⟩ ⟨b, .ofBytes b⟩ where
  caseView := .lower
  layout := by
    rw [Layout.shift_zero, id, ← Layout.ofBytes_map_toLower b, ← h, Layout.ofBytes_map_toLower]
  elements pos stop := by
    rw [← elementsBetween_map_toLower b, ← Layout.ofBytes_map_toLower b, ← h,
      elementsBetween_map_toLower, Layout.ofBytes_map_toLower]
    simp
  slices s := by
    have hcut (bytes : List UInt8) : (Utf8.cut bytes s).map toLower =
        Utf8.cut (bytes.map toLower) s := by
      rw [Utf8.cut, List.map_take, List.map_drop, Utf8.cut]
    have hslice (bytes : List UInt8) : (viewText Char.toLower (Utf8.slice bytes s)).toList =
        (decode (Utf8.cut (bytes.map toLower) s)).map Char.toLower := by
      rw [viewText, Utf8.slice, String.toList_ofList, String.toList_ofList, ← hcut,
        decode_map_toLower]
    rw [Span.shift_zero, id, ← String.toList_inj, Source.slice, Source.slice, hslice, hslice, h]
  symbols := by
    rw [Symbol.shift_zero, List.map_id, ← Source.symbols_map_toLower b,
      ← Layout.ofBytes_map_toLower b, ← h, Source.symbols_map_toLower, Layout.ofBytes_map_toLower]

/-- A text behind blanks is a copy of it. -/
theorem Source.copies_ofText_append {blanks : String}
    (h : ∀ b ∈ Utf8.bytes blanks, isWhitespace b = true) (text : String) :
    (Source.ofText text).Copies id blanks.utf8ByteSize (Source.ofText (blanks ++ text)) := by
  rw [Source.ofText, Source.ofText, bytes_append, ← length_bytes]
  exact Source.copies_append h (Utf8.bytes text)

/-- A text that differs in case is a copy. -/
theorem Source.copies_ofText_of_sameWord {t u : String} (h : sameWord t u = true) :
    (Source.ofText t).Copies Char.toLower 0 (Source.ofText u) :=
  Source.copies_of_map_toLower (map_toLower_bytes_of_sameWord h)

namespace Source.Copies

variable {view : Char → Char} {k : Nat} {src copy : Source}

/-- A copy excludes what its source excludes, moved. -/
theorem excluded (h : src.Copies view k copy) (mode : Mode) :
    copy.layout.excluded mode = (src.layout.excluded mode).shift k := by
  rw [h.layout, Layout.excluded_shift]

/-- A copy has the quoted context of its source, moved. -/
theorem quotedContext (h : src.Copies view k copy) :
    copy.layout.quotedContext = src.layout.quotedContext.shift k := by
  rw [h.layout, Layout.quotedContext_shift]

/-- The trees of the forms are moved. -/
theorem nodes (h : src.Copies view k copy) (pos stop : Nat) :
    copy.nodes (k + pos) (k + stop) = (src.nodes pos stop).map (Node.shift k) := by
  induction hn : stop - pos using Nat.strongRecOn generalizing pos stop with
  | ind n ih =>
    subst hn
    rw [nodes_eq, nodes_eq, h.elements, List.map_map, List.map_map]
    apply List.map_congr_left
    intro e he
    have hinside : copy.inside (e.shift k) = (src.inside e).map (Node.shift k) := by
      unfold Source.inside
      rw [Element.group_shift]
      cases hp : e.group with
      | none => rfl
      | some p => exact ih _ (nested_lt he hp) (p.opening + 1) p.closing rfl
    simp only [Function.comp, hinside, Node.shift_mk]

/-- The items of a moved form are its items, moved. -/
theorem items (h : src.Copies view k copy) (p : Pair) :
    copy.items (p.shift k) = (src.items p).map (Node.shift k) :=
  h.nodes (p.opening + 1) p.closing

/-- The elements of a moved form are its elements, moved. -/
theorem elements_pair (h : src.Copies view k copy) (p : Pair) :
    copy.elements (p.shift k) = (src.elements p).map (Element.shift k) :=
  h.elements (p.opening + 1) p.closing

/-- A moved node has the text of the node, up to the view. -/
theorem textAt (h : src.Copies view k copy) (n : Node) :
    viewText view (copy.textAt (n.shift k)) = viewText view (src.textAt n) := by
  rw [Source.textAt, Source.textOf, Node.shift_element]
  exact h.slices n.element.span

/-- A moved span has the text of the span, up to the case of its letters. -/
theorem lowerAscii_slice (h : src.Copies view k copy) (s : Span) :
    lowerAscii (copy.slice (s.shift k)) = lowerAscii (src.slice s) :=
  lowerAscii_eq_of_viewText_eq h.caseView (h.slices s)

/-- A moved node has the text of the node, up to the case of its letters. -/
theorem lowerAscii_textAt (h : src.Copies view k copy) (n : Node) :
    lowerAscii (copy.textAt (n.shift k)) = lowerAscii (src.textAt n) :=
  lowerAscii_eq_of_viewText_eq h.caseView (h.textAt n)

end Source.Copies

end LexScope
