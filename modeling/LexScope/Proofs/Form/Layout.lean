import LexScope.Proofs.Form.Lexeme

/-!
# The layout stays inside the text

The layout is a fold over the lexemes, so what it records is sound if each step keeps it sound:
pairs are an opening and a later closing bracket, and every recorded span fits the text. Sets of
spans, and the sweep over nested layers, only reuse ends of the spans they are made from.
-/

namespace LexScope

open Utf8

/-! ## Sets of spans -/

namespace SpanSet

/-- Every stretch of the set fits the text. -/
def Fits (source : List UInt8) (set : SpanSet) : Prop := ∀ s ∈ set.spans, Utf8.Fits source s

variable {source : List UInt8}

private theorem fits_mergeFrom {current : Span} {spans : List Span}
    (hcurrent : Utf8.Fits source current) (hspans : ∀ s ∈ spans, Utf8.Fits source s) :
    ∀ s ∈ mergeFrom current spans, Utf8.Fits source s := by
  induction spans generalizing current with
  | nil => simpa [mergeFrom] using hcurrent
  | cons s rest ih =>
    obtain ⟨hs, hrest⟩ := List.forall_mem_cons.1 hspans
    unfold mergeFrom
    split
    · apply ih _ hrest
      refine ⟨?_, hcurrent.start, ?_⟩
      · exact Nat.le_trans hcurrent.ordered (Nat.le_max_left _ _)
      · rcases Nat.le_total current.stop s.stop with hle | hle
        · simpa only [Nat.max_eq_right hle] using hs.stop
        · simpa only [Nat.max_eq_left hle] using hcurrent.stop
    · exact List.forall_mem_cons.2 ⟨hcurrent, ih hs hrest⟩

/-- The set of spans that fit fits. -/
theorem fits_ofList {spans : List Span} (h : ∀ s ∈ spans, Utf8.Fits source s) :
    (ofList spans).Fits source := by
  have hsorted : ∀ s ∈ (spans.filter fun s => !s.isEmpty).mergeSort Span.atMost,
      Utf8.Fits source s := by
    intro s hs
    exact h s (List.mem_filter.1 (List.mem_mergeSort.1 hs)).1
  unfold Fits ofList merge
  split
  · next hnil => simp
  · next first rest heq =>
    rw [heq] at hsorted
    obtain ⟨hfirst, hrest⟩ := List.forall_mem_cons.1 hsorted
    exact fits_mergeFrom hfirst hrest

private theorem Fits.union {a b : SpanSet} (ha : a.Fits source) (hb : b.Fits source) :
    (a.union b).Fits source :=
  fits_ofList fun s hs => (List.mem_append.1 hs).elim (ha s) (hb s)

/-- The span found at an offset belongs to the set. -/
theorem mem_of_spanAt {set : SpanSet} {offset : Nat} {s : Span}
    (h : set.spanAt offset = some s) : s ∈ set.spans :=
  List.mem_of_find?_eq_some (Option.filter_eq_some_iff.1 h).1

end SpanSet

/-! ## Bracket pairs -/

/-- The pair is an opening bracket and a later closing bracket of the text. -/
structure Pair.Sits (source : List UInt8) (p : Pair) : Prop where
  /-- The brackets are in order. -/
  lt : p.opening < p.closing
  /-- The first one opens. -/
  opening : source[p.opening]? = some Byte.opening
  /-- The second one closes. -/
  closing : source[p.closing]? = some Byte.closing

namespace Pair.Sits

variable {source : List UInt8} {p : Pair}

/-- The opening bracket of a pair starts a character. -/
theorem boundary_opening (h : p.Sits source) : Boundary source p.opening :=
  boundary_of_isAscii h.opening (by decide)

/-- The closing bracket of a pair starts a character. -/
theorem boundary_closing (h : p.Sits source) : Boundary source p.closing :=
  boundary_of_isAscii h.closing (by decide)

/-- A character starts right after the opening bracket of a pair. -/
theorem boundary_inside (h : p.Sits source) (hclean : Clean source) :
    Boundary source (p.opening + 1) :=
  hclean.succ _ _ h.opening (by decide)

/-- A character starts right after the closing bracket of a pair. -/
theorem boundary_after (h : p.Sits source) (hclean : Clean source) :
    Boundary source (p.closing + 1) :=
  hclean.succ _ _ h.closing (by decide)

/-- The span of a pair starts and ends between characters. -/
theorem fits_span (h : p.Sits source) (hclean : Clean source) : Fits source p.span :=
  .of_le (by have := h.lt; omega) h.boundary_opening (h.boundary_after hclean)

/-- The inside of a pair starts and ends between characters. -/
theorem fits_inner (h : p.Sits source) (hclean : Clean source) : Fits source p.inner :=
  .of_le h.lt (h.boundary_inside hclean) h.boundary_closing

end Pair.Sits

namespace PairIndex

/-- Nesting a list of pairs keeps their order. -/
@[simp] theorem map_pair_nestFrom (stack pairs : List Pair) :
    (nestFrom stack pairs).map (·.pair) = pairs := by
  induction pairs generalizing stack with
  | nil => rfl
  | cons p rest ih => simp [nestFrom, ih]

/-- The index holds the given pairs, sorted. -/
@[simp] theorem pairs_ofPairs (pairs : List Pair) :
    (ofPairs pairs).pairs = pairs.mergeSort Pair.atMost := by
  simp [ofPairs, PairIndex.pairs]

/-- The pair found at an opening bracket is listed and opens there. -/
theorem mem_of_get? {index : PairIndex} {opening : Nat} {p : Pair}
    (h : index.get? opening = some p) : p ∈ index.pairs ∧ p.opening = opening := by
  obtain ⟨e, hfind, rfl⟩ := Option.map_eq_some_iff.1 h
  exact ⟨List.mem_map_of_mem (List.mem_of_find?_eq_some hfind), by
    simpa using List.find?_some hfind⟩

/-- A closing bracket is found for a pair that is found. -/
theorem get?_of_closingOf {index : PairIndex} {opening closing : Nat}
    (h : index.closingOf opening = some closing) :
    index.get? opening = some ⟨opening, closing⟩ := by
  obtain ⟨p, hget, rfl⟩ := Option.map_eq_some_iff.1 h
  obtain ⟨-, rfl⟩ := mem_of_get? hget
  exact hget

/-- A closing bracket is found for a pair that is listed. -/
theorem mem_of_closingOf {index : PairIndex} {opening closing : Nat}
    (h : index.closingOf opening = some closing) : ⟨opening, closing⟩ ∈ index.pairs :=
  (mem_of_get? (get?_of_closingOf h)).1

/-- The siblings are among the pairs. -/
theorem mem_of_mem_siblings {closing : Nat} {pairs : List Pair} {p : Pair}
    (h : p ∈ siblings closing pairs) : p ∈ pairs := by
  fun_induction siblings closing pairs with
  | case1 => cases h
  | case2 q rest hlt ih =>
    rcases List.mem_cons.1 h with rfl | h
    · exact List.mem_cons_self
    · exact List.mem_cons_of_mem _ ((List.dropWhile_sublist _).subset (ih h))
  | case3 => cases h

/-- The walk inside a pair starts behind its opening bracket. -/
theorem children_of_pairs {index : PairIndex} {p : Pair} {before rest : List Pair}
    (hindex : index.pairs = before ++ p :: rest)
    (hbefore : ∀ q ∈ before, q.opening < p.opening) :
    index.children p = siblings p.closing rest := by
  rw [children, hindex, List.dropWhile_append_of_pos fun q hq => decide_eq_true (hbefore q hq),
    List.dropWhile_cons_of_neg (by simp)]
  simp

/-- The pairs inside a pair are pairs of the index. -/
theorem mem_of_mem_children {index : PairIndex} {p q : Pair} (h : q ∈ index.children p) :
    q ∈ index.pairs := by
  unfold children at h
  split at h
  · cases h
  · next first rest heq =>
    split at h
    · apply (List.dropWhile_sublist _).subset
      rw [heq]
      exact List.mem_cons_of_mem _ (mem_of_mem_siblings h)
    · cases h

end PairIndex

/-! ## The fold over the lexemes -/

/-- What has been found up to an offset is sound. -/
structure LayoutState.Sound (source : List UInt8) (pos : Nat) (st : LayoutState) : Prop where
  /-- Open brackets stand before the offset. -/
  stack : ∀ o ∈ st.stack, o < pos ∧ source[o]? = some Byte.opening
  /-- Pairs are pairs of brackets. -/
  pairs : ∀ p ∈ st.pairs, p.Sits source
  /-- Comments fit. -/
  comments : ∀ s ∈ st.comments, Fits source s
  /-- Strings fit. -/
  strings : ∀ s ∈ st.strings, Fits source s
  /-- Waiting markers stand before the offset. -/
  pending : ∀ p ∈ st.pending, p.start < pos ∧ Boundary source p.start
  /-- Markers before forms fit. -/
  forms : ∀ f ∈ st.forms, Fits source f.2
  /-- Markers before atoms fit. -/
  atoms : ∀ f ∈ st.atoms, Fits source f.2

namespace LayoutState

variable {source : List UInt8} {pos : Nat} {st : LayoutState}

private theorem Sound.empty (source : List UInt8) (pos : Nat) : Sound source pos {} := by
  constructor <;> simp

private theorem Sound.mono (h : st.Sound source pos) {pos' : Nat} (hle : pos ≤ pos') :
    st.Sound source pos' :=
  { h with
    stack := fun o ho => ⟨by have := (h.stack o ho).1; omega, (h.stack o ho).2⟩
    pending := fun p hp => ⟨by have := (h.pending p hp).1; omega, (h.pending p hp).2⟩ }

/-- A closing bracket makes a pair with an earlier opening one, and ends markers that stand before
it. -/
theorem Sound.close (hclean : Clean source) (h : st.Sound source pos)
    (hclosing : source[pos]? = some Byte.closing) : (st.close pos).Sound source pos := by
  unfold LayoutState.close
  split
  · exact h
  · next opened stack hstack =>
    have hopened := h.stack opened (by simp [hstack])
    have hsits : Pair.Sits source ⟨opened, pos⟩ := ⟨hopened.1, hopened.2, hclosing⟩
    exact
      { h with
        stack := fun o ho => h.stack o (by rw [hstack]; exact List.mem_cons_of_mem _ ho)
        pairs := List.forall_mem_cons.2 ⟨hsits, h.pairs⟩
        pending := fun p hp => h.pending p ((List.dropWhile_sublist _).subset hp)
        forms := by
          intro f hf
          rcases List.mem_append.1 hf with hended | hold
          · obtain ⟨p, hp, rfl⟩ := List.mem_map.1 (List.mem_reverse.1 hended)
            have hpending := h.pending p ((List.takeWhile_sublist _).subset hp)
            exact .of_le (by omega) hpending.2 (hsits.boundary_after hclean)
          · exact h.forms f hold }

/-- One lexeme keeps the state sound. -/
theorem Sound.step (hclean : Clean source) (h : st.Sound source pos) {l : Lexeme}
    (hl : l.Sound source) (hstart : l.span.start = pos) (hstop : pos < l.span.stop) :
    (st.step l).Sound source l.span.stop := by
  subst hstart
  have h' : st.Sound source l.span.stop := h.mono (Nat.le_of_lt hstop)
  unfold Lexeme.Sound at hl
  unfold LayoutState.step
  split <;> simp only [*] at hl
  case h_1 | h_9 => exact { h' with comments := List.forall_mem_cons.2 ⟨hl, h'.comments⟩ }
  case h_2 | h_10 => exact { h' with strings := List.forall_mem_cons.2 ⟨hl, h'.strings⟩ }
  case h_3 =>
    exact { h' with stack := List.forall_mem_cons.2 ⟨⟨hstop, hl⟩, h'.stack⟩ }
  case h_4 =>
    exact (h.close hclean hl).mono (Nat.le_of_lt hstop)
  case h_5 m _ =>
    exact { h' with pending := List.forall_mem_cons.2 ⟨⟨hstop, hl.1⟩, h'.pending⟩ }
  case h_6 m length _ =>
    have hfits : Fits source ⟨l.span.start, l.span.start + length⟩ :=
      .of_le (by omega) hl.1 (hl.2 length rfl)
    exact { h' with atoms := List.forall_mem_cons.2 ⟨hfits, h'.atoms⟩ }
  case h_7 | h_8 => exact h'
  case h_11 => exact { h' with }

/-- All lexemes keep the state sound. -/
theorem Sound.foldl (hclean : Clean source) {bytes : List UInt8}
    (hdrop : source.drop pos = bytes) (h : st.Sound source pos) :
    ∃ pos', ((lexemesFrom pos bytes).foldl LayoutState.step st).Sound source pos' := by
  fun_induction lexemesFrom pos bytes generalizing st with
  | case1 pos => exact ⟨pos, h⟩
  | case2 pos b rest kind more hread width =>
    rename_i ih
    have hkind : (LexemeKind.read b rest).1 = kind := by rw [hread]
    have hmore : (LexemeKind.read b rest).2 = more := by rw [hread]
    have hsound := LexemeKind.sound_read hclean hdrop
    rw [hkind, hmore] at hsound
    apply ih
    · have hrest : (b :: rest).drop width = rest.drop more := by
        simp only [width]
        rw [Nat.add_comm, List.drop_succ_cons]
        rcases Nat.le_total more rest.length with hle | hle
        · rw [Nat.min_eq_left hle]
        · rw [Nat.min_eq_right hle, List.drop_length, List.drop_eq_nil_of_le hle]
      rw [← hrest, ← hdrop, List.drop_drop]
    · exact h.step hclean hsound rfl (by simp only; omega)

end LayoutState

/-- The layout records brackets and spans of the text. -/
structure Layout.Sound (source : List UInt8) (layout : Layout) : Prop where
  /-- Pairs are pairs of brackets. -/
  pairs : ∀ p ∈ layout.pairs.pairs, p.Sits source
  /-- Comments fit. -/
  comments : layout.comments.Fits source
  /-- Strings fit. -/
  strings : layout.strings.Fits source
  /-- Marker spans fit. -/
  markers : ∀ m, ∀ s ∈ (layout.markers m).spans, Fits source s

namespace LayoutState

private theorem fits_spansOf {source : List UInt8} {found : List (Marker × Span)}
    (h : ∀ f ∈ found, Fits source f.2) (m : Marker) : ∀ s ∈ spansOf found m, Fits source s := by
  intro s hs
  obtain ⟨f, hf, rfl⟩ := List.mem_map.1 (List.mem_mergeSort.1 hs)
  exact h f (List.mem_filter.1 hf).1

private theorem Sound.finish {source : List UInt8} {pos : Nat} {st : LayoutState}
    (h : st.Sound source pos) (size : Nat) : (st.finish size).Sound source where
  pairs p hp := by
    simp only [LayoutState.finish, PairIndex.pairs_ofPairs] at hp
    exact h.pairs p (List.mem_mergeSort.1 hp)
  comments := SpanSet.fits_ofList h.comments
  strings := SpanSet.fits_ofList h.strings
  markers m s hs := by
    rcases List.mem_append.1 hs with hform | hatom
    · exact fits_spansOf h.forms m s hform
    · exact fits_spansOf h.atoms m s hatom

end LayoutState

/-- The layout of a text is sound. -/
theorem Layout.sound_ofBytes {source : List UInt8} (hclean : Clean source) :
    (Layout.ofBytes source).Sound source := by
  have hdrop : source.drop 0 = source := rfl
  obtain ⟨pos, hsound⟩ := LayoutState.Sound.foldl hclean hdrop (.empty source 0)
  exact hsound.finish source.length

/-! ## Nested layers -/

/-- The sweep has recorded spans that fit, and stands at a boundary. -/
structure LayerState.Sound (source : List UInt8) (st : LayerState) : Prop where
  /-- The layers around the cursor end at boundaries. -/
  around : ∀ layer ∈ st.around, Boundary source layer.1
  /-- The cursor stands at a boundary. -/
  cursor : Boundary source st.cursor
  /-- The data found fit. -/
  data : ∀ s ∈ st.data, Fits source s

namespace LayerState

variable {source : List UInt8} {st : LayerState}

private theorem Sound.advance (h : st.Sound source) {stop : Nat} (hstop : Boundary source stop)
    (isData : Bool) : (st.advance stop isData).Sound source where
  around := h.around
  cursor := hstop
  data := by
    simp only [LayerState.advance]
    split
    · next hdata =>
      simp only [Bool.and_eq_true, decide_eq_true_eq] at hdata
      have hfits := Fits.of_le (Nat.le_of_lt hdata.2) h.cursor hstop
      exact List.forall_mem_cons.2 ⟨hfits, h.data⟩
    · exact h.data

private theorem Sound.foldl_advance (h : st.Sound source) {ended : List (Nat × Bool)}
    (hended : ∀ layer ∈ ended, Boundary source layer.1) :
    (ended.foldl (fun acc layer => acc.advance layer.1 layer.2) st).Sound source := by
  induction ended generalizing st with
  | nil => exact h
  | cons layer rest ih =>
    obtain ⟨hlayer, hrest⟩ := List.forall_mem_cons.1 hended
    exact ih (h.advance hlayer layer.2) hrest

private theorem Sound.leave (h : st.Sound source) (start : Nat) :
    (st.leave start).Sound source := by
  have hended := h.foldl_advance fun layer hlayer =>
    h.around layer ((List.takeWhile_sublist fun layer => decide (layer.1 ≤ start)).subset hlayer)
  exact
    { hended with
      around := fun layer hlayer => h.around layer ((List.dropWhile_sublist _).subset hlayer) }

private theorem Sound.enter (h : st.Sound source) {layer : Layer}
    (hlayer : Fits source layer.span) :
    (st.enter layer).Sound source := by
  have hleft := h.leave layer.span.start
  unfold LayerState.enter
  simp only
  split
  · exact ⟨by simpa using hlayer.stop, hlayer.start, hleft.data⟩
  · next stop isData rest haround =>
    have hstop : Boundary source stop := hleft.around (stop, isData) (by simp [haround])
    have hadvanced := hleft.advance hlayer.start isData
    refine ⟨?_, hadvanced.cursor, hadvanced.data⟩
    refine List.forall_mem_cons.2 ⟨?_, hleft.around⟩
    rcases Nat.le_total layer.span.stop stop with hle | hle
    · simpa only [Nat.min_eq_left hle] using hlayer.stop
    · simpa only [Nat.min_eq_right hle] using hstop

private theorem Sound.finish (h : st.Sound source) : ∀ s ∈ st.finish, Fits source s := by
  unfold LayerState.finish
  have hfold : ∀ (around : List (Nat × Bool)) (st : LayerState), st.Sound source →
      (∀ layer ∈ around, Boundary source layer.1) →
      (around.foldl (fun acc layer =>
        { acc.advance layer.1 layer.2 with cursor := max acc.cursor layer.1 }) st).Sound
          source := by
    intro around
    induction around with
    | nil => exact fun _ hst _ => hst
    | cons layer rest ih =>
      intro st hst haround
      obtain ⟨hlayer, hrest⟩ := List.forall_mem_cons.1 haround
      have hadvanced := hst.advance hlayer layer.2
      refine ih _ ⟨hadvanced.around, ?_, hadvanced.data⟩ hrest
      rcases Nat.le_total st.cursor layer.1 with hle | hle
      · simpa only [Nat.max_eq_right hle] using hlayer
      · simpa only [Nat.max_eq_left hle] using hst.cursor
  exact (hfold st.around st h h.around).data

end LayerState

namespace Layout

variable {source : List UInt8} {layout : Layout}

private theorem Sound.layers (h : layout.Sound source) (chosen : Marker → Bool) :
    ∀ layer ∈ layout.layers chosen, Fits source layer.span := by
  have hmarker (m : Marker) : ∀ layer ∈ (if chosen m then
      (layout.markers m).spans.map fun s => (⟨s, m != .comma⟩ : Layer) else []),
      Fits source layer.span := by
    intro layer hlayer
    split at hlayer
    · obtain ⟨s, hs, rfl⟩ := List.mem_map.1 hlayer
      exact h.markers m s hs
    · cases hlayer
  intro layer hlayer
  rcases List.mem_append.1 (List.mem_mergeSort.1 hlayer) with hlayer | hlayer
  · rcases List.mem_append.1 hlayer with hlayer | hlayer
    · exact hmarker .quote layer hlayer
    · exact hmarker .template layer hlayer
  · exact hmarker .comma layer hlayer

/-- The stretches of data among nested layers fit. -/
theorem Sound.finish_layers (h : layout.Sound source) (hclean : Clean source)
    (chosen : Marker → Bool) :
    ∀ s ∈ ((layout.layers chosen).foldl LayerState.enter {}).finish, Fits source s := by
  have hfold : ∀ (layers : List Layer) (st : LayerState), st.Sound source →
      (∀ layer ∈ layers, Fits source layer.span) →
      (layers.foldl LayerState.enter st).Sound source := by
    intro layers
    induction layers with
    | nil => exact fun _ hst _ => hst
    | cons layer rest ih =>
      intro st hst hlayers
      obtain ⟨hlayer, hrest⟩ := List.forall_mem_cons.1 hlayers
      exact ih _ (hst.enter hlayer) hrest
  have hstart : LayerState.Sound source {} := ⟨by simp, hclean.zero, by simp⟩
  exact (hfold _ _ hstart (h.layers chosen)).finish

/-- The data among nested layers fit. -/
theorem Sound.dataOf (h : layout.Sound source) (hclean : Clean source) (chosen : Marker → Bool) :
    (layout.dataOf chosen).Fits source :=
  SpanSet.fits_ofList (h.finish_layers hclean chosen)

/-- The comments and strings of a sound layout fit the source. -/
theorem Sound.commentsAndStrings (h : layout.Sound source) :
    layout.commentsAndStrings.Fits source :=
  h.comments.union h.strings

/-- What a sound layout excludes fits the source. -/
theorem Sound.excluded (h : layout.Sound source) (hclean : Clean source) (mode : Mode) :
    (layout.excluded mode).Fits source := by
  unfold Layout.excluded
  simp only
  split
  · exact (h.dataOf hclean _).union h.commentsAndStrings
  · exact h.dataOf hclean _

end Layout

end LexScope
