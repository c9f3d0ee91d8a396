import LexScope.Proofs.Form.Pairing
import LexScope.Proofs.Form.Reading

/-!
# Forms nest

Pairs come in order of their opening brackets, and those directly inside a pair lie between its
brackets. Elements lie between the brackets of their form: they are read from there on, and a string
that starts before the place where it is found cannot reach over a bracket. The elements of a form
end one after the other, and what is inside a group lies inside the group.
-/

namespace LexScope

open Byte

/-! ## Order of pairs -/

namespace LayoutState

variable {pos : Nat} {read : List Lexeme} {st : LayoutState} {l : Lexeme}

/-- A lexeme adds at most one pair, which closes after those before it. -/
theorem Matched.pairwise_step (h : st.Matched pos read) (hstart : pos ≤ l.span.start)
    (hpairs : st.pairs.Pairwise fun p q => q.closing < p.closing) :
    (st.step l).pairs.Pairwise fun p q => q.closing < p.closing := by
  cases hbracket : l.kind.isBracket with
  | false => rwa [(step_of_not_isBracket st hbracket).2]
  | true =>
    cases hkind : l.kind <;> simp only [hkind, LexemeKind.isBracket, Bool.false_eq_true] at hbracket
    case opening => simpa only [LayoutState.step, hkind] using hpairs
    case closing =>
      simp only [LayoutState.step, hkind, LayoutState.close]
      split
      · exact hpairs
      · exact List.pairwise_cons.2
          ⟨fun p hp => Nat.lt_of_lt_of_le (h.pairs_lt p hp).2 hstart, hpairs⟩

/-- Of two pairs, the one found later closes later. -/
theorem Matched.pairwise_foldl {rest : List Lexeme} (h : st.Matched pos read)
    (hrest : Lexeme.InOrder rest) (hstart : ∀ l ∈ rest, pos ≤ l.span.start)
    (hpairs : st.pairs.Pairwise fun p q => q.closing < p.closing) :
    (rest.foldl LayoutState.step st).pairs.Pairwise fun p q => q.closing < p.closing := by
  induction rest generalizing pos read st with
  | nil => exact hpairs
  | cons l rest ih =>
    obtain ⟨hl, hproper⟩ := List.forall_mem_cons.1 hrest.proper
    obtain ⟨hnext, hordered⟩ := List.pairwise_cons.1 hrest.ordered
    have hpos := hstart l List.mem_cons_self
    exact ih (h.step hpos hl) ⟨hproper, hordered⟩ (fun d hd => (hnext d hd).1)
      (h.pairwise_step hpos hpairs)

end LayoutState

/-- Pairs that open at different offsets are put in order of their opening brackets. -/
theorem PairIndex.pairwise_pairs_ofPairs {pairs : List Pair}
    (h : pairs.Pairwise fun p q => p.opening ≠ q.opening) :
    (ofPairs pairs).pairs.Pairwise fun p q => p.opening < q.opening := by
  rw [pairs_ofPairs]
  have hne : (pairs.mergeSort Pair.atMost).Pairwise fun p q => p.opening ≠ q.opening :=
    (List.mergeSort_perm pairs Pair.atMost).symm.pairwise h Ne.symm
  have hsorted : (pairs.mergeSort Pair.atMost).Pairwise fun p q => p.atMost q = true := by
    apply List.pairwise_mergeSort
    · intro a b c
      simp [Pair.atMost]
      omega
    · intro a b
      simp [Pair.atMost]
      omega
  refine (hsorted.and hne).imp ?_
  rintro p q ⟨hle, hne⟩
  simp [Pair.atMost] at hle
  omega

/-- Pairs are in order of their opening brackets. -/
theorem Layout.pairwise_pairs_ofBytes (bytes : List UInt8) :
    (ofBytes bytes).pairs.pairs.Pairwise fun p q => p.opening < q.opening := by
  have hclosing := (LayoutState.Matched.empty 0).pairwise_foldl (Lexeme.inOrder_lexemes bytes)
    (fun _ _ => Nat.zero_le _) List.Pairwise.nil
  generalize hfound : ((lexemes bytes).foldl LayoutState.step {}).pairs = found at hclosing
  have hindex : (ofBytes bytes).pairs = PairIndex.ofPairs found := by
    rw [← hfound]
    rfl
  have hmem (p : Pair) : p ∈ (ofBytes bytes).pairs.pairs ↔ p ∈ found := by
    rw [hindex, PairIndex.pairs_ofPairs, List.mem_mergeSort]
  rw [hindex]
  apply PairIndex.pairwise_pairs_ofPairs
  refine hclosing.imp_of_mem ?_
  intro p q hp hq hlt heq
  have := (laminar_ofBytes bytes).eq_of_shared ((hmem p).2 hp) ((hmem q).2 hq) (.inl heq) (.inl rfl)
  rw [this] at hlt
  exact Nat.lt_irrefl _ hlt

namespace PairIndex

variable {index : PairIndex} {p q : Pair}

private theorem opening_lt_of_mem_siblings {closing : Nat} {pairs : List Pair}
    (h : q ∈ siblings closing pairs) : q.opening < closing := by
  fun_induction siblings closing pairs with
  | case1 => cases h
  | case2 first rest hlt ih =>
    rcases List.mem_cons.1 h with rfl | h
    · exact hlt
    · exact ih h
  | case3 => cases h

/-- Of the pairs directly inside a pair, each one opens behind those before it. -/
theorem pairwise_siblings {closing : Nat} {pairs : List Pair}
    (hordered : pairs.Pairwise fun p q => p.opening < q.opening) :
    (siblings closing pairs).Pairwise fun p q => p.closing < q.opening := by
  fun_induction siblings closing pairs with
  | case1 => exact List.Pairwise.nil
  | case2 first rest hlt ih =>
    have hrest := (List.pairwise_cons.1 hordered).2.sublist
      (List.dropWhile_sublist fun q => decide (q.opening ≤ first.closing))
    refine List.pairwise_cons.2 ⟨fun q hq => ?_, ih hrest⟩
    have hq := mem_of_mem_siblings hq
    -- What is left starts with a pair that opens behind the first one.
    cases hleft : rest.dropWhile fun q => decide (q.opening ≤ first.closing) with
    | nil =>
      rw [hleft] at hq
      cases hq
    | cons next more =>
      have hnext : first.closing < next.opening := by
        have := List.head?_dropWhile_not (fun q : Pair => decide (q.opening ≤ first.closing)) rest
        rw [hleft] at this
        simpa using this
      rw [hleft] at hq hrest
      rcases List.mem_cons.1 hq with rfl | hq
      · exact hnext
      · exact Nat.lt_trans hnext ((List.pairwise_cons.1 hrest).1 q hq)
  | case3 => exact List.Pairwise.nil

/-- The children of a pair follow each other. -/
theorem pairwise_children (hordered : index.pairs.Pairwise fun p q => p.opening < q.opening)
    (p : Pair) : (index.children p).Pairwise fun q r => q.closing < r.opening := by
  unfold children
  split
  · exact List.Pairwise.nil
  · next first rest heq =>
    have hrest := hordered.sublist
      (List.dropWhile_sublist fun q => decide (q.opening < p.opening))
    rw [heq] at hrest
    split
    · exact pairwise_siblings (List.pairwise_cons.1 hrest).2
    · exact List.Pairwise.nil

/-- The pairs directly inside a pair lie between its brackets. -/
theorem Laminar.between_of_mem_children (h : index.Laminar)
    (hordered : index.pairs.Pairwise fun p q => p.opening < q.opening) (hp : p ∈ index.pairs)
    (hq : q ∈ index.children p) : p.opening < q.opening ∧ q.closing < p.closing := by
  have hmem := mem_of_mem_children hq
  unfold children at hq
  split at hq
  · cases hq
  · next first rest heq =>
    have hrest : (first :: rest).Pairwise fun p q => p.opening < q.opening := by
      rw [← heq]
      exact hordered.sublist (List.dropWhile_sublist _)
    split at hq
    · next hfirst =>
      have hafter := (List.pairwise_cons.1 hrest).1 q (mem_of_mem_siblings hq)
      have hbefore := opening_lt_of_mem_siblings hq
      have hlt := h.lt q hmem
      rw [eq_of_beq hfirst] at hafter
      rcases h.laminar p hp q hmem with rfl | hcase | hcase | hcase | hcase
      · exact absurd hafter (Nat.lt_irrefl _)
      all_goals omega
    · cases hq

end PairIndex

/-! ## What nests in a layout -/

/-- Comments keep apart, and so do strings. -/
theorem Layout.separated_ofBytes (bytes : List UInt8) :
    SpanSet.Separated (ofBytes bytes).comments.spans ∧
      SpanSet.Separated (ofBytes bytes).strings.spans := by
  have hrecorded := (LayoutState.Recorded.empty (lexemes bytes)).foldl fun _ hl => hl
  have hproper := (Lexeme.inOrder_lexemes bytes).proper
  refine ⟨SpanSet.separated_ofList ?_, SpanSet.separated_ofList ?_⟩
  · intro s hs
    obtain ⟨l, hl, rfl, -⟩ := hrecorded.comments s hs
    exact Nat.le_of_lt (hproper l hl)
  · intro s hs
    obtain ⟨l, hl, rfl, -⟩ := hrecorded.strings s hs
    exact Nat.le_of_lt (hproper l hl)

/-- Pairs are in order and nested or disjoint, and no string reaches over a bracket. -/
structure Layout.Nests (layout : Layout) : Prop where
  /-- Pairs are nested or disjoint. -/
  laminar : layout.pairs.Laminar
  /-- Pairs are in order of their opening brackets. -/
  ordered : layout.pairs.pairs.Pairwise fun p q => p.opening < q.opening
  /-- No string holds an opening bracket. -/
  strings : ∀ p ∈ layout.pairs.pairs, ∀ s ∈ layout.strings.spans, s.contains p.opening = false

private theorem Layout.nests_ofBytes (bytes : List UInt8) : (ofBytes bytes).Nests where
  laminar := laminar_ofBytes bytes
  ordered := pairwise_pairs_ofBytes bytes
  strings p hp s hs := by
    have hstrings := (not_contains_of_hasBracketAt hp (.inl rfl)).2
    rw [Bool.eq_false_iff] at hstrings ⊢
    intro hcontains
    exact hstrings ((SpanSet.contains_iff_of_separated (separated_ofBytes bytes).2).2
      ⟨s, hs, hcontains⟩)

/-! ## Elements of a form -/

section Elements

variable {source : List UInt8} {layout : Layout} {stop pos : Nat} {e : Element}

/-- What a step reads ends where the next one starts, is not empty, and starts no earlier than the
step, unless it is a string in whose middle the step starts. -/
structure Reading.Fills (layout : Layout) (pos next : Nat) (e : Element) : Prop where
  /-- The element is not empty. -/
  proper : e.span.start < e.span.stop
  /-- Reading goes on where it ends. -/
  stop_eq : e.span.stop = next
  /-- The element starts no earlier, or is part of a string. -/
  start : pos ≤ e.span.start ∨
    ∃ s ∈ layout.strings.spans, s.start = e.span.start ∧ pos < s.stop

private theorem Reading.fills_group (hlayout : layout.Sound source) {opened more : Nat}
    {quoted : Bool}
    (hle : pos ≤ opened)
    (h : Reading.group layout stop pos opened quoted = some (some (.element e), more)) :
    Reading.Fills layout pos (pos + 1 + more) e := by
  unfold Reading.group at h
  split at h
  · cases h
  · next closed hclosed =>
    have hlt : opened < closed := (hlayout.pairs _ (PairIndex.mem_of_closingOf hclosed)).lt
    split at h
    · simp only [Option.some.injEq, Prod.mk.injEq, Reading.element.injEq] at h
      obtain ⟨rfl, rfl⟩ := h
      exact ⟨by simp only [Pair.span]; omega, by simp only [Pair.span]; omega, .inl hle⟩
    · cases h

private theorem Reading.fills_datum (hlayout : layout.Sound source) {width more : Nat}
    {quoted : Bool}
    {d : UInt8} {rest : List UInt8} (hlt : pos + width < stop)
    (h : Reading.datum layout stop pos width quoted d rest = some (some (.element e), more)) :
    Reading.Fills layout pos (pos + 1 + more) e := by
  unfold Reading.datum at h
  split at h
  · cases h
  split at h
  · exact fills_group hlayout (by omega) h
  split at h
  · exact fills_group hlayout (by omega) h
  split at h
  · cases h
  split at h
  · simp only [Option.some.injEq, Prod.mk.injEq, Reading.element.injEq] at h
    obtain ⟨rfl, rfl⟩ := h
    unfold stringSpan
    split
    · next s hs =>
      obtain ⟨hstart, hstop⟩ := SpanSet.bounds_of_spanAt hs
      exact ⟨by simp only; omega, by simp only; omega,
        .inr ⟨s, SpanSet.mem_of_spanAt hs, rfl, by omega⟩⟩
    · exact ⟨hlt, by simp only; omega, .inl (Nat.le_add_right _ _)⟩
  split at h
  · cases h
  · simp only [Option.some.injEq, Prod.mk.injEq, Reading.element.injEq] at h
    obtain ⟨rfl, rfl⟩ := h
    exact ⟨by simp only; omega, by simp only; omega, .inl (Nat.le_add_right _ _)⟩

private theorem Reading.fills_step (hlayout : layout.Sound source) {more : Nat} {b : UInt8}
    {rest : List UInt8} (hwindow : window source pos stop = b :: rest)
    (h : Reading.step layout stop pos b rest = some (some (.element e), more)) :
    Reading.Fills layout pos (pos + 1 + more) e := by
  unfold Reading.step at h
  split at h
  · cases h
  split at h
  · cases h
  split at h
  · cases h
  · next d rest' hdrop =>
    have hdatum : window source (pos + (leadingMarkers (b :: rest)).1) stop = d :: rest' := by
      rw [window_add hwindow, hdrop]
    exact fills_datum hlayout (lt_of_window_cons hdatum) h

/-- The readings from an offset on are filled one after the other. -/
theorem fills_readings (hlayout : layout.Sound source) {bytes : List UInt8}
    (hwindow : window source pos stop = bytes) :
    (∀ e, .element e ∈ readings layout stop pos bytes →
        pos < e.span.stop ∧ ∃ from' ≥ pos, Reading.Fills layout from' e.span.stop e) ∧
      (readings layout stop pos bytes).Pairwise fun r s =>
        ∀ d e, r = .element d → s = .element e → d.stop < e.stop := by
  fun_induction readings layout stop pos bytes with
  | case1 => simp
  | case2 => simp
  | case3 pos b rest read more hstep ih =>
    have hnext : window source (pos + 1 + more) stop = rest.drop more := by
      rw [Nat.add_assoc, window_add hwindow, Nat.add_comm 1 more, List.drop_succ_cons]
    obtain ⟨hfills, hordered⟩ := ih hnext
    constructor
    · intro e he
      rcases List.mem_append.1 he with hread | hrest
      · have hhere := Reading.fills_step hlayout hwindow (Option.mem_toList.1 hread ▸ hstep)
        exact ⟨by have := hhere.stop_eq; omega, pos, Nat.le_refl _, hhere.stop_eq ▸ hhere⟩
      · obtain ⟨hlt, from', hle, hthere⟩ := hfills e hrest
        exact ⟨by omega, from', by omega, hthere⟩
    · refine List.pairwise_append.2 ⟨?_, hordered, ?_⟩
      · cases read <;> simp
      · rintro r hread s hs d e rfl rfl
        have hhere := Reading.fills_step hlayout hwindow (Option.mem_toList.1 hread ▸ hstep)
        have hthere := (hfills e hs).1
        have hstop := hhere.stop_eq
        simp only [Element.stop]
        omega

/-- A string starts where it is come upon, unless that is inside a string of the layout. -/
theorem le_start_or_covers_stringSpan {datum : Nat} :
    datum ≤ (stringSpan layout stop datum).start ∨
      ∃ s ∈ layout.strings.spans, s.covers (stringSpan layout stop datum) = true := by
  unfold stringSpan
  split
  · next s hs =>
    refine .inr ⟨s, List.mem_of_find?_eq_some (Option.filter_eq_some_iff.1 hs).1, ?_⟩
    exact Span.covers_iff.2 ⟨Nat.le_refl _, Nat.min_le_left _ _⟩
  · exact .inl (Nat.le_refl _)

/-- The element is read as a string and lies in one of the strings of the layout. -/
def Element.InString (layout : Layout) (e : Element) : Prop :=
  e.isString = true ∧ ∃ s ∈ layout.strings.spans, s.covers e.span = true

/-- An element that is no string lies in no string. -/
theorem Element.not_inString (h : e.isString = false) : ¬e.InString layout := by
  rintro ⟨hstring, -⟩
  rw [h] at hstring
  cases hstring

/-- An element starts no earlier than the step that reads it, unless it is a part of a string into
which the step was taken. -/
theorem Reading.le_start_of_step {more : Nat} {b : UInt8} {rest : List UInt8}
    (h : Reading.step layout stop pos b rest = some (some (.element e), more)) :
    pos ≤ e.span.start ∨ e.InString layout := by
  have hgroup {opened more : Nat} {quoted : Bool} (hle : pos ≤ opened)
      (h : Reading.group layout stop pos opened quoted = some (some (.element e), more)) :
      pos ≤ e.span.start := by
    unfold Reading.group at h
    split at h
    · cases h
    · split at h
      · simp only [Option.some.injEq, Prod.mk.injEq, Reading.element.injEq] at h
        rw [← h.1]
        exact hle
      · cases h
  unfold Reading.step at h
  split at h
  · cases h
  split at h
  · cases h
  split at h
  · cases h
  unfold Reading.datum at h
  split at h
  · cases h
  split at h
  · exact .inl (hgroup (by omega) h)
  split at h
  · exact .inl (hgroup (by omega) h)
  split at h
  · cases h
  split at h
  · simp only [Option.some.injEq, Prod.mk.injEq, Reading.element.injEq] at h
    rw [← h.1]
    exact le_start_or_covers_stringSpan.imp (Nat.le_trans (Nat.le_add_right _ _)) (.intro rfl)
  split at h
  · cases h
  · simp only [Option.some.injEq, Prod.mk.injEq, Reading.element.injEq] at h
    rw [← h.1]
    exact .inl (Nat.le_add_right _ _)

/-- An element starts behind all that is read before it, unless it lies in a string. -/
theorem le_start_readings (hlayout : layout.Sound source) {bytes : List UInt8}
    (hwindow : window source pos stop = bytes) :
    (∀ e, .element e ∈ readings layout stop pos bytes →
        pos ≤ e.span.start ∨ e.InString layout) ∧
      (readings layout stop pos bytes).Pairwise fun r s =>
        ∀ d e, r = .element d → s = .element e →
          d.stop ≤ e.span.start ∨ e.InString layout := by
  fun_induction readings layout stop pos bytes with
  | case1 => simp
  | case2 => simp
  | case3 pos b rest read more hstep ih =>
    have hnext : window source (pos + 1 + more) stop = rest.drop more := by
      rw [Nat.add_assoc, window_add hwindow, Nat.add_comm 1 more, List.drop_succ_cons]
    obtain ⟨hstart, hordered⟩ := ih hnext
    constructor
    · intro e he
      rcases List.mem_append.1 he with hread | hrest
      · exact Reading.le_start_of_step (Option.mem_toList.1 hread ▸ hstep)
      · exact (hstart e hrest).imp_left fun hle => by omega
    · refine List.pairwise_append.2 ⟨?_, hordered, ?_⟩
      · cases read <;> simp
      · rintro r hread s hs d e rfl rfl
        have hhere := Reading.fills_step hlayout hwindow (Option.mem_toList.1 hread ▸ hstep)
        have hthere := hstart e hs
        rwa [Element.stop, hhere.stop_eq]

/-- Feature tests only take elements away. -/
theorem sublist_elementsOf (found : List Reading) :
    ((elementsOf found).map Reading.element).Sublist found := by
  fun_induction elementsOf found with
  | case1 e rest ih => exact ih.cons_cons _
  | case2 _ _ rest ih => exact ((ih.cons _).cons _).cons _
  | case3 => exact List.nil_sublist _

end Elements

/-- A document whose brackets and elements nest. -/
structure Source.Nests (src : Source) : Prop extends src.Sound where
  /-- Its brackets nest. -/
  nests : src.layout.Nests

/-- Every text is read as a nested source. -/
theorem Source.nests_ofText (text : String) : (Source.ofText text).Nests where
  toSound := sound_ofText text
  nests := Layout.nests_ofBytes _

namespace Source.Nests

variable {src : Source} {p : Pair}

/-- Each element of a form lies between its brackets, and is not empty. -/
theorem element (h : src.Nests) (hp : p ∈ src.layout.pairs.pairs) {e : Element}
    (he : e ∈ src.elements p) : e.span.start < e.span.stop ∧ p.inner.covers e.span = true := by
  have hsits := h.layout.pairs p hp
  have hin := sound_of_mem_elementsBetween h.clean h.layout (hsits.boundary_inside h.clean)
    hsits.boundary_closing he
  obtain ⟨-, from', hfrom, hfills⟩ :=
    (fills_readings h.layout rfl).1 e (mem_readings_of_mem_elementsOf he)
  refine ⟨hfills.proper, Span.covers_iff.2 ⟨?_, hin.le_stop⟩⟩
  simp only [Pair.inner]
  rcases hfills.start with hstart | ⟨s, hs, hstart, hstop⟩
  · omega
  · -- A string that starts before the form would hold its opening bracket.
    have hopening := h.nests.strings p hp s hs
    rw [Bool.eq_false_iff, ne_eq, Span.contains_iff] at hopening
    omega

/-- The elements of a form end one after the other. -/
theorem pairwise_elements (h : src.Nests) (p : Pair) :
    (src.elements p).Pairwise fun d e => d.stop < e.stop := by
  unfold Source.elements elementsBetween
  have hreadings := (fills_readings h.layout
    (rfl : window src.bytes (p.opening + 1) (min p.closing src.bytes.length) = _)).2
  exact (List.pairwise_map.1 (hreadings.sublist (sublist_elementsOf _))).imp
    fun hlt => hlt _ _ rfl rfl

end Source.Nests

/-! ## Nodes -/

/-- What is inside the node lies inside its element, ends in order, and so on inwards. -/
inductive Node.Nested : Node → Prop
  | mk {e : Element} {nodes : List Node} (proper : e.span.start < e.span.stop)
      (group : ∀ p, e.group = some p → e.span = p.span)
      (inside : ∀ n ∈ nodes,
        e.span.start < n.element.span.start ∧ n.element.span.stop < e.span.stop)
      (ordered : nodes.Pairwise fun m n => m.stop < n.stop)
      (items : ∀ n ∈ nodes, Node.Nested n) : Node.Nested (.mk e nodes)

namespace Node.Nested

variable {n : Node}

/-- A nested node is not empty. -/
theorem proper (h : n.Nested) : n.element.span.start < n.element.span.stop := by
  cases h
  assumption

/-- A nested node read as a group spans its pair. -/
theorem group (h : n.Nested) {p : Pair} (hp : n.element.group = some p) :
    n.element.span = p.span := by
  cases h with
  | mk _ hgroup => exact hgroup p hp

/-- The items of a nested node stand strictly inside it. -/
theorem inside (h : n.Nested) : ∀ m ∈ n.items,
    n.element.span.start < m.element.span.start ∧ m.element.span.stop < n.element.span.stop := by
  cases h with
  | mk _ _ hinside => exact hinside

/-- The items of a nested node follow each other. -/
theorem ordered (h : n.Nested) : n.items.Pairwise fun m n => m.stop < n.stop := by
  cases h with
  | mk _ _ _ hordered => exact hordered

/-- The items of a nested node are nested. -/
theorem items (h : n.Nested) : ∀ m ∈ n.items, m.Nested := by
  cases h with
  | mk _ _ _ _ hitems => exact hitems

end Node.Nested

/-- The node lies between two offsets, and nests. -/
structure Node.Within (lo hi : Nat) (n : Node) : Prop where
  /-- What is inside it lies inside. -/
  nested : n.Nested
  /-- It starts after the first offset. -/
  lo_le : lo ≤ n.element.span.start
  /-- It ends before the second one. -/
  le_hi : n.element.span.stop ≤ hi

namespace Node.Within

variable {lo hi : Nat} {n : Node}

/-- What is inside a node lies where the node lies. -/
theorem items (h : n.Within lo hi) : ∀ m ∈ n.items, m.Within lo hi := by
  intro m hm
  have hinside := h.nested.inside m hm
  exact ⟨h.nested.items m hm, by have := h.lo_le; omega, by have := h.le_hi; omega⟩

/-- What is inside a group ends before its closing bracket. -/
theorem items_of_group (h : n.Within lo hi) {p : Pair} (hp : n.element.group = some p) :
    ∀ m ∈ n.items, m.Within lo p.closing := by
  intro m hm
  have hin := h.items m hm
  have hinside := (h.nested.inside m hm).2
  rw [h.nested.group hp] at hinside
  exact { hin with le_hi := Nat.le_of_lt_succ hinside }

end Node.Within

namespace Source.Nests

variable {src : Source} {p : Pair}

/-- The items of a form nest, and lie between its brackets. -/
theorem items (h : src.Nests) (hp : p ∈ src.layout.pairs.pairs) :
    ∀ n ∈ src.items p, n.Within (p.opening + 1) p.closing := by
  induction hsize : p.closing - p.opening using Nat.strongRecOn generalizing p with
  | ind size ih =>
    intro n hn
    rw [Source.items, Source.nodes_eq] at hn
    obtain ⟨e, he, rfl⟩ := List.mem_map.1 hn
    obtain ⟨hproper, hcovers⟩ := h.element hp he
    obtain ⟨hstart, hstop⟩ := Span.covers_iff.1 hcovers
    refine ⟨?_, hstart, hstop⟩
    cases hgroup : e.group with
    | none =>
      have hnil : src.inside e = [] := by simp [Source.inside, hgroup]
      rw [hnil]
      exact .mk hproper (by simp [hgroup]) (by simp) List.Pairwise.nil (by simp)
    | some q =>
      have hsits := h.layout.pairs p hp
      have hsound := sound_of_mem_elementsBetween h.clean h.layout
        (hsits.boundary_inside h.clean) hsits.boundary_closing he
      obtain ⟨hq, hspan⟩ := hsound.group q (Element.kind_of_group hgroup)
      have hlt := h.nests.laminar.lt q hq
      have hinside : src.inside e = src.items q := by simp [Source.inside, hgroup, Source.items]
      rw [hspan] at hstart hstop
      simp only [Pair.span, Pair.inner] at hstart hstop
      have hitems := ih _ (by omega) hq rfl
      refine .mk hproper ?_ ?_ ?_ ?_
      · intro r hr
        rw [hspan, Option.some.inj (hgroup.symm.trans hr)]
      · intro m hm
        obtain ⟨-, hlo, hhi⟩ := hitems m (hinside ▸ hm)
        rw [hspan]
        simp only [Pair.span]
        omega
      · rw [hinside, Source.items, Source.nodes_eq]
        exact List.pairwise_map.2 (h.pairwise_elements q)
      · rw [hinside]
        exact fun m hm => (hitems m hm).nested

/-- An item starts behind the items before it, unless it lies in a string. -/
theorem pairwise_items_or_inString (h : src.Nests) (p : Pair) :
    (src.items p).Pairwise fun m n =>
      m.stop ≤ n.element.span.start ∨ n.element.InString src.layout := by
  rw [Source.items, Source.nodes_eq]
  unfold elementsBetween
  have hreadings := (le_start_readings h.layout
    (rfl : window src.bytes (p.opening + 1) (min p.closing src.bytes.length) = _)).2
  exact List.pairwise_map.2 <| (List.pairwise_map.1
    (hreadings.sublist (sublist_elementsOf _))).imp fun hle => hle _ _ rfl rfl

/-- An item that is no string starts behind the items before it. -/
theorem pairwise_items (h : src.Nests) (p : Pair) :
    (src.items p).Pairwise fun m n =>
      n.element.isString = false → m.stop ≤ n.element.span.start := by
  exact (h.pairwise_items_or_inString p).imp fun hle hstring =>
    hle.resolve_right (Element.not_inString hstring)

/-- What is inside an item is the content of a form, if there is anything. -/
theorem items_of_mem_items (h : src.Nests) (hp : p ∈ src.layout.pairs.pairs) {n : Node}
    (hn : n ∈ src.items p) :
    n.items = [] ∨ ∃ q ∈ src.layout.pairs.pairs, n.items = src.items q := by
  have hsound := (h.toSound.items hp n hn).element
  rw [Source.items, Source.nodes_eq] at hn
  obtain ⟨e, -, rfl⟩ := List.mem_map.1 hn
  cases hgroup : e.group with
  | none =>
    left
    simp [Node.items, Source.inside, hgroup]
  | some q =>
    right
    exact ⟨q, (hsound.group q (Element.kind_of_group hgroup)).1,
      by simp [Node.items, Source.inside, hgroup, Source.items]⟩

/-- What is inside an item is an item too. -/
theorem exists_items_of_mem (h : src.Nests) (hp : p ∈ src.layout.pairs.pairs) {n : Node}
    (hn : n ∈ src.items p) {m : Node} (hm : m ∈ n.items) :
    ∃ q ∈ src.layout.pairs.pairs, m ∈ src.items q := by
  rcases h.items_of_mem_items hp hn with hnil | ⟨q, hq, hitems⟩
  · rw [hnil] at hm
    cases hm
  · exact ⟨q, hq, hitems ▸ hm⟩

/-- What is inside an item starts behind what stands before it there, unless it lies in a string. -/
theorem pairwise_of_mem_items (h : src.Nests) (hp : p ∈ src.layout.pairs.pairs) {n : Node}
    (hn : n ∈ src.items p) : n.items.Pairwise fun m m' =>
      m.stop ≤ m'.element.span.start ∨ m'.element.InString src.layout := by
  rcases h.items_of_mem_items hp hn with hnil | ⟨q, -, hitems⟩
  · rw [hnil]
    exact List.Pairwise.nil
  · rw [hitems]
    exact h.pairwise_items_or_inString q

end Source.Nests

end LexScope
