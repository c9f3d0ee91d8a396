import LexScope.Proofs.Form.Printed

/-!
# Looking up the pieces of printed data

The pieces of printed data come in order and keep apart, so sorting and merging in the layout change
nothing: the index holds the brackets of the lists in order, comments and strings are found at the
offsets inside them, and nothing is found anywhere else.
-/

namespace LexScope

open Utf8

/-! ## Sets and indices of things in order -/

/-- Sorting a list brings it into an order that some rearrangement of it has. -/
theorem mergeSort_eq_of_perm {α : Type} {le : α → α → Bool} {l sorted : List α}
    (htrans : ∀ a b c, le a b = true → le b c = true → le a c = true)
    (htotal : ∀ a b, (le a b || le b a) = true)
    (hantisymm : ∀ a b, le a b = true → le b a = true → a = b)
    (hperm : sorted.Perm l) (hsorted : sorted.Pairwise fun a b => le a b = true) :
    l.mergeSort le = sorted := by
  refine List.Perm.eq_of_pairwise ?_ (List.pairwise_mergeSort htrans htotal l) hsorted ?_
  · exact fun a b _ _ => hantisymm a b
  · exact (List.mergeSort_perm l le).trans hperm.symm

/-- Of any two elements of an ordered list one comes before the other, unless they are equal. -/
theorem eq_or_rel_of_pairwise {α : Type} {R : α → α → Prop} {l : List α} (h : l.Pairwise R)
    {a b : α} (ha : a ∈ l) (hb : b ∈ l) : a = b ∨ R a b ∨ R b a := by
  obtain ⟨i, hi, rfl⟩ := List.mem_iff_getElem.1 ha
  obtain ⟨j, hj, rfl⟩ := List.mem_iff_getElem.1 hb
  rw [List.pairwise_iff_getElem] at h
  rcases Nat.lt_trichotomy i j with hlt | rfl | hlt
  · exact .inr (.inl (h i j hi hj hlt))
  · exact .inl rfl
  · exact .inr (.inr (h j i hj hi hlt))

/-- Where a property holds only of a first part of a list, a test for it splits the list. -/
theorem takeWhile_dropWhile_eq_filter {α : Type} {P : α → Bool} {l : List α}
    (h : l.Pairwise fun a b => P b = true → P a = true) :
    l.takeWhile P = l.filter P ∧ l.dropWhile P = l.filter fun a => !P a := by
  induction l with
  | nil => exact ⟨rfl, rfl⟩
  | cons a rest ih =>
    obtain ⟨ha, hrest⟩ := List.pairwise_cons.1 h
    obtain ⟨htake, hdrop⟩ := ih hrest
    cases hP : P a with
    | true => simp [hP, htake, hdrop]
    | false =>
      have hnone : ∀ b ∈ rest, P b = false := fun b hb => by
        rw [Bool.eq_false_iff]
        intro hPb
        rw [ha b hb hPb] at hP
        cases hP
      have hnil : rest.filter P = [] := List.filter_eq_nil_iff.2 fun b hb => by simp [hnone b hb]
      have hall : rest.filter (fun b => !P b) = rest :=
        List.filter_eq_self.2 fun b hb => by simp [hnone b hb]
      simp [hP, hnil, hall]

/-- The head of an ordered list is what comes before everything else. -/
theorem head?_eq_some_iff_of_pairwise {α : Type} {R : α → α → Prop}
    (hasymm : ∀ a b, R a b → ¬ R b a) {l : List α} (h : l.Pairwise R) {a : α} :
    l.head? = some a ↔ a ∈ l ∧ ∀ b ∈ l, b = a ∨ R a b := by
  cases l with
  | nil => simp
  | cons first rest =>
    have hfirst := (List.pairwise_cons.1 h).1
    rw [List.head?_cons, Option.some.injEq]
    constructor
    · rintro rfl
      exact ⟨List.mem_cons_self, List.forall_mem_cons.2 ⟨.inl rfl, fun b hb => .inr (hfirst b hb)⟩⟩
    · rintro ⟨hmem, hbefore⟩
      rcases List.mem_cons.1 hmem with heq | hmem
      · exact heq.symm
      · rcases hbefore first List.mem_cons_self with heq | hR
        · exact heq
        · exact absurd hR (hasymm _ _ (hfirst a hmem))

/-- The last one of an ordered list is what comes behind everything else. -/
theorem getLast?_eq_some_iff_of_pairwise {α : Type} {R : α → α → Prop}
    (hasymm : ∀ a b, R a b → ¬ R b a) {l : List α} (h : l.Pairwise R) {a : α} :
    l.getLast? = some a ↔ a ∈ l ∧ ∀ b ∈ l, b = a ∨ R b a := by
  rw [← List.head?_reverse, head?_eq_some_iff_of_pairwise (fun a b => hasymm b a)
    (List.pairwise_reverse.2 h)]
  simp only [List.mem_reverse]

namespace SpanSet

/-- The spans are in order, are not empty, and do not touch. -/
structure Separated (spans : List Span) : Prop where
  /-- None is empty. -/
  proper : ∀ s ∈ spans, s.start < s.stop
  /-- Each ends before the next one starts. -/
  apart : spans.Pairwise fun s t => s.stop < t.start

private theorem merge_of_separated {spans : List Span} (h : Separated spans) :
    merge spans = spans := by
  have hfrom : ∀ (rest : List Span) (current : Span),
      (current :: rest).Pairwise (fun s t => s.stop < t.start) →
        mergeFrom current rest = current :: rest := by
    intro rest
    induction rest with
    | nil => exact fun _ _ => rfl
    | cons s rest ih =>
      intro current hapart
      obtain ⟨hcurrent, hrest⟩ := List.pairwise_cons.1 hapart
      have hlt := hcurrent s List.mem_cons_self
      rw [mergeFrom, if_neg (by omega), ih s hrest]
  cases spans with
  | nil => rfl
  | cons s rest => exact hfrom rest s h.apart

/-- A set made from separate spans keeps them. -/
theorem spans_ofList {spans sorted : List Span} (hperm : sorted.Perm spans)
    (h : Separated sorted) : (ofList spans).spans = sorted := by
  have hfilter : spans.filter (fun s => !s.isEmpty) = spans := by
    apply List.filter_eq_self.2
    intro s hs
    have hlt := h.proper s (hperm.mem_iff.2 hs)
    simp only [Span.isEmpty, Bool.not_eq_true', beq_eq_false_iff_ne]
    omega
  have hsort : spans.mergeSort Span.atMost = sorted := by
    apply mergeSort_eq_of_perm _ _ _ hperm
    · refine h.apart.imp_of_mem ?_
      intro s t hs _ hst
      have hlt := h.proper s hs
      simp [Span.atMost, Span.precedes]
      omega
    · intro a b c
      simp [Span.atMost, Span.precedes]
      omega
    · intro a b
      simp [Span.atMost, Span.precedes]
      omega
    · intro a b
      cases a
      cases b
      simp [Span.atMost, Span.precedes]
      omega
  rw [ofList, hfilter, hsort, merge_of_separated h]

/-- A set of separate spans finds a span at the offsets it holds. -/
theorem spanAt_eq_some_iff {set : SpanSet} (h : Separated set.spans) {offset : Nat} {s : Span} :
    set.spanAt offset = some s ↔ s ∈ set.spans ∧ s.start ≤ offset ∧ offset < s.stop := by
  constructor
  · intro hs
    exact ⟨mem_of_spanAt hs, bounds_of_spanAt hs⟩
  · rintro ⟨hmem, hstart, hstop⟩
    obtain ⟨before, after, hsplit⟩ := List.append_of_mem hmem
    have hapart := h.apart
    rw [hsplit, List.pairwise_append] at hapart
    have hfind : set.firstAfter offset = some s := by
      unfold firstAfter
      rw [List.find?_eq_some_iff_append]
      refine ⟨by simpa using hstop, before, after, hsplit, ?_⟩
      intro t ht
      have hlt := hapart.2.2 t ht s List.mem_cons_self
      simp only [Bool.not_eq_true', decide_eq_false_iff_not]
      omega
    rw [spanAt, hfind, Option.filter_some, if_pos (by simpa using hstart)]

end SpanSet

namespace PairIndex

/-- An index made from pairs keeps them in order of their opening brackets. -/
theorem pairs_ofPairs_of_perm {pairs sorted : List Pair} (hperm : sorted.Perm pairs)
    (h : sorted.Pairwise fun p q => p.opening < q.opening) : (ofPairs pairs).pairs = sorted := by
  rw [pairs_ofPairs]
  apply mergeSort_eq_of_perm _ _ _ hperm
  · refine h.imp ?_
    intro p q hpq
    simp [Pair.atMost, hpq]
  · intro a b c
    simp [Pair.atMost]
    omega
  · intro a b
    simp [Pair.atMost]
    omega
  · intro a b
    cases a
    cases b
    simp [Pair.atMost]
    omega

private theorem closingOf_eq_some_iff {index : PairIndex}
    (h : index.pairs.Pairwise fun p q => p.opening < q.opening) {opening closing : Nat} :
    index.closingOf opening = some closing ↔ ⟨opening, closing⟩ ∈ index.pairs := by
  constructor
  · exact mem_of_closingOf
  · intro hmem
    obtain ⟨before, after, hsplit⟩ := List.append_of_mem hmem
    rw [hsplit, List.pairwise_append] at h
    have hfind : index.pairs.find? (fun p => p.opening == opening) = some ⟨opening, closing⟩ := by
      rw [List.find?_eq_some_iff_append]
      refine ⟨by simp, before, after, hsplit, ?_⟩
      intro p hp
      have hlt : p.opening < opening := h.2.2 p hp _ List.mem_cons_self
      simp only [Bool.not_eq_true', beq_eq_false_iff_ne]
      omega
    rw [pairs, List.find?_map] at hfind
    have hget : index.get? opening = some ⟨opening, closing⟩ := hfind
    rw [closingOf, hget, Option.map_some]

end PairIndex

/-! ## Order -/

namespace Piece

/-- The first offset at which the layout shows the piece. -/
def start : Piece → Nat
  | form p _ => p.opening
  | comment s => s.start
  | string s => s.start

/-- The last offset that another piece must stay behind: of a list only its opening bracket, since
other pieces stand inside it. -/
def edge : Piece → Nat
  | form p _ => p.opening
  | comment s => s.stop
  | string s => s.stop

/-- The first offset after the piece. -/
def stop : Piece → Nat
  | form p _ => p.closing + 1
  | comment s => s.stop
  | string s => s.stop

/-- The piece is not empty. -/
def Proper : Piece → Prop
  | form p _ => p.opening < p.closing
  | comment s => s.start < s.stop
  | string s => s.start < s.stop

/-- The second piece starts behind the first, without touching it. -/
def Before (a b : Piece) : Prop := a.edge < b.start

private theorem Proper.start_lt_stop {a : Piece} (h : a.Proper) : a.start < a.stop := by
  cases a with
  | form p elements => exact Nat.lt_succ_of_lt h
  | comment s => exact h
  | string s => exact h

private theorem Proper.edge_le_stop {a : Piece} (h : a.Proper) : a.edge ≤ a.stop := by
  cases a with
  | form p elements => exact Nat.le_succ_of_le (Nat.le_of_lt h)
  | comment s => exact Nat.le_refl _
  | string s => exact Nat.le_refl _

end Piece

/-- The pieces are in order and stand between two offsets. -/
structure Placed (lo hi : Nat) (pieces : List Piece) : Prop where
  /-- No piece starts too early. -/
  lo_le : ∀ a ∈ pieces, lo ≤ a.start
  /-- No piece ends too late. -/
  le_hi : ∀ a ∈ pieces, a.stop ≤ hi
  /-- No piece is empty. -/
  proper : ∀ a ∈ pieces, a.Proper
  /-- Each piece stands behind all earlier ones. -/
  ordered : pieces.Pairwise Piece.Before

namespace Placed

variable {lo hi : Nat} {pieces : List Piece}

private theorem nil : Placed lo hi [] := by
  constructor <;> simp

private theorem mono (h : Placed lo hi pieces) {lo' hi' : Nat} (hlo : lo' ≤ lo) (hhi : hi ≤ hi') :
    Placed lo' hi' pieces where
  lo_le a ha := by have := h.lo_le a ha; omega
  le_hi a ha := by have := h.le_hi a ha; omega
  proper := h.proper
  ordered := h.ordered

private theorem append {mid mid' : Nat} {a b : List Piece} (ha : Placed lo mid a)
    (hb : Placed mid' hi b)
    (hlo : lo ≤ mid') (hmid : mid < mid') (hhi : mid ≤ hi) : Placed lo hi (a ++ b) where
  lo_le := by
    rw [List.forall_mem_append]
    exact ⟨ha.lo_le, fun p hp => Nat.le_trans hlo (hb.lo_le p hp)⟩
  le_hi := by
    rw [List.forall_mem_append]
    exact ⟨fun p hp => Nat.le_trans (ha.le_hi p hp) hhi, hb.le_hi⟩
  proper := by
    rw [List.forall_mem_append]
    exact ⟨ha.proper, hb.proper⟩
  ordered := by
    rw [List.pairwise_append]
    refine ⟨ha.ordered, hb.ordered, ?_⟩
    intro p hp q hq
    have hedge := (ha.proper p hp).edge_le_stop
    have hstop := ha.le_hi p hp
    have hstart := hb.lo_le q hq
    unfold Piece.Before
    omega

private theorem ahead (h : Placed lo hi pieces) : ∀ a ∈ pieces, a.start < hi ∧ a.edge ≤ hi := by
  intro a ha
  have hproper := h.proper a ha
  have hstart := hproper.start_lt_stop
  have hedge := hproper.edge_le_stop
  have hstop := h.le_hi a ha
  omega

private theorem singleton {a : Piece} (hlo : lo ≤ a.start) (hhi : a.stop ≤ hi) (ha : a.Proper) :
    Placed lo hi [a] := by
  constructor <;> simp [hlo, hhi, ha]

/-- Brackets go around what stands between them. -/
theorem form {p : Pair} (h : Placed (p.opening + 1) p.closing pieces)
    (hlt : p.opening < p.closing) (hlo : lo ≤ p.opening) (hhi : p.closing < hi)
    (elements : List Element) : Placed lo hi (.form p elements :: pieces) where
  lo_le := List.forall_mem_cons.2
    ⟨hlo, fun a ha => by have := h.lo_le a ha; omega⟩
  le_hi := List.forall_mem_cons.2
    ⟨hhi, fun a ha => by have := h.le_hi a ha; omega⟩
  proper := List.forall_mem_cons.2 ⟨hlt, h.proper⟩
  ordered := List.pairwise_cons.2 ⟨h.lo_le, h.ordered⟩

end Placed

private theorem Gap.placed_pieces (pos : Nat) (lead : Option Gap) :
    Placed (pos + 1) (pos + (encode (Gap.lead lead)).length - 1) (Gap.pieces pos lead) := by
  match lead with
  | none => exact .nil
  | some .space => exact .nil
  | some (.comment text oneLine) =>
    have hlength : (encode (Gap.lead (some (.comment text oneLine)))).length =
        (encode text).length + 4 := by
      simp [Gap.encode_comment]
    rw [hlength]
    apply Placed.singleton
    · exact Nat.le_refl _
    · simp only [Piece.stop]
      omega
    · simp only [Piece.Proper]
      omega

private theorem Gap.one_le_length_lead (gap : Gap) : 1 ≤ (encode (Gap.lead (some gap))).length := by
  cases gap with
  | space => decide
  | comment text oneLine =>
    rw [Gap.encode_comment, List.length_cons]
    omega

namespace Datum

private theorem two_le_length_literal (contents : List Char) :
    2 ≤ (encode (literal contents)).length := by
  rw [literal, encode_cons_ascii (by decide), encode_append, List.length_cons, List.length_append]
  have hquote : (encode ['"']).length = 1 := by decide
  omega

mutual

/-- The pieces of a printed datum are in order and stand inside it. -/
theorem placed_pieces (pos : Nat) : ∀ d : Datum, Placed pos (pos + d.size) (d.pieces pos)
  | atom marks a => by
    rw [pieces]
    exact .nil
  | string marks contents => by
    rw [pieces]
    have hliteral := two_le_length_literal contents
    have hsize : (string marks contents).size =
        marks.length + (encode (literal contents)).length := by
      rw [size, chars, encode_append, List.length_append, Mark.length_encode]
    apply Placed.singleton
    · simp only [Piece.start]
      omega
    · simp only [Piece.stop]
      omega
    · simp only [Piece.Proper]
      omega
  | list marks gaps items => by
    have hitems : Placed (pos + marks.length + 1) _ _ :=
      placed_piecesFrom (pos + marks.length + 1) none gaps items
    have hsize := size_list marks gaps items
    rw [pieces]
    refine Placed.form (hitems.mono (Nat.le_refl _) ?_) ?_ ?_ ?_ _
    all_goals simp only
    all_goals omega

/-- The pieces of printed neighbours are in order and stand inside them, behind the space that
comes first. -/
theorem placed_piecesFrom (pos : Nat) (lead : Option Gap) (gaps : Nat → Gap) :
    ∀ items : List Datum, Placed (pos + lead.toList.length) (pos + sizeFrom lead gaps items)
      (piecesFrom pos lead gaps items)
  | [] => by
    rw [piecesFrom]
    exact .nil
  | d :: items => by
    rw [piecesFrom, sizeFrom_cons]
    have hd := placed_pieces (pos + (encode (Gap.lead lead)).length) d
    have hitems : Placed (pos + (encode (Gap.lead lead)).length + d.size + 1) _ _ :=
      placed_piecesFrom (pos + (encode (Gap.lead lead)).length + d.size) (some (gaps 0))
        (fun i => gaps (i + 1)) items
    have htail := hd.append hitems (by omega) (by omega) (by omega)
    cases lead with
    | none => exact htail.mono (by simp) (by omega)
    | some gap =>
      have hone := gap.one_le_length_lead
      exact ((Gap.placed_pieces pos (some gap)).append htail (by omega) (by omega)
        (by omega)).mono (Nat.le_refl _) (by omega)

end

end Datum

/-! ## The layout -/

/-- Between two offsets the layout shows the pieces, and nothing else. -/
structure Layout.Shows (layout : Layout) (lo hi : Nat) (pieces : List Piece) : Prop where
  /-- Comments are found at the offsets inside them. -/
  comment : ∀ offset s, lo ≤ offset → offset < hi →
    (layout.comments.spanAt offset = some s ↔
      .comment s ∈ pieces ∧ s.start ≤ offset ∧ offset < s.stop)
  /-- Strings are found at the offsets inside them. -/
  string : ∀ offset s, lo ≤ offset → offset < hi →
    (layout.strings.spanAt offset = some s ↔
      .string s ∈ pieces ∧ s.start ≤ offset ∧ offset < s.stop)
  /-- Lists are found at their opening brackets. -/
  closing : ∀ offset c, lo ≤ offset → offset < hi →
    (layout.pairs.closingOf offset = some c ↔ ∃ elements, .form ⟨offset, c⟩ elements ∈ pieces)

namespace Layout.Shows

variable {layout : Layout} {lo hi lo' hi' : Nat} {before pieces after : List Piece}

/-- What shows at an offset of a stretch is none of the pieces before or after the stretch. -/
private theorem mem_of_mem_around (hbefore : ∀ a ∈ before, a.start < lo' ∧ a.edge ≤ lo')
    (hafter : ∀ a ∈ after, hi' ≤ a.start) {a : Piece} (ha : a ∈ before ++ (pieces ++ after))
    {offset : Nat} (hlo : lo' ≤ offset) (hhi : offset < hi') (hstart : a.start ≤ offset)
    (hedge : offset < a.edge ∨ offset = a.start) : a ∈ pieces := by
  rcases List.mem_append.1 ha with ha | ha
  · have := hbefore a ha
    omega
  · rcases List.mem_append.1 ha with ha | ha
    · exact ha
    · have := hafter a ha
      omega

/-- A part of a stretch shows the pieces that stand in it. -/
theorem restrict (h : layout.Shows lo hi (before ++ (pieces ++ after))) (hlo : lo ≤ lo')
    (hhi : hi' ≤ hi) (hbefore : ∀ a ∈ before, a.start < lo' ∧ a.edge ≤ lo')
    (hafter : ∀ a ∈ after, hi' ≤ a.start) : layout.Shows lo' hi' pieces := by
  have hinto : ∀ a ∈ pieces, a ∈ before ++ (pieces ++ after) := fun a ha =>
    List.mem_append_right _ (List.mem_append_left _ ha)
  refine ⟨?_, ?_, ?_⟩
  · intro offset s hoffset hlt
    rw [h.comment offset s (by omega) (by omega)]
    constructor
    · rintro ⟨hmem, hstart, hstop⟩
      exact ⟨mem_of_mem_around hbefore hafter hmem hoffset hlt hstart (.inl hstop), hstart, hstop⟩
    · rintro ⟨hmem, hbounds⟩
      exact ⟨hinto _ hmem, hbounds⟩
  · intro offset s hoffset hlt
    rw [h.string offset s (by omega) (by omega)]
    constructor
    · rintro ⟨hmem, hstart, hstop⟩
      exact ⟨mem_of_mem_around hbefore hafter hmem hoffset hlt hstart (.inl hstop), hstart, hstop⟩
    · rintro ⟨hmem, hbounds⟩
      exact ⟨hinto _ hmem, hbounds⟩
  · intro offset c hoffset hlt
    rw [h.closing offset c (by omega) (by omega)]
    constructor
    · rintro ⟨elements, hmem⟩
      exact ⟨elements,
        mem_of_mem_around hbefore hafter hmem hoffset hlt (Nat.le_refl _) (.inr rfl)⟩
    · rintro ⟨elements, hmem⟩
      exact ⟨elements, hinto _ hmem⟩

end Layout.Shows

namespace Datum

variable {layout : Layout} {pos : Nat}

/-- The pieces of neighbours show where each of them stands. -/
theorem shows_cons {lead : Option Gap} {gaps : Nat → Gap} {d : Datum} {items : List Datum}
    (h : layout.Shows pos (pos + sizeFrom lead gaps (d :: items))
      (piecesFrom pos lead gaps (d :: items))) {start : Nat}
    (hstart : start = pos + (encode (Gap.lead lead)).length) :
    layout.Shows pos start (Gap.pieces pos lead) ∧
      layout.Shows start (start + d.size) (d.pieces start) ∧
      layout.Shows (start + d.size)
        (start + d.size + sizeFrom (some (gaps 0)) (fun i => gaps (i + 1)) items)
        (piecesFrom (start + d.size) (some (gaps 0)) (fun i => gaps (i + 1)) items) := by
  rw [piecesFrom, sizeFrom_cons, ← hstart] at h
  have hlead : Placed pos start (Gap.pieces pos lead) :=
    (Gap.placed_pieces pos lead).mono (by omega) (by omega)
  have hd := placed_pieces start d
  have hitems := placed_piecesFrom (start + d.size) (some (gaps 0)) (fun i => gaps (i + 1)) items
  have hitems_lo := hitems.lo_le
  refine ⟨?_, ?_, ?_⟩
  · have hfirst : layout.Shows pos _ ([] ++ (Gap.pieces pos lead ++ _)) := h
    refine hfirst.restrict (Nat.le_refl _) (by omega) (by simp) ?_
    rw [List.forall_mem_append]
    refine ⟨hd.lo_le, fun a ha => ?_⟩
    have := hitems_lo a ha
    omega
  · refine h.restrict (by omega) (by omega) hlead.ahead ?_
    intro a ha
    have := hitems_lo a ha
    omega
  · rw [← List.append_assoc, ← List.append_nil (piecesFrom _ _ _ _)] at h
    refine h.restrict (by omega) (by omega) ?_ (by simp)
    rw [List.forall_mem_append]
    refine ⟨fun a ha => ?_, hd.ahead⟩
    have := hlead.ahead a ha
    omega

/-- The pieces inside a list show between its brackets. -/
theorem shows_list {marks : List Mark} {gaps : Nat → Gap} {items : List Datum}
    (h : layout.Shows pos (pos + (list marks gaps items).size)
      ((list marks gaps items).pieces pos)) :
    layout.Shows (pos + marks.length + 1) (pos + marks.length + 1 + sizeFrom none gaps items)
      (piecesFrom (pos + marks.length + 1) none gaps items) := by
  have hsize := size_list marks gaps items
  rw [pieces, ← List.singleton_append, ← List.append_nil (piecesFrom _ _ _ _)] at h
  refine h.restrict (by omega) (by omega) ?_ (by simp)
  intro a ha
  rw [List.mem_singleton.1 ha]
  exact ⟨Nat.lt_succ_self _, Nat.le_succ _⟩

end Datum

namespace Placed

variable {lo hi : Nat} {pieces : List Piece}

private theorem pairwise_filterMap {β : Type} {f : Piece → Option β} {R : β → β → Prop}
    (h : Placed lo hi pieces)
    (hf : ∀ a b, a.Before b → ∀ x, f a = some x → ∀ y, f b = some y → R x y) :
    (pieces.filterMap f).Pairwise R := by
  rw [List.pairwise_filterMap]
  exact h.ordered.imp fun hab => hf _ _ hab

private theorem pairs (h : Placed lo hi pieces) :
    (pieces.filterMap Piece.pair?).Pairwise fun p q => p.opening < q.opening := by
  apply h.pairwise_filterMap
  rintro (⟨p, _⟩ | _ | _) (⟨q, _⟩ | _ | _) hab x hx y hy <;> cases hx <;> cases hy
  exact hab

private theorem comments (h : Placed lo hi pieces) :
    SpanSet.Separated (pieces.filterMap Piece.comment?) where
  proper s hs := by
    obtain ⟨a, ha, hs⟩ := List.mem_filterMap.1 hs
    have hproper := h.proper a ha
    cases a <;> cases hs
    exact hproper
  apart := by
    apply h.pairwise_filterMap
    rintro (_ | s | _) (_ | t | _) hab x hx y hy <;> cases hx <;> cases hy
    exact hab

private theorem strings (h : Placed lo hi pieces) :
    SpanSet.Separated (pieces.filterMap Piece.string?) where
  proper s hs := by
    obtain ⟨a, ha, hs⟩ := List.mem_filterMap.1 hs
    have hproper := h.proper a ha
    cases a <;> cases hs
    exact hproper
  apart := by
    apply h.pairwise_filterMap
    rintro (_ | _ | s) (_ | _ | t) hab x hx y hy <;> cases hx <;> cases hy
    exact hab

end Placed

namespace Piece

variable {pieces : List Piece}

private theorem mem_filterMap_comment {s : Span} :
    s ∈ pieces.filterMap comment? ↔ comment s ∈ pieces := by
  rw [List.mem_filterMap]
  constructor
  · rintro ⟨a, ha, hs⟩
    cases a <;> cases hs
    exact ha
  · exact fun h => ⟨_, h, rfl⟩

private theorem mem_filterMap_string {s : Span} :
    s ∈ pieces.filterMap string? ↔ string s ∈ pieces := by
  rw [List.mem_filterMap]
  constructor
  · rintro ⟨a, ha, hs⟩
    cases a <;> cases hs
    exact ha
  · exact fun h => ⟨_, h, rfl⟩

/-- The pairs among the pieces are those of the forms. -/
theorem mem_filterMap_pair {p : Pair} :
    p ∈ pieces.filterMap pair? ↔ ∃ elements, form p elements ∈ pieces := by
  rw [List.mem_filterMap]
  constructor
  · rintro ⟨a, ha, hp⟩
    cases a <;> cases hp
    exact ⟨_, ha⟩
  · exact fun ⟨elements, h⟩ => ⟨_, h, rfl⟩

end Piece

/-- The layout of a document that consists of pieces in order. -/
structure Layout.MadeOf (layout : Layout) (pieces : List Piece) : Prop where
  /-- Nothing is unclosed. -/
  truncatedAt : layout.truncatedAt = none
  /-- The pairs are those of the lists, in order. -/
  pairs : layout.pairs.pairs = pieces.filterMap Piece.pair?
  /-- The comments in order. -/
  comments : layout.comments.spans = pieces.filterMap Piece.comment?
  /-- The strings in order. -/
  strings : layout.strings.spans = pieces.filterMap Piece.string?

/-- A layout made of placed pieces shows them, whatever the bounds. -/
theorem Layout.MadeOf.shows {layout : Layout} {pieces : List Piece} (h : layout.MadeOf pieces)
    {lo hi : Nat} (hplaced : Placed lo hi pieces) (lo' hi' : Nat) :
    layout.Shows lo' hi' pieces where
  comment offset s _ _ := by
    rw [SpanSet.spanAt_eq_some_iff (h.comments ▸ hplaced.comments), h.comments,
      Piece.mem_filterMap_comment]
  string offset s _ _ := by
    rw [SpanSet.spanAt_eq_some_iff (h.strings ▸ hplaced.strings), h.strings,
      Piece.mem_filterMap_string]
  closing offset c _ _ := by
    rw [PairIndex.closingOf_eq_some_iff (h.pairs ▸ hplaced.pairs), h.pairs,
      Piece.mem_filterMap_pair]

/-- The layout of printed neighbours is made of their pieces. -/
theorem Datum.madeOf_layout (lead : Option Gap) (gaps : Nat → Gap) (items : List Datum) :
    (Layout.ofBytes (encode (charsFrom lead gaps items))).MadeOf
      (piecesFrom 0 lead gaps items) := by
  obtain ⟨st, hgains, hscan⟩ := scan_charsFrom {} 0 Ends.nil lead gaps items
  have hplaced := placed_piecesFrom 0 lead gaps items
  rw [List.append_nil, LayoutState.scan_nil] at hscan
  have hlayout : Layout.ofBytes (encode (charsFrom lead gaps items)) =
      st.finish (encode (charsFrom lead gaps items)).length := by
    rw [← hscan]
    rfl
  rw [hlayout]
  have hpairs := hgains.pairs
  have hcomments := hgains.comments
  have hstrings := hgains.strings
  rw [List.append_nil] at hpairs hcomments hstrings
  exact
    { truncatedAt := hgains.truncatedAt
      pairs := PairIndex.pairs_ofPairs_of_perm hpairs hplaced.pairs
      comments := SpanSet.spans_ofList hcomments hplaced.comments
      strings := SpanSet.spans_ofList hstrings hplaced.strings }

end LexScope
