import LexScope.Form.Symbol
import LexScope.Proofs.Form.Markers
import LexScope.Proofs.Form.Sexp

/-!
# Documents of words, numbers and lists

A document of data with single spaces has no marks, comments or strings. Nothing of its text is left
out, and every atom is one of its words.
-/

namespace LexScope

open Byte Utf8

/-! ## Texts without markers -/

/-- The byte is none of the three that quote or evaluate what comes after them. -/
def Byte.MarksNothing (b : UInt8) : Prop := b ≠ quote ∧ b ≠ backquote ∧ b ≠ comma

private theorem marksNothing_of_isPlain {b : UInt8} (h : isPlain b = true) : MarksNothing b := by
  have hdelimiter := (isPlain_iff.1 h).1
  simp only [isDelimiter, Bool.or_eq_false_iff, beq_eq_false_iff_ne] at hdelimiter
  exact ⟨hdelimiter.1.1.2, hdelimiter.1.2, hdelimiter.2⟩

private theorem marksNothing_space : ∀ b ∈ encode (Gap.lead (some .space)), MarksNothing b := by
  have hlead : encode (Gap.lead (some .space)) = [32] := by decide
  rw [hlead, List.forall_mem_singleton]
  exact ⟨by decide, by decide, by decide⟩

/-- A byte that marks nothing is none of the markers. -/
theorem Byte.MarksNothing.ne {b : UInt8} (h : MarksNothing b) (m : Marker) : b ≠ m.byte := by
  obtain ⟨hquote, hbackquote, hcomma⟩ := h
  cases m with
  | quote => exact hquote
  | template => exact hbackquote
  | comma => exact hcomma

private theorem Layout.markers_ofBytes {bytes : List UInt8} (h : ∀ b ∈ bytes, MarksNothing b)
    (m : Marker) :
    (Layout.ofBytes bytes).markers m = ⟨[], []⟩ :=
  markers_eq_nil fun _ hi => absurd rfl ((h m.byte (List.mem_of_getElem? hi)).ne m)

/-- Without markers nothing is data. -/
theorem Layout.dataOf_of_unmarked {layout : Layout} (h : ∀ m, layout.markers m = ⟨[], []⟩)
    (chosen : Marker → Bool) : layout.dataOf chosen = ⟨[]⟩ := by
  have hlayers : layout.layers chosen = [] := by
    simp [Layout.layers, h, MarkerSpans.spans]
  rw [Layout.dataOf, hlayers]
  exact SpanSet.ofList_nil

namespace Sexp

/-! ## Words -/

variable {pos : Nat}

mutual

/-- The words of a datum printed at `pos`. -/
def words (pos : Nat) : Sexp → List (Span × List UInt8)
  | s@(word w) => [(⟨pos, pos + size s⟩, encode w.chars)]
  | s@(number n) => [(⟨pos, pos + size s⟩, encode (Nat.toDigits 10 n))]
  | list items => wordsFrom (pos + 1) items

/-- The words of neighbours printed at `pos`. -/
def wordsFrom (pos : Nat) : List Sexp → List (Span × List UInt8)
  | [] => []
  | s :: rest => words pos s ++ wordsFrom (pos + size s + 1) rest

end

section Words

variable {index : PairIndex} {rest : List UInt8}

private theorem wordsFrom_delimiter {b : UInt8} (hb : isDelimiter b = true) :
    LexScope.wordsFrom index ⟨[]⟩ pos (b :: rest) =
      LexScope.wordsFrom index ⟨[]⟩ (pos + 1) rest := by
  rw [LexScope.wordsFrom]
  simp [SpanSet.spanAt, SpanSet.firstAfter, hb]

private theorem wordsFrom_plain {b : UInt8} {bytes : List UInt8}
    (hplain : ∀ c ∈ b :: bytes, isPlain c = true)
    (hlength : atomLength (b :: bytes ++ rest) = (b :: bytes).length) :
    LexScope.wordsFrom index ⟨[]⟩ pos (b :: bytes ++ rest) =
      (⟨pos, pos + (b :: bytes).length⟩, b :: bytes) ::
        LexScope.wordsFrom index ⟨[]⟩ (pos + (b :: bytes).length) rest := by
  obtain ⟨hdelimiter, -, -, hhash⟩ := isPlain_iff.1 (hplain b List.mem_cons_self)
  rw [List.cons_append] at hlength ⊢
  rw [LexScope.wordsFrom]
  have hnone : (⟨[]⟩ : SpanSet).spanAt pos = none := rfl
  have hmax : max (pos + (b :: bytes).length) (pos + 1) = pos + (b :: bytes).length := by
    simp only [List.length_cons]
    omega
  simp only [hnone, hdelimiter, Bool.false_eq_true, if_false, beq_eq_false_iff_ne.2 hhash, hlength,
    hmax]
  rw [← List.cons_append, List.take_left, List.length_cons, Nat.add_sub_cancel, List.drop_left]

private theorem wordsFrom_atom {a : Atom}
    (hplain : ∃ b bytes, encode a.chars = b :: bytes ∧ ∀ c ∈ b :: bytes, isPlain c = true)
    (hrest : Ends rest) :
    LexScope.wordsFrom index ⟨[]⟩ pos (encode a.chars ++ rest) =
      (⟨pos, pos + (encode a.chars).length⟩, encode a.chars) ::
        LexScope.wordsFrom index ⟨[]⟩ (pos + (encode a.chars).length) rest := by
  obtain ⟨b, bytes, hbytes, hplain⟩ := hplain
  have hlength := a.atomLength_bytes hrest
  rw [hbytes] at hlength ⊢
  exact wordsFrom_plain hplain hlength

mutual

/-- Every atom of a printed datum is found as a word. -/
theorem wordsFrom_chars (index : PairIndex) (pos : Nat) {rest : List UInt8} (hrest : Ends rest) :
    ∀ s : Sexp, LexScope.wordsFrom index ⟨[]⟩ pos (encode s.datum.chars ++ rest) =
      s.words pos ++ LexScope.wordsFrom index ⟨[]⟩ (pos + s.size) rest
  | word w => by
    rw [size, words, datum, Datum.size, Datum.chars]
    exact wordsFrom_atom (a := .word w) (Atom.bytes_cases_of_plain w.nonempty w.plain) hrest
  | number n => by
    rw [size, words, datum, Datum.size, Datum.chars]
    exact wordsFrom_atom (a := .number n)
      (Atom.bytes_cases_of_plain Nat.toDigits_ne_nil fun _ => isPlain_of_mem_digits) hrest
  | list items => by
    have hclosing : Ends (Byte.closing :: rest) := .cons (by decide)
    have hend : pos + 1 + width items + 1 = pos + (list items).size := by
      rw [size_list]
      omega
    rw [words, datum, Datum.encode_list]
    simp only [List.map_nil, encode, List.flatMap_nil, List.nil_append, List.cons_append,
      List.append_assoc]
    rw [wordsFrom_delimiter (by decide)]
    cases items with
    | nil =>
      rw [data, Datum.charsFrom, List.flatMap_nil, List.nil_append, wordsFrom,
        wordsFrom_delimiter (by decide), List.nil_append]
      rfl
    | cons s items =>
      have hs := wordsFrom_chars index (pos + 1)
        (Datum.ends_charsFrom .space (fun _ => .space) (data items) hclosing) s
      have hitems := wordsFrom_charsFrom index (pos + 1 + s.size) hclosing items
      rw [← encode, data, Datum.charsFrom, Gap.lead, List.nil_append, encode_append,
        List.append_assoc, hs, hitems, wordsFrom_delimiter (by decide), wordsFrom,
        List.append_assoc, ← hend, width]
      simp only [Nat.add_assoc]

/-- Every atom of printed neighbours is found as a word. -/
theorem wordsFrom_charsFrom (index : PairIndex) (pos : Nat) {rest : List UInt8}
    (hrest : Ends rest) : ∀ items : List Sexp,
      LexScope.wordsFrom index ⟨[]⟩ pos
          (encode (Datum.charsFrom (some .space) (fun _ => .space) (data items)) ++ rest) =
        wordsFrom (pos + 1) items ++
          LexScope.wordsFrom index ⟨[]⟩ (pos + tailWidth items) rest
  | [] => by
    rw [data, Datum.charsFrom, wordsFrom]
    rfl
  | s :: items => by
    have hs := wordsFrom_chars index (pos + 1)
      (Datum.ends_charsFrom .space (fun _ => .space) (data items) hrest) s
    have hitems := wordsFrom_charsFrom index (pos + 1 + s.size) hrest items
    have hlead : encode (Gap.lead (some .space)) = [32] := by decide
    rw [data, Datum.charsFrom, encode_append, encode_append, List.append_assoc, List.append_assoc,
      hlead, List.singleton_append, wordsFrom_delimiter (by decide), hs, hitems, wordsFrom,
      List.append_assoc, tailWidth]
    simp only [Nat.add_assoc]

end

end Words

/-! ## Documents -/

/-- The text of neighbours. -/
def text (items : List Sexp) : String :=
  String.ofList (Datum.charsFrom none (fun _ => .space) (data items))

/-- The document of neighbours. -/
def document (items : List Sexp) : Source := .ofText (text items)

mutual

private theorem isSome_pair_of_mem_pieces (pos : Nat) {a : Piece} : ∀ s : Sexp,
    a ∈ s.datum.pieces pos → a.pair?.isSome = true
  | word w, h => by simp [datum, Datum.pieces] at h
  | number n, h => by simp [datum, Datum.pieces] at h
  | list items, h => by
    rw [datum, Datum.pieces, piecesFrom_none] at h
    rcases List.mem_cons.1 h with rfl | h
    · rfl
    · exact isSome_pair_of_mem_place _ items h

private theorem isSome_pair_of_mem_place (pos : Nat) {a : Piece} : ∀ items : List Sexp,
    (a ∈ (place pos items).flatMap fun x => x.2.datum.pieces x.1) → a.pair?.isSome = true
  | [], h => by simp [place] at h
  | s :: rest, h => by
    rw [place, List.flatMap_cons, List.mem_append] at h
    rcases h with h | h
    · exact isSome_pair_of_mem_pieces _ s h
    · exact isSome_pair_of_mem_place _ rest h

end

mutual

private theorem marksNothing_of_mem_chars {b : UInt8} : ∀ s : Sexp,
    b ∈ encode s.datum.chars → MarksNothing b
  | word w, h => by
    rw [datum, Datum.chars] at h
    exact marksNothing_of_isPlain (w.plain b h)
  | number n, h => by
    rw [datum, Datum.chars] at h
    exact marksNothing_of_isPlain (isPlain_of_mem_digits h)
  | list items, h => by
    rw [datum, Datum.encode_list, List.map_nil, encode, List.flatMap_nil, List.nil_append] at h
    rcases List.mem_cons.1 h with rfl | h
    · exact ⟨by decide, by decide, by decide⟩
    rcases List.mem_append.1 h with h | h
    · exact marksNothing_of_mem_charsFrom none (fun _ h => by cases h) items h
    · rw [List.mem_singleton.1 h]
      exact ⟨by decide, by decide, by decide⟩

private theorem marksNothing_of_mem_charsFrom {b : UInt8} (lead : Option Gap)
    (hlead : ∀ b ∈ encode (Gap.lead lead), MarksNothing b) : ∀ items : List Sexp,
    b ∈ encode (Datum.charsFrom lead (fun _ => .space) (data items)) → MarksNothing b
  | [], h => by
    rw [data, Datum.charsFrom] at h
    cases h
  | s :: rest, h => by
    rw [data, Datum.charsFrom, encode_append, encode_append] at h
    rcases List.mem_append.1 h with h | h
    · exact hlead b h
    rcases List.mem_append.1 h with h | h
    · exact marksNothing_of_mem_chars s h
    · exact marksNothing_of_mem_charsFrom (some .space) marksNothing_space rest h

end

/-- The pairs of a document are those of its expressions. -/
theorem pairs_document (items : List Sexp) :
    (document items).layout.pairs.pairs = pairsFrom 0 items := by
  have hmade := Datum.madeOf_document (fun _ => .space) (data items)
  rw [piecesFrom_none] at hmade
  exact hmade.pairs.trans List.filterMap_flatMap

private theorem commentsAndStrings_document (items : List Sexp) :
    (document items).layout.commentsAndStrings = ⟨[]⟩ := by
  have hmade := Datum.madeOf_document (fun _ => .space) (data items)
  rw [piecesFrom_none] at hmade
  have hcomments : (document items).layout.comments.spans = [] := by
    refine hmade.comments.trans (List.filterMap_eq_nil_iff.2 fun a ha => ?_)
    have := isSome_pair_of_mem_place 0 items ha
    cases a <;> first | rfl | cases this
  have hstrings : (document items).layout.strings.spans = [] := by
    refine hmade.strings.trans (List.filterMap_eq_nil_iff.2 fun a ha => ?_)
    have := isSome_pair_of_mem_place 0 items ha
    cases a <;> first | rfl | cases this
  rw [Layout.commentsAndStrings, SpanSet.union, hcomments, hstrings]
  exact SpanSet.ofList_nil

/-- In a document of words, numbers and lists no marker has data. -/
theorem dataOf_document (items : List Sexp) (chosen : Marker → Bool) :
    (document items).layout.dataOf chosen = ⟨[]⟩ := by
  refine Layout.dataOf_of_unmarked (Layout.markers_ofBytes fun b hb => ?_) chosen
  have hbytes := Datum.bytes_document (fun _ => .space) (data items)
  exact marksNothing_of_mem_charsFrom none (by simp [Gap.lead, encode]) items (hbytes ▸ hb)

/-- Nothing of the document is left out. -/
theorem excluded_document (items : List Sexp) (mode : Mode) :
    (document items).layout.excluded mode = ⟨[]⟩ := by
  rw [Layout.excluded, dataOf_document, commentsAndStrings_document]
  split
  · exact SpanSet.ofList_nil
  · rfl

/-- The words of the document are its atoms. -/
theorem words_document (items : List Sexp) : (document items).words = wordsFrom 0 items := by
  have hbytes : (document items).bytes =
      encode (Datum.charsFrom none (fun _ => .space) (data items)) :=
    Datum.bytes_document (fun _ => .space) (data items)
  rw [Source.words, commentsAndStrings_document, hbytes]
  generalize (document items).layout.pairs = index
  cases items with
  | nil =>
    rw [wordsFrom, data, Datum.charsFrom]
    exact LexScope.wordsFrom.eq_1 _ _ _
  | cons s rest =>
    have hs := wordsFrom_chars index 0
      (Datum.ends_charsFrom .space (fun _ => .space) (data rest) Ends.nil) s
    have hrest := wordsFrom_charsFrom index (0 + s.size) Ends.nil rest
    rw [List.append_nil] at hs hrest
    rw [data, Datum.charsFrom, Gap.lead, List.nil_append, encode_append, hs, hrest,
      LexScope.wordsFrom.eq_1, List.append_nil, wordsFrom]

/-- Every item is printed where it stands. -/
theorem at_document (items : List Sexp) :
    ∀ x ∈ place 0 items, At (document items) x.1 x.2 := by
  have hprinted := Datum.printedFrom_document (fun _ => .space) (data items)
  have hindex : (document items).layout.pairs.pairs = [] ++ (pairsFrom 0 items ++ []) := by
    rw [List.nil_append, List.append_nil]
    exact pairs_document items
  exact at_of_mem_place (printedAt_of_mem_place hprinted) hindex (by simp) (by simp)

end Sexp

end LexScope
