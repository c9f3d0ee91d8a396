import LexScope.Proofs.Form.Agreement
import LexScope.Proofs.Text.Decoding

/-!
# Words and atoms that overlap

The words of a text and the atoms of its forms are found by different readers, which may start
differently: a word after a splicing comma starts with the second byte of the comma. But both end
where the chain of lexemes that they take ends, so where they share an offset they end together. Of
two texts with the same end the longer one has another name. A symbol and an atom that overlap and
have the same name therefore stand at the same place.
-/

namespace LexScope

open Byte Utf8

variable {source : List UInt8} {word : Span × List UInt8} {s : Span}

/-! ## Where they end -/

/-- From a seam inside an atom of a form on, there is an atom with the same end. -/
theorem AtomAt.stop_eq_of_isSeam (h : AtomAt source s) (hapart : CommentsApart source)
    {offset : Nat} (hseam : IsSeam source offset) (hoffset : s.contains offset = true) :
    offset + plainAtomLength false (source.drop offset) = s.stop := by
  have hstop := h.stop_eq
  rw [atomLength_eq] at hstop
  rw [Span.contains_iff, hstop] at hoffset
  rw [hstop]
  exact LexScope.stop_eq_of_isSeam hapart h.datum.seam h.datum.comment hseam hoffset.1 hoffset.2

/-- A break that starts inside an atom of a form starts with its last byte. -/
theorem AtomAt.stop_le_of_isBreak (h : AtomAt source s) (hapart : CommentsApart source)
    {l : Lexeme} (hl : l ∈ lexemes source) (hbreak : l.isBreak source = true)
    (hle : s.start ≤ l.span.start) : s.stop ≤ l.span.start + 1 := by
  obtain ⟨last, hjoins, hstop⟩ := h.atomTo hapart
  rw [← Nat.not_lt]
  intro hlt
  have hpart := (hjoins.parts l hl hle (by omega)).1
  rw [hbreak] at hpart
  cases hpart

/-- A word is an atom from a seam on, or one with the second byte of a mark before it. -/
theorem WordAt.exists_seam (h : WordAt source word) (hapart : CommentsApart source) :
    ∃ start, IsSeam source start ∧
      (∀ l ∈ lexemes source, l.span.start = start → l.isBlockComment source = false) ∧
      word.1.stop = start + plainAtomLength false (source.drop start) ∧
      (word.1.start = start ∨ word.1.start + 1 = start ∧
        ∃ l ∈ lexemes source, l.isBreak source = true ∧ l.span.start + 1 = word.1.start ∧
          l.span.stop = start) := by
  obtain ⟨b, rest, hdrop, hb, hhash, hstop⟩ := h.atom
  rw [atomLength_eq] at hstop
  rcases h.synced with hseam | hhalf
  · rw [← hdrop] at hstop
    exact ⟨word.1.start, hseam, not_isBlockComment_of_ne hdrop hhash, hstop, .inl rfl⟩
  · have hmark : b = atSign ∨ b = dot := by
      refine ((hhalf.byte hdrop).resolve_left ?_).1
      rintro rfl
      exact absurd hb (by decide)
    have hsplit : plainAtomLength false (b :: rest) = 1 + plainAtomLength false rest := by
      rcases hmark with rfl | rfl <;>
        exact plainAtomLength_cons (by decide) (by decide) (.inr (by decide))
    obtain ⟨l, hl, hstart, hend, hkind⟩ := hhalf
    obtain ⟨hseparates, hbreak⟩ := Lexeme.breaks_of_mark (hkind.imp_right And.left)
    refine ⟨word.1.start + 1, hend ▸ Lexeme.isSeam_stop hl,
      hend ▸ hapart.not_isBlockComment hl hseparates, ?_, .inr ⟨rfl, l, hl, hbreak, hstart, hend⟩⟩
    rw [drop_succ_of_drop_cons hdrop, hstop, hsplit, Nat.add_assoc]

/-- A word and an atom of a form that share an offset end together. -/
theorem WordAt.stop_eq_of_meets (h : WordAt source word) (hapart : CommentsApart source)
    (hs : AtomAt source s) (hlt : word.1.start < s.stop) (hlt' : s.start < word.1.stop) :
    word.1.stop = s.stop := by
  obtain ⟨start, hseam, hcomment, hstop, hstart⟩ := h.exists_seam hapart
  rw [hstop] at hlt' ⊢
  by_cases hle : start ≤ s.start
  · have hend := LexScope.stop_eq_of_isSeam hapart hseam hcomment hs.datum.seam hle hlt'
    rw [← hend, hs.stop_eq, atomLength_eq]
  · refine hs.stop_eq_of_isSeam hapart hseam (Span.contains_iff.2 ⟨by omega, ?_⟩)
    rcases hstart with rfl | ⟨rfl, l, hl, hbreak, hstart, hend⟩
    · exact hlt
    · -- The atom would end with the first byte of the mark.
      have hbefore := hs.datum.seam.2 l hl
      have := hs.stop_le_of_isBreak hapart hl hbreak (by omega)
      omega

/-! ## Names of what overlaps -/

/-- A symbol has the name that is written where it stands, in lower case. -/
theorem Source.Sound.name_of_mem_symbols {src : Source} (h : src.Sound) {t : Symbol}
    (ht : t ∈ src.symbols) : t.name = lowerCase (src.slice t.span) := by
  obtain ⟨word, hword, hsymbol⟩ := List.mem_filterMap.1 ht
  have hcut := h.words word hword
  unfold cut? at hcut
  split at hcut
  · rw [Symbol.eq_of_ofWord hsymbol, Source.slice, Utf8.slice, Option.some.inj hcut]
  · cases hcut

/-- Two spans with one end and one name are equal. -/
theorem Utf8.Fits.eq_of_name {text : String} {r : Span} (hr : Fits (bytes text) r)
    (hs : Fits (bytes text) s) (hstop : r.stop = s.stop)
    (hname : lowerCase (slice (bytes text) r) = lowerCase (slice (bytes text) s)) : r = s := by
  obtain ⟨a, c⟩ := r
  obtain ⟨b, d⟩ := s
  obtain rfl : c = d := hstop
  rcases Nat.lt_trichotomy a b with hlt | rfl | hlt
  · exact absurd hname
      (lowerCase_slice_ne (.of_le (Nat.le_of_lt hlt) hr.start hs.start) hs hlt)
  · rfl
  · exact absurd hname.symm
      (lowerCase_slice_ne (.of_le (Nat.le_of_lt hlt) hs.start hr.start) hr hlt)

/-- Where block comments stand apart, a symbol and an atom of a form with the same name stand at the
same place if they overlap. -/
theorem Source.span_eq_of_meets {text : String} (hapart : CommentsApart (Utf8.bytes text))
    {t : Symbol} (ht : t ∈ (ofText text).symbols) (hs : AtomAt (Utf8.bytes text) s)
    (hfits : Fits (Utf8.bytes text) s) (hname : t.name = lowerCase ((ofText text).slice s))
    (hmeets : s.meets t.span = true) : s = t.span := by
  obtain ⟨word, hword, hsymbol⟩ := List.mem_filterMap.1 ht
  have hspan := Symbol.span_of_ofWord hsymbol
  have hatom : WordAt (Utf8.bytes text) word :=
    wordAt_of_mem_wordsFrom hapart (.inl (.zero _)) rfl hword
  simp only [Span.meets, Bool.and_eq_true, decide_eq_true_eq, hspan] at hmeets
  have hstop := hatom.stop_eq_of_meets hapart hs hmeets.2 hmeets.1.2
  rw [← hspan] at hstop
  rw [(sound_ofText text).name_of_mem_symbols ht] at hname
  exact hfits.eq_of_name ((sound_ofText text).symbols t ht) hstop.symm hname.symm

end LexScope
