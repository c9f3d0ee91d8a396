import LexScope.Proofs.Form.Reading

/-!
# Symbols keep apart

A word ends at a delimiter, inside a comment or a string, or with the text, and none of these starts
another word. So words come in order, none is empty, and each ends strictly before the next one
starts. Symbols are words, and inherit this.
-/

namespace LexScope

open Byte

section Words

variable {pairs : PairIndex} {skip : SpanSet} {pos : Nat} {bytes : List UInt8}

/-- Words are found from the given offset on. -/
theorem pos_le_of_mem_wordsFrom {word : Span × List UInt8}
    (h : word ∈ wordsFrom pairs skip pos bytes) : pos ≤ word.1.start := by
  fun_induction wordsFrom pairs skip pos bytes with
  | case1 => cases h
  | case2 pos b rest s hskip ih =>
    have := ih h
    omega
  | case3 pos b rest hskip hb ih =>
    have := ih h
    omega
  | case4 pos b rest hskip hb hhash more ih =>
    have := ih h
    omega
  | case5 pos b rest hskip hb hhash length ih =>
    rcases List.mem_cons.1 h with rfl | h
    · exact Nat.le_refl _
    · have := ih h
      omega

/-- No word starts at a delimiter. -/
theorem pos_lt_of_mem_wordsFrom {b : UInt8} {rest : List UInt8} (hb : isDelimiter b = true)
    {word : Span × List UInt8} (h : word ∈ wordsFrom pairs skip pos (b :: rest)) :
    pos < word.1.start := by
  rw [wordsFrom] at h
  split at h
  · have := pos_le_of_mem_wordsFrom h
    omega
  · rw [if_pos hb] at h
    exact pos_le_of_mem_wordsFrom h

/-- What follows an atom holds no word that touches it. -/
theorem atomLength_lt_of_mem_wordsFrom {b : UInt8} {rest : List UInt8}
    (hb : isDelimiter b = false) {word : Span × List UInt8}
    (h : word ∈ wordsFrom pairs skip (pos + atomLength (b :: rest))
      (rest.drop (atomLength (b :: rest) - 1))) :
    pos + atomLength (b :: rest) < word.1.start := by
  have hone : 1 ≤ atomLength (b :: rest) := one_le_atomLength hb
  have hdrop : rest.drop (atomLength (b :: rest) - 1) =
      (b :: rest).drop (atomLength (b :: rest)) := by
    rw [← List.drop_succ_cons (a := b), Nat.sub_add_cancel hone]
  rw [hdrop] at h
  rcases atomLength_spec (b :: rest) with hlen | ⟨d, hget, hd⟩
  · rw [hlen, List.drop_length, wordsFrom] at h
    cases h
  · obtain ⟨hlt, heq⟩ := List.getElem?_eq_some_iff.1 hget
    rw [List.drop_eq_getElem_cons hlt, heq] at h
    exact pos_lt_of_mem_wordsFrom hd h

/-- Words are not empty, and each ends strictly before the next one starts. -/
theorem separated_wordsFrom (pairs : PairIndex) (skip : SpanSet) (pos : Nat)
    (bytes : List UInt8) :
    (∀ word ∈ wordsFrom pairs skip pos bytes, word.1.start < word.1.stop) ∧
      (wordsFrom pairs skip pos bytes).Pairwise fun v w => v.1.stop < w.1.start := by
  fun_induction wordsFrom pairs skip pos bytes with
  | case1 => simp
  | case2 pos b rest s hskip ih => exact ih
  | case3 pos b rest hskip hb ih => exact ih
  | case4 pos b rest hskip hb hhash more ih => exact ih
  | case5 pos b rest hskip hb hhash length ih =>
    have hb : isDelimiter b = false := by simpa using hb
    have hone : 1 ≤ length := one_le_atomLength hb
    have hnext : max (pos + length) (pos + 1) = pos + length := by omega
    rw [hnext] at ih ⊢
    refine ⟨List.forall_mem_cons.2 ⟨by simp only; omega, ih.1⟩, ?_⟩
    exact List.pairwise_cons.2 ⟨fun w hw => atomLength_lt_of_mem_wordsFrom hb hw, ih.2⟩

end Words

/-- A symbol has the name that its word spells, and stands where its word stands. -/
theorem Symbol.eq_of_ofWord {word : Span × List UInt8} {s : Symbol}
    (h : Symbol.ofWord word = some s) :
    s = ⟨lowerCase (String.ofList (Utf8.decode word.2)), word.1⟩ := by
  unfold Symbol.ofWord at h
  simp only at h
  split at h
  · exact (Option.some.inj h).symm
  · cases h

/-- A symbol stands where its word does. -/
theorem Symbol.span_of_ofWord {word : Span × List UInt8} {s : Symbol}
    (h : Symbol.ofWord word = some s) : s.span = word.1 := by
  rw [Symbol.eq_of_ofWord h]

namespace Source

variable (src : Source)

/-- No symbol is empty. -/
theorem start_lt_stop_of_mem_symbols {src : Source} {s : Symbol} (h : s ∈ src.symbols) :
    s.span.start < s.span.stop := by
  obtain ⟨word, hword, hsymbol⟩ := List.mem_filterMap.1 h
  rw [Symbol.span_of_ofWord hsymbol]
  exact (separated_wordsFrom _ _ _ _).1 word hword

/-- Each symbol ends strictly before the next one starts. -/
theorem pairwise_symbols : src.symbols.Pairwise fun s t => s.span.stop < t.span.start := by
  refine List.Pairwise.filterMap _ ?_ (separated_wordsFrom _ _ 0 src.bytes).2
  intro v w hvw s hs t ht
  rw [Symbol.span_of_ofWord hs, Symbol.span_of_ofWord ht]
  exact hvw

end Source

end LexScope
