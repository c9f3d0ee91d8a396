import LexScope.Proofs.Form.Pairing

/-!
# More text at the end

A lexeme is decided by the bytes from its start on, and most are decided by the bytes they take.
What looks further ahead, or is still open at the end of the text, takes all of the text that is
left, and takes it too when more text follows. So the brackets of a text are read again, in the same
order, as the first brackets of any longer text, and pairs that are closed stay as they are.
-/

namespace LexScope

open Byte Utf8

/-! ## Lengths when more text follows -/

/-- Of a text of `length` bytes, `n` are taken by itself and `n'` when more text follows. Either the
two agree and stay inside the text, or both reach its end. -/
def Outlasts (length n n' : Nat) : Prop := (n' = n ∧ n ≤ length) ∨ (length ≤ n ∧ length ≤ n')

private theorem Outlasts.add {length n n' : Nat} (h : Outlasts length n n') (k : Nat) :
    Outlasts (length + k) (n + k) (n' + k) := by
  unfold Outlasts at h ⊢
  omega

variable (tail : List UInt8)

private theorem getD_map_add (o : Option Nat) (length k : Nat) :
    (o.map (· + k)).getD (length + k) = o.getD length + k := by
  cases o <;> rfl

/-- What is closed by a mark, or never. -/
theorem outlasts_closing? (mark : UInt8) (bytes : List UInt8) :
    Outlasts bytes.length ((closing? mark bytes).getD bytes.length)
      ((closing? mark (bytes ++ tail)).getD (bytes ++ tail).length) := by
  fun_induction closing? mark bytes with
  | case1 => exact .inr ⟨Nat.le_refl _, Nat.zero_le _⟩
  | case2 b hb =>
    left
    cases tail <;> simp [closing?, hb]
  | case3 b hb =>
    refine .inr ⟨Nat.le_refl _, ?_⟩
    cases hn : closing? mark ([b] ++ tail) with
    | none => simp
    | some n =>
      obtain ⟨k, rfl, -⟩ := closing?_spec hn
      simp
  | case4 b c rest hb => simp [closing?, hb, Outlasts]
  | case5 b c rest hb hescape ih =>
    simp only [List.cons_append, closing?, hb, hescape, Bool.false_eq_true, if_false, if_true,
      List.length_cons, Nat.add_assoc, getD_map_add]
    exact ih.add 2
  | case6 b c rest hb hescape ih =>
    simp only [List.cons_append, closing?, hb, hescape, Bool.false_eq_true, if_false,
      List.length_cons (a := b), getD_map_add]
    exact ih.add 1

/-- A block comment, closed or not. -/
theorem outlasts_blockEnd? (depth : Nat) (bytes : List UInt8) :
    Outlasts bytes.length ((blockEnd? depth bytes).getD bytes.length)
      ((blockEnd? depth (bytes ++ tail)).getD (bytes ++ tail).length) := by
  fun_induction blockEnd? depth bytes with
  | case1 a b rest hend => simp [blockEnd?, hend, Outlasts]
  | case2 a b rest hend depth ih =>
    simp only [List.cons_append, blockEnd?, hend, if_true, List.length_cons, Nat.add_assoc,
      getD_map_add]
    exact ih.add 2
  | case3 depth a b rest hend hstart ih =>
    simp only [List.cons_append, blockEnd?, hend, hstart, if_true, Bool.false_eq_true, if_false,
      List.length_cons, Nat.add_assoc, getD_map_add]
    exact ih.add 2
  | case4 depth a b rest hend hstart ih =>
    simp only [List.cons_append, blockEnd?, hend, hstart, Bool.false_eq_true, if_false,
      List.length_cons (a := a), getD_map_add]
    exact ih.add 1
  | case5 bytes depth hshort =>
    refine .inr ⟨Nat.le_refl _, ?_⟩
    cases hn : blockEnd? depth (bytes ++ tail) with
    | none => simp
    | some n =>
      obtain ⟨k, rfl, -⟩ := blockEnd?_spec hn
      rcases bytes with _ | ⟨a, _ | ⟨b, rest⟩⟩
      · exact Nat.zero_le _
      · simp
      · exact absurd rfl (hshort a b rest)

/-- A comment of one line. -/
theorem outlasts_takeWhile (p : UInt8 → Bool) (bytes : List UInt8) :
    Outlasts bytes.length (bytes.takeWhile p).length ((bytes ++ tail).takeWhile p).length := by
  induction bytes with
  | nil => exact .inr ⟨Nat.le_refl _, Nat.zero_le _⟩
  | cons b rest ih =>
    cases hb : p b with
    | true => simpa [List.takeWhile_cons, hb] using ih.add 1
    | false => simp [hb, Outlasts]

private theorem outlasts_plainAtomLength (inBars : Bool) (bytes : List UInt8) :
    Outlasts bytes.length (plainAtomLength inBars bytes)
      (plainAtomLength inBars (bytes ++ tail)) := by
  fun_induction plainAtomLength inBars bytes with
  | case1 => exact .inr ⟨Nat.le_refl _, Nat.zero_le _⟩
  | case2 inBars b hb =>
    simp only [Bool.and_eq_true, bne_iff_ne, ne_eq, Bool.not_eq_true'] at hb
    obtain ⟨⟨hbackslash, rfl⟩, hdelimiter⟩ := hb
    have hbar : b ≠ bar := by
      rintro rfl
      exact absurd hdelimiter (by decide)
    left
    cases tail <;> simp [plainAtomLength, hbackslash, hbar, hdelimiter]
  | case3 inBars b hb =>
    right
    refine ⟨by simp, ?_⟩
    cases tail with
    | nil => simp [plainAtomLength, hb]
    | cons c rest =>
      simp only [List.cons_append, List.nil_append, plainAtomLength, List.length_singleton]
      split
      · omega
      split
      · omega
      split
      · next hbackslash _ hdelimiter => simp_all
      · omega
  | case4 inBars b c rest hb ih =>
    simp only [List.cons_append, plainAtomLength, hb, if_true, List.length_cons, Nat.add_comm 2]
    exact ih.add 2
  | case5 inBars b c rest hb hbar ih =>
    simp only [List.cons_append, plainAtomLength, hb, hbar, if_true, Bool.false_eq_true, if_false,
      List.length_cons, Nat.add_comm 1]
    exact ih.add 1
  | case6 inBars b c rest hb hbar hdelimiter =>
    simp only [List.cons_append, plainAtomLength, hb, hbar, hdelimiter, if_true,
      Bool.false_eq_true, if_false]
    exact .inl ⟨rfl, Nat.zero_le _⟩
  | case7 inBars b c rest hb hbar hdelimiter ih =>
    simp only [List.cons_append, plainAtomLength, hb, hbar, hdelimiter, Bool.false_eq_true,
      if_false, List.length_cons, Nat.add_comm 1]
    exact ih.add 1

/-- The atom at the start of some bytes. -/
theorem outlasts_atomLength (bytes : List UInt8) :
    Outlasts bytes.length (atomLength bytes) (atomLength (bytes ++ tail)) := by
  fun_cases atomLength bytes with
  | case1 a b hliteral =>
    right
    cases tail with
    | nil => simp [atomLength, hliteral]
    | cons c rest =>
      simp only [List.cons_append, List.nil_append, atomLength, hliteral, if_true,
        List.length_cons, List.length_nil]
      omega
  | case2 a b hliteral c rest =>
    simp only [List.cons_append, atomLength, hliteral, if_true, List.length_cons,
      Nat.add_comm 3]
    exact (outlasts_plainAtomLength tail false rest).add 3
  | case3 a b rest hliteral =>
    simp only [List.cons_append, atomLength, hliteral, Bool.false_eq_true, if_false]
    exact outlasts_plainAtomLength tail false (a :: b :: rest)
  | case4 bytes hshort =>
    rcases bytes with _ | ⟨a, _ | ⟨b, rest⟩⟩
    · exact .inr ⟨Nat.le_refl _, Nat.zero_le _⟩
    · cases tail with
      | nil => exact outlasts_plainAtomLength [] false [a]
      | cons b rest =>
        have hplain := outlasts_plainAtomLength (b :: rest) false [a]
        simp only [List.cons_append, List.nil_append, atomLength]
        split
        · next hliteral =>
          -- The number sign alone is an atom of one byte, which becomes part of a longer one.
          simp only [Bool.and_eq_true, beq_iff_eq] at hliteral
          obtain ⟨rfl, rfl⟩ := hliteral
          right
          refine ⟨by decide, ?_⟩
          split
          · simp
          · simp only [List.length_singleton]
            omega
        · exact hplain
    · exact absurd rfl (hshort a b rest)

/-! ## Lexemes when more text follows -/

/-- Only a bracket is read as a bracket, and then by itself. -/
theorem LexemeKind.read_of_isBracket {b : UInt8} {rest : List UInt8}
    (h : (LexemeKind.read b rest).1.isBracket = true) :
    b = Byte.opening ∨ b = Byte.closing := by
  revert h
  fun_cases LexemeKind.read b rest
  case case13 hb => exact fun _ => .inl (eq_of_beq hb)
  case case14 hb => exact fun _ => .inr (eq_of_beq hb)
  all_goals simp [isBracket]

/-- What starts with a number sign: a block comment, a character, or the sign alone. -/
theorem LexemeKind.outlasts_read_hash (rest : List UInt8) :
    Outlasts rest.length (LexemeKind.read hash rest).2
      (LexemeKind.read hash (rest ++ tail)).2 := by
  cases rest with
  | nil => exact .inr ⟨Nat.zero_le _, Nat.zero_le _⟩
  | cons c rest =>
    have hblock (bytes : List UInt8) :
        (upTo comment unclosedComment (1 + ·) (c :: bytes).length (blockEnd? 0 bytes)).2 =
          (blockEnd? 0 bytes).getD bytes.length + 1 := by
      cases blockEnd? 0 bytes <;> simp [upTo, Nat.add_comm]
    rw [List.cons_append, read_hash, read_hash]
    by_cases hbar : (c == bar) = true
    · rw [if_pos hbar, if_pos hbar, hblock, hblock]
      exact (outlasts_blockEnd? tail 0 rest).add 1
    rw [if_neg hbar, if_neg hbar]
    by_cases hbackslash : (c == backslash) = true
    · rw [if_pos hbackslash, if_pos hbackslash]
      have := outlasts_atomLength tail (hash :: c :: rest)
      simp only [Outlasts, List.cons_append, List.length_cons] at this ⊢
      omega
    rw [if_neg hbackslash, if_neg hbackslash]
    split <;> simp [Outlasts]

/-- A lexeme takes the same bytes when more text follows, or it takes all that is left. -/
theorem LexemeKind.outlasts_read (b : UInt8) (rest : List UInt8) :
    Outlasts rest.length (LexemeKind.read b rest).2 (LexemeKind.read b (rest ++ tail)).2 := by
  have hclosing (mark : UInt8) (closed unclosed : LexemeKind) (bytes : List UInt8) :
      (upTo closed unclosed id bytes.length (closing? mark bytes)).2 =
        (closing? mark bytes).getD bytes.length := by
    cases closing? mark bytes <;> rfl
  have hsame (n : Nat) : Outlasts rest.length n n := by
    unfold Outlasts
    omega
  rcases Byte.plain_or_shapes b with h | rfl | rfl | rfl | rfl | rfl | rfl | rfl | rfl | rfl | rfl
  · rw [LexemeKind.read_plain h, LexemeKind.read_plain h]
    exact hsame 0
  · exact outlasts_takeWhile tail _ rest
  · rw [read_doubleQuote, read_doubleQuote, hclosing, hclosing]
    exact outlasts_closing? tail doubleQuote rest
  · exact outlasts_read_hash tail rest
  · rw [read_bar_eq, read_bar_eq, hclosing, hclosing]
    exact outlasts_closing? tail bar rest
  · exact hsame 1
  · exact hsame 0
  · exact hsame 0
  · exact hsame 0
  · exact hsame 0
  · cases rest with
    | nil => exact .inr ⟨Nat.zero_le _, Nat.zero_le _⟩
    | cons c rest =>
      rw [List.cons_append, read_comma, read_comma]
      split <;> simp [Outlasts]

/-- A bracket is read in the same way whatever follows. -/
theorem LexemeKind.read_eq_of_isBracket {b : UInt8} {rest : List UInt8}
    (h : (LexemeKind.read b rest).1.isBracket = true) (rest' : List UInt8) :
    LexemeKind.read b rest' = ((LexemeKind.read b rest).1, 0) := by
  rcases LexemeKind.read_of_isBracket h with rfl | rfl <;> rfl

/-- The brackets among some lexemes. -/
def bracketsOf (ls : List Lexeme) : List Lexeme := ls.filter (·.kind.isBracket)

private theorem bracketsOf_cons (l : Lexeme) (ls : List Lexeme) :
    bracketsOf (l :: ls) = bracketsOf [l] ++ bracketsOf ls := by
  rw [bracketsOf, ← List.singleton_append, List.filter_append]
  rfl

/-- When more text follows, a lexeme takes the same bytes and is the same bracket, or it is no
bracket and takes all that is left. -/
theorem LexemeKind.read_append_cases (b : UInt8) (rest : List UInt8) :
    ((LexemeKind.read b (rest ++ tail)).2 = (LexemeKind.read b rest).2 ∧
      (LexemeKind.read b rest).2 ≤ rest.length ∧
      ∀ s, bracketsOf [⟨(LexemeKind.read b (rest ++ tail)).1, s⟩] =
        bracketsOf [⟨(LexemeKind.read b rest).1, s⟩]) ∨
    (rest.length ≤ (LexemeKind.read b rest).2 ∧
      rest.length ≤ (LexemeKind.read b (rest ++ tail)).2 ∧
      (LexemeKind.read b rest).1.isBracket = false ∧
      (LexemeKind.read b (rest ++ tail)).1.isBracket = false) := by
  cases hbracket : (LexemeKind.read b rest).1.isBracket with
  | true =>
    rw [LexemeKind.read_eq_of_isBracket hbracket (rest ++ tail)]
    have hself := LexemeKind.read_eq_of_isBracket hbracket rest
    exact .inl ⟨(congrArg Prod.snd hself).symm, by rw [hself]; exact Nat.zero_le _, fun _ => rfl⟩
  | false =>
    have hother : (LexemeKind.read b (rest ++ tail)).1.isBracket = false := by
      rw [Bool.eq_false_iff]
      intro htail
      have hrest := LexemeKind.read_eq_of_isBracket htail rest
      rw [hrest, htail] at hbracket
      cases hbracket
    rcases LexemeKind.outlasts_read tail b rest with ⟨hsame, hle⟩ | ⟨hle, hle'⟩
    · exact .inl ⟨hsame, hle, fun _ => by simp [bracketsOf, hbracket, hother]⟩
    · exact .inr ⟨hle, hle', rfl, hother⟩

/-- Text at the end adds brackets after those that were there. -/
theorem bracketsOf_lexemesFrom_append (pos : Nat) (bytes : List UInt8) :
    ∃ later, bracketsOf (lexemesFrom pos (bytes ++ tail)) =
        bracketsOf (lexemesFrom pos bytes) ++ later ∧
      ∀ l ∈ later, pos + bytes.length ≤ l.span.start := by
  fun_induction lexemesFrom pos bytes with
  | case1 pos =>
    refine ⟨bracketsOf (lexemesFrom pos tail), rfl, fun l hl => ?_⟩
    exact (Lexeme.inOrder_lexemesFrom pos tail).2 l (List.mem_filter.1 hl).1
  | case2 pos b rest kind more hread width ih =>
    have hcases := LexemeKind.read_append_cases tail b rest
    rw [List.cons_append, lexemesFrom]
    generalize LexemeKind.read b (rest ++ tail) = read' at hcases
    obtain ⟨kind', more'⟩ := read'
    rw [hread] at hcases
    simp only at hcases ⊢
    rcases hcases with ⟨rfl, hle, hkind⟩ | ⟨hle, hle', hbracket, hbracket'⟩
    · obtain ⟨later, hlater, hstart⟩ := ih
      have hwidth : 1 + min more' (rest ++ tail).length = width := by
        simp only [List.length_append, width]
        omega
      refine ⟨later, ?_, fun l hl => ?_⟩
      · rw [hwidth, List.drop_append_of_le_length hle, bracketsOf_cons, hkind, hlater,
          ← List.append_assoc, ← bracketsOf_cons]
      · have := hstart l hl
        simp only [List.length_drop, List.length_cons, width] at this ⊢
        omega
    · -- The last lexeme of the text reaches its end, and so does the one that stands there now.
      refine ⟨bracketsOf (lexemesFrom (pos + (1 + min more' (rest ++ tail).length))
        ((rest ++ tail).drop more')), ?_, fun l hl => ?_⟩
      · rw [List.drop_eq_nil_of_le hle, lexemesFrom, bracketsOf_cons]
        simp [bracketsOf, hbracket, hbracket']
      · have hstart := (Lexeme.inOrder_lexemesFrom _ _).2 l (List.mem_filter.1 hl).1
        simp only [List.length_append, List.length_cons] at hstart ⊢
        omega

/-! ## Pairs when more text follows -/

namespace LayoutState

variable {st st' : LayoutState}

/-- Pairs and open brackets depend on brackets only. -/
theorem foldl_bracketsOf (ls : List Lexeme) (hstack : st.stack = st'.stack)
    (hpairs : st.pairs = st'.pairs) :
    (ls.foldl step st).stack = ((bracketsOf ls).foldl step st').stack ∧
      (ls.foldl step st).pairs = ((bracketsOf ls).foldl step st').pairs := by
  induction ls generalizing st st' with
  | nil => exact ⟨hstack, hpairs⟩
  | cons l rest ih =>
    rw [List.foldl_cons]
    cases hbracket : l.kind.isBracket with
    | false =>
      obtain ⟨hstepStack, hstepPairs⟩ := step_of_not_isBracket st hbracket
      simpa [bracketsOf, hbracket] using
        ih (hstepStack.trans hstack) (hstepPairs.trans hpairs)
    | true =>
      have hstep : (st.step l).stack = (st'.step l).stack ∧
          (st.step l).pairs = (st'.step l).pairs := by
        cases hkind : l.kind <;>
          simp only [hkind, LexemeKind.isBracket, Bool.false_eq_true] at hbracket
        case opening => simp [LayoutState.step, hkind, hstack, hpairs]
        case closing =>
          simp only [LayoutState.step, hkind, LayoutState.close, hstack]
          split <;> simp [*]
      simpa [bracketsOf, hbracket] using ih hstep.1 hstep.2

/-- Later brackets only add pairs that close later. -/
theorem pairs_foldl_later (st : LayoutState) {bound : Nat} {later : List Lexeme}
    (hlater : ∀ l ∈ later, bound ≤ l.span.start) :
    ∃ added, (later.foldl step st).pairs = added ++ st.pairs ∧
      ∀ p ∈ added, bound ≤ p.closing := by
  induction later generalizing st with
  | nil => exact ⟨[], rfl, by simp⟩
  | cons l rest ih =>
    obtain ⟨hl, hrest⟩ := List.forall_mem_cons.1 hlater
    obtain ⟨added, hadded, hclosing⟩ := ih (st.step l) hrest
    have hstep : (st.step l).pairs = st.pairs ∨
        ∃ opened, (st.step l).pairs = ⟨opened, l.span.start⟩ :: st.pairs := by
      unfold LayoutState.step
      split <;> try exact .inl rfl
      unfold LayoutState.close
      split
      · exact .inl rfl
      · exact .inr ⟨_, rfl⟩
    rw [List.foldl_cons]
    rcases hstep with hstep | ⟨opened, hstep⟩
    · exact ⟨added, by rw [hadded, hstep], hclosing⟩
    · refine ⟨added ++ [⟨opened, l.span.start⟩], by rw [hadded, hstep]; simp, ?_⟩
      intro p hp
      rcases List.mem_append.1 hp with hp | hp
      · exact hclosing p hp
      · rw [List.mem_singleton.1 hp]
        exact hl

end LayoutState

/-- Leaving pairs out and sorting can be done in either order. -/
theorem PairIndex.pairs_ofPairs_filter (keep : Pair → Bool) (pairs : List Pair) :
    (ofPairs (pairs.filter keep)).pairs = (ofPairs pairs).pairs.filter keep := by
  have htrans : ∀ a b c : Pair, a.atMost b = true → b.atMost c = true → a.atMost c = true := by
    intro a b c
    simp [Pair.atMost]
    omega
  have htotal : ∀ a b : Pair, (a.atMost b || b.atMost a) = true := by
    intro a b
    simp [Pair.atMost]
    omega
  rw [pairs_ofPairs, pairs_ofPairs]
  apply mergeSort_eq_of_perm htrans htotal
  · intro a b
    cases a
    cases b
    simp [Pair.atMost]
    omega
  · exact (List.mergeSort_perm pairs _).filter keep
  · exact (List.pairwise_mergeSort htrans htotal pairs).filter keep

private theorem Layout.pairs_ofBytes_append (bytes : List UInt8)
    (hclosing : ∀ p ∈ ((lexemes bytes).foldl LayoutState.step {}).pairs,
      p.closing < bytes.length) :
    (Layout.ofBytes bytes).pairs.pairs =
      (Layout.ofBytes (bytes ++ tail)).pairs.pairs.filter fun p =>
        decide (p.closing < bytes.length) := by
  obtain ⟨later, hbrackets, hlater⟩ := bracketsOf_lexemesFrom_append tail 0 bytes
  obtain ⟨added, hadded, hbound⟩ := LayoutState.pairs_foldl_later
    ((bracketsOf (lexemes bytes)).foldl LayoutState.step {}) hlater
  have hbracketsOnly (ls : List Lexeme) :
      (ls.foldl LayoutState.step {}).pairs = ((bracketsOf ls).foldl LayoutState.step {}).pairs :=
    (LayoutState.foldl_bracketsOf ls rfl rfl).2
  have hlong : ((lexemes (bytes ++ tail)).foldl LayoutState.step {}).pairs =
      added ++ ((lexemes bytes).foldl LayoutState.step {}).pairs := by
    rw [hbracketsOnly, lexemes, hbrackets, List.foldl_append, hbracketsOnly, ← hadded]
    rfl
  have hfilter : (added ++ ((lexemes bytes).foldl LayoutState.step {}).pairs).filter
      (fun p => decide (p.closing < bytes.length)) =
        ((lexemes bytes).foldl LayoutState.step {}).pairs := by
    rw [List.filter_append, List.filter_eq_nil_iff.2, List.nil_append, List.filter_eq_self]
    · simpa using hclosing
    · intro p hp
      have := hbound p hp
      simp only [decide_eq_true_eq]
      omega
  simp only [Layout.ofBytes, LayoutState.finish]
  rw [hlong, ← PairIndex.pairs_ofPairs_filter, hfilter]

/-- The pairs of a text are those pairs of any longer text that close inside it. -/
theorem Layout.pairs_ofText_append (t u : String) :
    (Source.ofText t).layout.pairs.pairs =
      (Source.ofText (t ++ u)).layout.pairs.pairs.filter fun p =>
        decide (p.closing < t.utf8ByteSize) := by
  have hsits := (sound_ofBytes (clean_bytes t)).pairs
  simp only [Source.ofText, bytes_append, ← length_bytes]
  apply Layout.pairs_ofBytes_append
  intro p hp
  have hmem : p ∈ (Layout.ofBytes (bytes t)).pairs.pairs := by
    simpa [Layout.ofBytes, LayoutState.finish] using hp
  exact (List.getElem?_eq_some_iff.1 (hsits p hmem).closing).1

end LexScope
