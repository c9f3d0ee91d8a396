import LexScope.Proofs.Form.Pairing
import LexScope.Proofs.Form.Printed

/-!
# Seams between lexemes

Lexemes lie side by side and cover the text. The end of an atom is found without them, byte by byte,
but comes out at the end of a lexeme all the same, or between the two bytes of `#'`: an atom takes
plain lexemes one after the other and stops before the first that is none. Only a block comment
right after a name would be taken for a part of it, so these stand apart in what follows.
-/

namespace LexScope

open Byte

/-! ## Atoms and bars -/

/-- Inside bars an atom goes on to the closing bar. -/
theorem plainAtomLength_of_closing {bytes : List UInt8} {n : Nat}
    (h : closing? bar bytes = some n) :
    plainAtomLength true bytes = n + plainAtomLength false (bytes.drop n) := by
  fun_induction closing? bar bytes generalizing n with
  | case1 => cases h
  | case2 b hb =>
    rw [eq_of_beq hb, ← Option.some.inj h]
    rfl
  | case3 => cases h
  | case4 b c rest hb =>
    rw [eq_of_beq hb, ← Option.some.inj h, plainAtomLength_bar]
    rfl
  | case5 b c rest hb hescape ih =>
    obtain ⟨m, hm, rfl⟩ := Option.map_eq_some_iff.1 h
    rw [plainAtomLength, if_pos hescape, ih hm, List.drop_succ_cons, List.drop_succ_cons]
    omega
  | case6 b c rest hb hescape ih =>
    obtain ⟨m, hm, rfl⟩ := Option.map_eq_some_iff.1 h
    rw [plainAtomLength_cons (by simpa using hescape) (by simpa using hb) (.inl rfl), ih hm,
      List.drop_succ_cons]
    omega

/-- Without a closing bar it takes all that is left. -/
theorem plainAtomLength_of_not_closing {bytes : List UInt8} (h : closing? bar bytes = none) :
    plainAtomLength true bytes = bytes.length := by
  fun_induction closing? bar bytes with
  | case1 => rfl
  | case2 => cases h
  | case3 b hb => simp [plainAtomLength]
  | case4 => cases h
  | case5 b c rest hb hescape ih =>
    rw [plainAtomLength, if_pos hescape, ih (Option.map_eq_none_iff.1 h)]
    simp only [List.length_cons]
    omega
  | case6 b c rest hb hescape ih =>
    rw [plainAtomLength_cons (by simpa using hescape) (by simpa using hb) (.inl rfl),
      ih (Option.map_eq_none_iff.1 h)]
    simp only [List.length_cons]
    omega

/-- A character literal is an atom like others, as its backslash escapes the character. -/
theorem atomLength_eq (bytes : List UInt8) : atomLength bytes = plainAtomLength false bytes := by
  fun_cases atomLength bytes with
  | case1 a b hliteral =>
    simp only [Bool.and_eq_true, beq_iff_eq] at hliteral
    rw [hliteral.1, hliteral.2]
    decide
  | case2 a b hliteral c rest =>
    simp only [Bool.and_eq_true, beq_iff_eq] at hliteral
    rw [hliteral.1, hliteral.2, plainAtomLength_cons (by decide) (by decide) (.inr (by decide)),
      plainAtomLength, if_pos (by decide)]
    omega
  | case3 => rfl
  | case4 => rfl

/-- What follows an atom ends it. -/
theorem ends_drop_atomLength (bytes : List UInt8) : Ends (bytes.drop (atomLength bytes)) := by
  intro b hb
  rw [List.head?_drop] at hb
  rcases atomLength_spec bytes with hlength | ⟨d, hget, hd⟩
  · rw [hlength, List.getElem?_eq_none (Nat.le_refl _)] at hb
    cases hb
  · rw [Option.mem_def, hget] at hb
    rwa [← Option.some.inj hb]

/-- An atom takes all of its first lexeme and goes on after it, unless that is a block comment or
the mark of a function. -/
theorem plainAtomLength_read {b : UInt8} {rest : List UInt8} (hdelimiter : isDelimiter b = false)
    (hcomment : b = hash → rest.head? ≠ some bar) (hmark : b = hash → rest.head? ≠ some quote) :
    ((LexemeKind.read b rest).1 = .plain ∨ (LexemeKind.read b rest).1 = .unclosedName) ∧
      plainAtomLength false (b :: rest) = 1 + min (LexemeKind.read b rest).2 rest.length +
        plainAtomLength false (rest.drop (LexemeKind.read b rest).2) := by
  by_cases hbackslash : b = backslash
  · subst hbackslash
    have hread : LexemeKind.read backslash rest = (.plain, 1) := rfl
    rw [hread]
    refine ⟨.inl rfl, ?_⟩
    cases rest with
    | nil => rfl
    | cons c rest =>
      rw [plainAtomLength, if_pos (by decide), List.drop_succ_cons, List.drop_zero,
        List.length_cons]
      omega
  by_cases hbar : b = bar
  · subst hbar
    rw [LexemeKind.read_bar_eq, plainAtomLength_bar, Bool.not_false]
    cases hclosing : closing? bar rest with
    | none =>
      rw [plainAtomLength_of_not_closing hclosing]
      exact ⟨.inr rfl, by simp [LexemeKind.upTo, plainAtomLength]⟩
    | some n =>
      obtain ⟨k, rfl, hget⟩ := closing?_spec hclosing
      have hlt := (List.getElem?_eq_some_iff.1 hget).1
      rw [plainAtomLength_of_closing hclosing]
      refine ⟨.inl rfl, ?_⟩
      simp only [LexemeKind.upTo, id]
      omega
  by_cases hhash : b = hash
  · subst hhash
    cases rest with
    | nil => exact ⟨.inl rfl, rfl⟩
    | cons c rest =>
      have hc : c ≠ bar ∧ c ≠ quote := ⟨by simpa using hcomment rfl, by simpa using hmark rfl⟩
      by_cases hliteral : c = backslash
      · subst hliteral
        -- The lexeme is the whole atom.
        have hends := ends_drop_atomLength (hash :: backslash :: rest)
        have hle := atomLength_le (hash :: backslash :: rest)
        have hlength := atomLength_eq (hash :: backslash :: rest)
        have hsplit : plainAtomLength false (hash :: backslash :: rest) =
            1 + plainAtomLength false (backslash :: rest) :=
          plainAtomLength_cons hbackslash hbar (.inr hdelimiter)
        have hread : LexemeKind.read hash (backslash :: rest) =
            (.plain, atomLength (hash :: backslash :: rest) - 1) := rfl
        rw [hread]
        refine ⟨.inl rfl, ?_⟩
        obtain ⟨n, hn⟩ : ∃ n, atomLength (hash :: backslash :: rest) = n + 1 :=
          ⟨_, (hlength.trans hsplit).trans (Nat.add_comm _ _)⟩
        rw [hn, List.drop_succ_cons] at hends
        rw [← hlength, hn, Nat.add_sub_cancel, plainAtomLength_of_ends hends]
        simp only [hn, List.length_cons] at hle ⊢
        omega
      · have hread : LexemeKind.read hash (c :: rest) = (.plain, 0) := by
          rw [LexemeKind.read_hash]
          simp [hc, hliteral]
        rw [hread]
        refine ⟨.inl rfl, ?_⟩
        rw [plainAtomLength_cons hbackslash hbar (.inr hdelimiter)]
        rfl
  · rw [LexemeKind.read_plain (.inl (isPlain_iff.2 ⟨hdelimiter, hbackslash, hbar, hhash⟩)),
      plainAtomLength_cons hbackslash hbar (.inr hdelimiter)]
    exact ⟨.inl rfl, rfl⟩

/-! ## Seams -/

section Lexemes

variable {source : List UInt8} {l : Lexeme}

/-- A lexeme is decided by the bytes from its start on. -/
theorem Lexeme.exists_read {pos : Nat} {bytes : List UInt8} (hdrop : source.drop pos = bytes)
    (h : l ∈ lexemesFrom pos bytes) :
    ∃ b rest, source.drop l.span.start = b :: rest ∧ l.kind = (LexemeKind.read b rest).1 ∧
      l.span.stop = l.span.start + 1 + min (LexemeKind.read b rest).2 rest.length := by
  fun_induction lexemesFrom pos bytes with
  | case1 => cases h
  | case2 pos b rest kind more hread width ih =>
    rcases List.mem_cons.1 h with rfl | h
    · refine ⟨b, rest, hdrop, ?_, ?_⟩
      · rw [hread]
      · rw [hread]
        simp only [width]
        omega
    · refine ih ?_ h
      rw [drop_of_drop_cons hdrop (by omega : pos < pos + width), List.drop_eq_drop_iff]
      omega

/-- Every byte belongs to a lexeme. -/
theorem Lexeme.exists_contains {pos offset : Nat} (bytes : List UInt8) (hpos : pos ≤ offset)
    (hlt : offset < pos + bytes.length) :
    ∃ l ∈ lexemesFrom pos bytes, l.span.contains offset = true := by
  fun_induction lexemesFrom pos bytes with
  | case1 =>
    simp only [List.length_nil] at hlt
    omega
  | case2 pos b rest kind more hread width ih =>
    by_cases hhere : offset < pos + width
    · exact ⟨_, List.mem_cons_self, Span.contains_iff.2 ⟨hpos, hhere⟩⟩
    · simp only [List.length_cons] at hlt
      obtain ⟨l, hl, hcontains⟩ := ih (by omega) (by
        simp only [List.length_drop, width]
        omega)
      exact ⟨l, List.mem_cons_of_mem _ hl, hcontains⟩

/-- No lexeme reaches over the offset. -/
def IsSeam (source : List UInt8) (offset : Nat) : Prop :=
  offset ≤ source.length ∧
    ∀ l ∈ lexemes source, ¬(l.span.start < offset ∧ offset < l.span.stop)

namespace IsSeam

variable {pos : Nat}

/-- A source starts at a seam. -/
theorem zero (source : List UInt8) : IsSeam source 0 :=
  ⟨Nat.zero_le _, fun _ _ h => Nat.not_lt_zero _ h.1⟩

/-- At a seam the next lexeme starts. -/
theorem mem (h : IsSeam source pos) {b : UInt8} {rest : List UInt8}
    (hdrop : source.drop pos = b :: rest) :
    ⟨(LexemeKind.read b rest).1, ⟨pos, pos + 1 + min (LexemeKind.read b rest).2 rest.length⟩⟩ ∈
      lexemes source := by
  have hlt := pos_le_of_drop_cons hdrop
  obtain ⟨l, hl, hcontains⟩ := Lexeme.exists_contains source (Nat.zero_le pos) (by omega)
  rw [Span.contains_iff] at hcontains
  have hstart : l.span.start = pos := by
    have := h.2 l hl
    omega
  obtain ⟨b', rest', hdrop', hkind, hstop⟩ := Lexeme.exists_read rfl hl
  rw [hstart, hdrop, List.cons.injEq] at hdrop'
  obtain ⟨rfl, rfl⟩ := hdrop'
  rw [hstart] at hstop
  obtain ⟨kind, start, stop⟩ := l
  simp only at hkind hstart hstop
  rw [← hkind, ← hstop, ← hstart]
  exact hl

/-- The lexeme at a seam, when it is known what is read there. -/
theorem mem_of_read (h : IsSeam source pos) {b : UInt8} {rest : List UInt8}
    (hdrop : source.drop pos = b :: rest) {kind : LexemeKind} {more : Nat}
    (hread : LexemeKind.read b rest = (kind, more)) (hmore : more ≤ rest.length) :
    ⟨kind, ⟨pos, pos + 1 + more⟩⟩ ∈ lexemes source := by
  have hmem := h.mem hdrop
  rwa [hread, Nat.min_eq_left hmore] at hmem

end IsSeam

namespace Lexeme

/-- A lexeme holds its first byte. -/
theorem contains_start (hl : l ∈ lexemes source) : l.span.contains l.span.start = true :=
  Span.contains_iff.2 ⟨Nat.le_refl _, (inOrder_lexemes source).proper l hl⟩

private theorem contains_last (hl : l ∈ lexemes source) :
    l.span.contains (l.span.stop - 1) = true := by
  have hproper := (inOrder_lexemes source).proper l hl
  exact Span.contains_iff.2 ⟨by omega, by omega⟩

/-- Two lexemes that start together are one. -/
theorem eq_of_start {m : Lexeme} (hl : l ∈ lexemes source) (hm : m ∈ lexemes source)
    (h : l.span.start = m.span.start) : l = m :=
  (inOrder_lexemes source).eq_of_contains hl hm (contains_start hl) (h ▸ contains_start hm)

/-- Two lexemes that stop together are one. -/
theorem eq_of_stop {m : Lexeme} (hl : l ∈ lexemes source) (hm : m ∈ lexemes source)
    (h : l.span.stop = m.span.stop) : l = m :=
  (inOrder_lexemes source).eq_of_contains hl hm (contains_last hl) (h ▸ contains_last hm)

/-- A lexeme starts at a seam. -/
theorem isSeam_start (hl : l ∈ lexemes source) : IsSeam source l.span.start := by
  obtain ⟨b, rest, hdrop, -, -⟩ := exists_read rfl hl
  refine ⟨Nat.le_of_lt (pos_le_of_drop_cons hdrop), fun m hm h => ?_⟩
  have heq := (inOrder_lexemes source).eq_of_contains hl hm (contains_start hl)
    (Span.contains_iff.2 ⟨Nat.le_of_lt h.1, h.2⟩)
  rw [heq] at h
  exact Nat.lt_irrefl _ h.1

/-- A lexeme stops at a seam. -/
theorem isSeam_stop (hl : l ∈ lexemes source) : IsSeam source l.span.stop := by
  obtain ⟨b, rest, hdrop, -, hstop⟩ := exists_read rfl hl
  have hlength := length_of_drop hdrop
  have hlt := pos_le_of_drop_cons hdrop
  simp only [List.length_cons] at hlength
  refine ⟨by omega, fun m hm h => ?_⟩
  have heq := (inOrder_lexemes source).eq_of_contains hl hm (contains_last hl)
    (Span.contains_iff.2 ⟨by omega, by omega⟩)
  rw [heq] at h
  exact Nat.lt_irrefl _ h.2

end Lexeme

end Lexemes

/-! ## What a word may start after -/

namespace Lexeme

/-- The lexeme is whitespace. -/
def isBlank (source : List UInt8) (l : Lexeme) : Bool :=
  l.kind == .plain && (source[l.span.start]?).any isWhitespace

/-- The lexeme is the mark `#'` before a function. -/
def isFunctionMark (source : List UInt8) (l : Lexeme) : Bool :=
  l.kind == .plain && source[l.span.start]? == some hash && source[l.span.start + 1]? == some quote

/-- The lexeme is a comment `#| ... |#`. -/
def isBlockComment (source : List UInt8) (l : Lexeme) : Bool :=
  l.kind.isComment && source[l.span.start]? == some hash

/-- The lexeme keeps what comes before it apart from what comes after: it is whitespace, a bracket,
a comment or a string. -/
def separates (source : List UInt8) (l : Lexeme) : Bool :=
  l.isBlank source || l.kind.isBracket || l.kind.isComment || l.kind.isString

/-- The lexeme is one of the quotation markers. -/
def isMarker (l : Lexeme) : Bool :=
  match l.kind with
  | .marker _ _ => true
  | _ => false

/-- A word may start right after the lexeme. After any other, what follows is part of the same
word. -/
def isBreak (source : List UInt8) (l : Lexeme) : Bool :=
  l.separates source || l.isMarker || l.isFunctionMark source

variable {source : List UInt8} {l : Lexeme}

/-- A lexeme that separates is a break. -/
theorem isBreak_of_separates (h : l.separates source = true) : l.isBreak source = true := by
  simp [isBreak, h]

/-- A lexeme that is no break does not separate. -/
theorem separates_eq_false (h : l.isBreak source = false) : l.separates source = false := by
  simp only [isBreak, Bool.or_eq_false_iff] at h
  exact h.1.1

/-- Brackets, comments and strings separate. -/
theorem separates_of_kind
    (h : l.kind.isBracket = true ∨ l.kind.isComment = true ∨ l.kind.isString = true) :
    l.separates source = true := by
  rcases h with h | h | h <;> simp [separates, h]

/-- A lexeme that does not separate is no block comment. -/
theorem isBlockComment_eq_false (h : l.separates source = false) :
    l.isBlockComment source = false := by
  simp only [separates, Bool.or_eq_false_iff] at h
  simp [isBlockComment, h]

end Lexeme

/-- Each block comment stands apart: what comes right before it, if anything, is whitespace, a
bracket, a string or another comment. -/
def CommentsApart (source : List UInt8) : Prop :=
  ∀ a ∈ lexemes source, ∀ c ∈ lexemes source, c.span.start = a.span.stop →
    c.isBlockComment source = true → a.separates source = true

instance (source : List UInt8) : Decidable (CommentsApart source) :=
  inferInstanceAs (Decidable (∀ a ∈ lexemes source, ∀ c ∈ lexemes source,
    c.span.start = a.span.stop → c.isBlockComment source = true → a.separates source = true))

/-- No block comment starts right after what does not keep apart. -/
theorem CommentsApart.not_isBlockComment {source : List UInt8} (hapart : CommentsApart source)
    {l : Lexeme} (hl : l ∈ lexemes source) (hkind : l.separates source = false) :
    ∀ c ∈ lexemes source, c.span.start = l.span.stop → c.isBlockComment source = false := by
  intro c hc hstart
  rw [Bool.eq_false_iff]
  intro hblock
  rw [hapart l hl c hc hstart hblock] at hkind
  cases hkind

/-- Every lexeme that starts from the first offset on and before the second one belongs to a word
and ends no later than the second one. -/
structure Joins (source : List UInt8) (start stop : Nat) : Prop where
  /-- The offsets are in order. -/
  le : start ≤ stop
  /-- No lexeme between them is a break. -/
  parts : ∀ l ∈ lexemes source, start ≤ l.span.start → l.span.start < stop →
    l.isBreak source = false ∧ l.span.stop ≤ stop

/-- Only breaks come right before the offset. -/
def IsFresh (source : List UInt8) (offset : Nat) : Prop :=
  ∀ l ∈ lexemes source, l.span.stop = offset → l.isBreak source = true

/-- An atom from the first offset on ends at the second one: where a chain of lexemes ends, or
inside the mark `#'` after it. -/
def AtomTo (source : List UInt8) (start stop : Nat) : Prop :=
  ∃ last, Joins source start last ∧
    (stop = last ∨ stop = last + 1 ∧
      ∃ l ∈ lexemes source, l.span.start = last ∧ l.isFunctionMark source = true)

namespace Joins

variable {source : List UInt8} {start stop : Nat}

/-- The empty stretch joins. -/
theorem refl (source : List UInt8) (start : Nat) : Joins source start start :=
  ⟨Nat.le_refl _, fun _ _ hle hlt => absurd hle (Nat.not_le.2 hlt)⟩

/-- A stretch that joins may be continued by another. -/
theorem trans {mid : Nat} (h : Joins source start mid) (h' : Joins source mid stop) :
    Joins source start stop := by
  refine ⟨Nat.le_trans h.le h'.le, fun l hl hstart hstop => ?_⟩
  by_cases hmid : l.span.start < mid
  · exact (h.parts l hl hstart hmid).imp_right fun hle => Nat.le_trans hle h'.le
  · exact h'.parts l hl (Nat.le_of_not_lt hmid) hstop

/-- A lexeme that is no break. -/
theorem of_mem {l : Lexeme} (hl : l ∈ lexemes source) (hbreak : l.isBreak source = false) :
    Joins source l.span.start l.span.stop := by
  refine ⟨Nat.le_of_lt ((Lexeme.inOrder_lexemes source).proper l hl), fun m hm hstart hstop => ?_⟩
  have heq : l = m := (Lexeme.inOrder_lexemes source).eq_of_contains hl hm
    (Span.contains_iff.2 ⟨hstart, hstop⟩) (Lexeme.contains_start hm)
  rw [← heq]
  exact ⟨hbreak, Nat.le_refl _⟩

/-- A chain from a seam ends at a seam. -/
theorem isSeam (h : Joins source start stop) (hstart : IsSeam source start)
    (hstop : stop ≤ source.length) : IsSeam source stop := by
  refine ⟨hstop, fun l hl hinside => ?_⟩
  have hle : start ≤ l.span.start := by
    have := hstart.2 l hl
    have := h.le
    omega
  have := (h.parts l hl hle hinside.1).2
  omega

/-- No break lies inside a chain, so no word starts there. -/
theorem not_isFresh (h : Joins source start stop) (hstart : IsSeam source start) {offset : Nat}
    (hoffset : IsSeam source offset) (hlt : start < offset) (hle : offset ≤ stop) :
    ¬IsFresh source offset := by
  intro hfresh
  have hlength := hoffset.1
  obtain ⟨l, hl, hcontains⟩ := Lexeme.exists_contains source (Nat.zero_le (offset - 1))
    (by omega)
  rw [Span.contains_iff] at hcontains
  have hlstop := hoffset.2 l hl
  have hlstart := hstart.2 l hl
  have hbreak := (h.parts l hl (by omega) (by omega)).1
  rw [hfresh l hl (by omega)] at hbreak
  cases hbreak

end Joins

namespace AtomTo

variable {source : List UInt8} {start stop : Nat}

/-- A stretch that joins is read as an atom. -/
theorem of_joins (h : Joins source start stop) : AtomTo source start stop := ⟨stop, h, .inl rfl⟩

/-- A stretch that joins and an atom behind it are read as one atom. -/
theorem trans {mid : Nat} (h : Joins source start mid) (h' : AtomTo source mid stop) :
    AtomTo source start stop := by
  obtain ⟨last, hjoins, hstop⟩ := h'
  exact ⟨last, h.trans hjoins, hstop⟩

end AtomTo

/-! ## Atoms end at seams -/

section Atoms

variable {source : List UInt8} {pos : Nat}

/-- A plain lexeme is no break if its first byte is neither whitespace nor the number sign of a
function mark. -/
theorem Lexeme.isBreak_plain {stop : Nat} {b : UInt8} {rest : List UInt8}
    (hdrop : source.drop pos = b :: rest) (hblank : isWhitespace b = false)
    (hmark : b ≠ hash ∨ rest.head? ≠ some quote) :
    Lexeme.isBreak source ⟨.plain, ⟨pos, stop⟩⟩ = false := by
  have hfirst : source[pos]? = some b := head_of_drop_cons hdrop
  have hsecond : source[pos + 1]? = rest.head? := second_of_drop_cons hdrop
  simp only [isBreak, separates, isBlank, isFunctionMark, isMarker, LexemeKind.isBracket,
    LexemeKind.isComment, LexemeKind.isString, hfirst, hsecond]
  rcases hmark with hmark | hmark <;> simp [hblank, hmark]

/-- The mark of a function is a lexeme of its own. -/
theorem mem_functionMark (hseam : IsSeam source pos) {tail : List UInt8}
    (hdrop : source.drop pos = hash :: quote :: tail) :
    ⟨.plain, ⟨pos, pos + 2⟩⟩ ∈ lexemes source ∧
      Lexeme.isFunctionMark source ⟨.plain, ⟨pos, pos + 2⟩⟩ = true := by
  have hfirst : source[pos]? = some hash := head_of_drop_cons hdrop
  have hsecond : source[pos + 1]? = some quote := second_of_drop_cons hdrop
  have hread : LexemeKind.read hash (quote :: tail) = (.plain, 1) := rfl
  exact ⟨hseam.mem_of_read hdrop hread (by simp), by simp [Lexeme.isFunctionMark, hfirst, hsecond]⟩

/-- An atom that starts with `#'` ends before the apostrophe. -/
theorem plainAtomLength_of_functionMark {b : UInt8} {rest : List UInt8}
    (hmark : b = hash ∧ rest.head? = some quote) : plainAtomLength false (b :: rest) = 1 := by
  obtain ⟨rfl, hhead⟩ := hmark
  obtain ⟨tail, rfl⟩ := List.head?_eq_some_iff.1 hhead
  rw [plainAtomLength_cons (by decide) (by decide) (.inr (by decide)),
    plainAtomLength_of_ends (.cons (by decide))]

private theorem atomTo_of_functionMark (hseam : IsSeam source pos) {b : UInt8} {rest : List UInt8}
    (hdrop : source.drop pos = b :: rest) (hmark : b = hash ∧ rest.head? = some quote) :
    AtomTo source pos (pos + plainAtomLength false (b :: rest)) := by
  rw [plainAtomLength_of_functionMark hmark]
  obtain ⟨rfl, hhead⟩ := hmark
  obtain ⟨tail, rfl⟩ := List.head?_eq_some_iff.1 hhead
  obtain ⟨hmem, hmark⟩ := mem_functionMark hseam hdrop
  exact ⟨pos, .refl _ _, .inr ⟨rfl, _, hmem, rfl, hmark⟩⟩

/-- What starts with `#|` is a block comment, closed or not. -/
theorem isBlockComment_of_bar {rest : List UInt8} (hdrop : source.drop pos = hash :: rest)
    (hbar : rest.head? = some bar) (stop : Nat) :
    Lexeme.isBlockComment source ⟨(LexemeKind.read hash rest).1, ⟨pos, stop⟩⟩ = true := by
  obtain ⟨tail, rfl⟩ := List.head?_eq_some_iff.1 hbar
  have hfirst : source[pos]? = some hash := head_of_drop_cons hdrop
  rw [LexemeKind.read_hash, if_pos (by decide)]
  cases blockEnd? 0 tail <;>
    simp [LexemeKind.upTo, Lexeme.isBlockComment, LexemeKind.isComment, hfirst]

/-- What is no delimiter is no blank. -/
theorem isWhitespace_of_not_isDelimiter {b : UInt8} (h : isDelimiter b = false) :
    isWhitespace b = false := by
  simp only [isDelimiter, Bool.or_eq_false_iff] at h
  exact h.1.1.1.1.1.1.1

/-- An atom takes the lexeme at a seam and goes on after it. -/
theorem exists_part_of_atom (hseam : IsSeam source pos)
    (hcomment : ∀ l ∈ lexemes source, l.span.start = pos → l.isBlockComment source = false)
    {b : UInt8} {rest : List UInt8} (hdrop : source.drop pos = b :: rest)
    (hdelimiter : isDelimiter b = false) (hmark : ¬(b = hash ∧ rest.head? = some quote)) :
    ∃ l ∈ lexemes source, l.span.start = pos ∧ l.isBreak source = false ∧
      pos + plainAtomLength false (b :: rest) =
        l.span.stop + plainAtomLength false (source.drop l.span.stop) := by
  have hlt := pos_le_of_drop_cons hdrop
  have hmem := hseam.mem hdrop
  have hbar : b = hash → rest.head? ≠ some bar := by
    rintro rfl hbar
    have := hcomment _ hmem rfl
    rw [isBlockComment_of_bar hdrop hbar _] at this
    cases this
  obtain ⟨hkind, hlength⟩ := plainAtomLength_read hdelimiter hbar fun hhash hquote =>
    hmark ⟨hhash, hquote⟩
  generalize hnext : pos + 1 + min (LexemeKind.read b rest).2 rest.length = next at hmem
  have hrest : source.drop next = rest.drop (LexemeKind.read b rest).2 := by
    rw [drop_of_drop_cons hdrop (by omega : pos < next), List.drop_eq_drop_iff]
    omega
  refine ⟨_, hmem, rfl, ?_, ?_⟩
  · rcases hkind with hkind | hkind <;> rw [hkind]
    · exact Lexeme.isBreak_plain hdrop (isWhitespace_of_not_isDelimiter hdelimiter)
        (Decidable.not_and_iff_or_not.1 hmark)
    · simp [Lexeme.isBreak, Lexeme.separates, Lexeme.isBlank, Lexeme.isFunctionMark,
        Lexeme.isMarker, LexemeKind.isBracket, LexemeKind.isComment, LexemeKind.isString]
  · simp only
    rw [hrest]
    omega

/-- An atom from a seam ends at a seam or inside `#'`, and takes no break, if no block comment
starts there. -/
theorem atomTo_plainAtomLength (hapart : CommentsApart source) (hseam : IsSeam source pos)
    (hcomment : ∀ l ∈ lexemes source, l.span.start = pos → l.isBlockComment source = false) :
    AtomTo source pos (pos + plainAtomLength false (source.drop pos)) := by
  induction hsize : source.length - pos using Nat.strongRecOn generalizing pos with
  | ind size ih =>
    cases hdrop : source.drop pos with
    | nil => exact .of_joins (.refl _ _)
    | cons b rest =>
      have hlt := pos_le_of_drop_cons hdrop
      cases hdelimiter : isDelimiter b with
      | true =>
        rw [plainAtomLength_of_ends (.cons hdelimiter)]
        exact .of_joins (.refl _ _)
      | false =>
        by_cases hmark : b = hash ∧ rest.head? = some quote
        · exact atomTo_of_functionMark hseam hdrop hmark
        obtain ⟨l, hl, rfl, hbreak, hstop⟩ :=
          exists_part_of_atom hseam hcomment hdrop hdelimiter hmark
        have hproper := (Lexeme.inOrder_lexemes source).proper l hl
        -- What goes on after the lexeme is no comment, as the lexeme is no separator.
        have hgoes := ih (source.length - l.span.stop) (by omega) (Lexeme.isSeam_stop hl)
          (hapart.not_isBlockComment hl (Lexeme.separates_eq_false hbreak)) rfl
        rw [hstop]
        exact .trans (Joins.of_mem hl hbreak) hgoes

/-- An atom from a seam inside an atom ends where that one ends. -/
theorem stop_eq_of_isSeam (hapart : CommentsApart source) (hseam : IsSeam source pos)
    (hcomment : ∀ l ∈ lexemes source, l.span.start = pos → l.isBlockComment source = false)
    {offset : Nat} (hoffset : IsSeam source offset) (hle : pos ≤ offset)
    (hlt : offset < pos + plainAtomLength false (source.drop pos)) :
    offset + plainAtomLength false (source.drop offset) =
      pos + plainAtomLength false (source.drop pos) := by
  rcases Nat.eq_or_lt_of_le hle with rfl | hinside
  · rfl
  induction hsize : source.length - pos using Nat.strongRecOn generalizing pos with
  | ind size ih =>
    cases hdrop : source.drop pos with
    | nil =>
      rw [hdrop, plainAtomLength] at hlt
      omega
    | cons b rest =>
      rw [hdrop] at hlt
      cases hdelimiter : isDelimiter b with
      | true =>
        rw [plainAtomLength_of_ends (.cons hdelimiter)] at hlt
        omega
      | false =>
        by_cases hmark : b = hash ∧ rest.head? = some quote
        · rw [plainAtomLength_of_functionMark hmark] at hlt
          omega
        obtain ⟨l, hl, rfl, hbreak, hstop⟩ :=
          exists_part_of_atom hseam hcomment hdrop hdelimiter hmark
        have hproper := (Lexeme.inOrder_lexemes source).proper l hl
        have hpos := pos_le_of_drop_cons hdrop
        rw [hstop] at hlt ⊢
        have hnext : l.span.stop ≤ offset := Nat.not_lt.1 fun hlt' => hoffset.2 l hl ⟨hinside, hlt'⟩
        rcases Nat.eq_or_lt_of_le hnext with heq | hinside'
        · rw [heq]
        · exact ih (source.length - l.span.stop) (by omega) (Lexeme.isSeam_stop hl)
            (hapart.not_isBlockComment hl (Lexeme.separates_eq_false hbreak)) hnext hlt hinside' rfl

end Atoms

/-! ## Comments and strings in the layout -/

namespace SpanSet

private theorem exists_stop_of_mem_mergeFrom {current s : Span} {rest : List Span}
    (h : s ∈ mergeFrom current rest) : ∃ t ∈ current :: rest, t.stop = s.stop := by
  induction rest generalizing current with
  | nil => exact ⟨current, List.mem_cons_self, by rw [List.mem_singleton.1 h]⟩
  | cons t rest ih =>
    unfold mergeFrom at h
    split at h
    · obtain ⟨u, hu, hstop⟩ := ih h
      rcases List.mem_cons.1 hu with rfl | hu
      · rcases Nat.le_total current.stop t.stop with hle | hle
        · exact ⟨t, by simp, by simpa [Nat.max_eq_right hle] using hstop⟩
        · exact ⟨current, by simp, by simpa [Nat.max_eq_left hle] using hstop⟩
      · exact ⟨u, by simp [hu], hstop⟩
    · rcases List.mem_cons.1 h with rfl | h
      · exact ⟨s, List.mem_cons_self, rfl⟩
      · obtain ⟨u, hu, hstop⟩ := ih h
        exact ⟨u, List.mem_cons_of_mem _ hu, hstop⟩

/-- Each stretch of a set made from spans ends where one of them ends. -/
theorem exists_stop_of_mem_ofList {spans : List Span} {s : Span} (h : s ∈ (ofList spans).spans) :
    ∃ t ∈ spans, t.stop = s.stop := by
  have hsub (t : Span) (ht : t ∈ (spans.filter fun s => !s.isEmpty).mergeSort Span.atMost) :
      t ∈ spans :=
    (List.mem_filter.1 (List.mem_mergeSort.1 ht)).1
  unfold ofList merge at h
  split at h
  · cases h
  · next first rest hcons =>
    obtain ⟨t, ht, hstop⟩ := exists_stop_of_mem_mergeFrom h
    exact ⟨t, hsub t (hcons ▸ ht), hstop⟩

/-- The set holds the bytes of the lexemes of some kinds, and its stretches end where such lexemes
end. -/
structure Collects (source : List UInt8) (P : LexemeKind → Prop) (set : SpanSet) : Prop where
  /-- The stretches keep apart. -/
  separated : Separated set.spans
  /-- The set holds the bytes of these lexemes. -/
  contains_iff : ∀ offset, set.contains offset = true ↔
    ∃ l ∈ lexemes source, P l.kind ∧ l.span.contains offset = true
  /-- Its stretches end where such lexemes end. -/
  stop : ∀ s ∈ set.spans, ∃ l ∈ lexemes source, P l.kind ∧ l.span.stop = s.stop

variable {source : List UInt8} {P Q : LexemeKind → Prop}

private theorem collects_ofList {spans : List Span}
    (h : ∀ s, s ∈ spans ↔ ∃ l ∈ lexemes source, P l.kind ∧ l.span = s) :
    Collects source P (ofList spans) := by
  have hordered : ∀ s ∈ spans, s.start ≤ s.stop := by
    intro s hs
    obtain ⟨l, hl, -, rfl⟩ := (h s).1 hs
    exact Nat.le_of_lt ((Lexeme.inOrder_lexemes source).proper l hl)
  refine ⟨separated_ofList hordered, fun offset => ?_, fun s hs => ?_⟩
  · rw [contains_ofList hordered]
    constructor
    · rintro ⟨s, hs, hoffset⟩
      obtain ⟨l, hl, hkind, rfl⟩ := (h s).1 hs
      exact ⟨l, hl, hkind, hoffset⟩
    · rintro ⟨l, hl, hkind, hoffset⟩
      exact ⟨l.span, (h _).2 ⟨l, hl, hkind, rfl⟩, hoffset⟩
  · obtain ⟨t, ht, hstop⟩ := exists_stop_of_mem_ofList hs
    obtain ⟨l, hl, hkind, rfl⟩ := (h t).1 ht
    exact ⟨l, hl, hkind, hstop⟩

private theorem Collects.union {a b : SpanSet} (ha : a.Collects source P)
    (hb : b.Collects source Q) :
    (a.union b).Collects source fun kind => P kind ∨ Q kind := by
  have hordered : ∀ s ∈ a.spans ++ b.spans, s.start ≤ s.stop := by
    intro s hs
    rcases List.mem_append.1 hs with hs | hs
    · exact Nat.le_of_lt (ha.separated.proper s hs)
    · exact Nat.le_of_lt (hb.separated.proper s hs)
  refine ⟨separated_ofList hordered, fun offset => ?_, fun s hs => ?_⟩
  · rw [SpanSet.union, contains_ofList hordered]
    simp only [List.mem_append, or_and_right, exists_or, and_or_left,
      ← contains_iff_of_separated ha.separated, ← contains_iff_of_separated hb.separated,
      ha.contains_iff, hb.contains_iff]
  · obtain ⟨t, ht, hstop⟩ := exists_stop_of_mem_ofList hs
    rw [← hstop]
    rcases List.mem_append.1 ht with ht | ht
    · obtain ⟨l, hl, hkind, hl'⟩ := ha.stop t ht
      exact ⟨l, hl, .inl hkind, hl'⟩
    · obtain ⟨l, hl, hkind, hl'⟩ := hb.stop t ht
      exact ⟨l, hl, .inr hkind, hl'⟩

end SpanSet

namespace LayoutState

/-- Comments and strings are recorded as they are read. -/
theorem comments_strings_step (st : LayoutState) (l : Lexeme) :
    (st.step l).comments = (if l.kind.isComment then [l.span] else []) ++ st.comments ∧
      (st.step l).strings = (if l.kind.isString then [l.span] else []) ++ st.strings := by
  unfold step
  split <;> rename_i hkind <;> simp only [hkind, LexemeKind.isComment, LexemeKind.isString]
  case h_4 => unfold close; split <;> exact ⟨rfl, rfl⟩
  all_goals exact ⟨rfl, rfl⟩

private theorem mem_comments_foldl_step (ls : List Lexeme) (st : LayoutState) (s : Span) :
    s ∈ (ls.foldl step st).comments ↔
      (∃ l ∈ ls, l.kind.isComment = true ∧ l.span = s) ∨ s ∈ st.comments := by
  induction ls generalizing st with
  | nil => simp
  | cons l rest ih =>
    rw [List.foldl_cons, ih, (comments_strings_step st l).1]
    by_cases hkind : l.kind.isComment = true
    · simp only [hkind, if_true, List.singleton_append, List.mem_cons, exists_eq_or_imp, true_and,
        eq_comm (a := s)]
      exact or_left_comm.trans or_assoc.symm
    · simp [hkind]

private theorem mem_strings_foldl_step (ls : List Lexeme) (st : LayoutState) (s : Span) :
    s ∈ (ls.foldl step st).strings ↔
      (∃ l ∈ ls, l.kind.isString = true ∧ l.span = s) ∨ s ∈ st.strings := by
  induction ls generalizing st with
  | nil => simp
  | cons l rest ih =>
    rw [List.foldl_cons, ih, (comments_strings_step st l).2]
    by_cases hkind : l.kind.isString = true
    · simp only [hkind, if_true, List.singleton_append, List.mem_cons, exists_eq_or_imp, true_and,
        eq_comm (a := s)]
      exact or_left_comm.trans or_assoc.symm
    · simp [hkind]

end LayoutState

namespace Layout

variable (source : List UInt8)

/-- The comment spans collect the comment lexemes. -/
theorem collects_comments :
    (ofBytes source).comments.Collects source fun kind => kind.isComment = true := by
  apply SpanSet.collects_ofList
  intro s
  rw [LayoutState.mem_comments_foldl_step]
  simp

/-- The string spans collect the string lexemes. -/
theorem collects_strings :
    (ofBytes source).strings.Collects source fun kind => kind.isString = true := by
  apply SpanSet.collects_ofList
  intro s
  rw [LayoutState.mem_strings_foldl_step]
  simp

/-- The spans of comments and strings collect the lexemes of both kinds. -/
theorem collects_commentsAndStrings :
    (ofBytes source).commentsAndStrings.Collects source fun kind =>
      kind.isComment = true ∨ kind.isString = true :=
  (collects_comments source).union (collects_strings source)

end Layout

end LexScope
