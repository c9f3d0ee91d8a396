import LexScope.Proofs.Form.Extension
import LexScope.Proofs.Form.Seams
import LexScope.Proofs.Form.Separation
import LexScope.Proofs.Text.Case

/-!
# Where words are read

Words are found without the lexemes, but each step of reading them starts where a lexeme ends, or
between the two bytes of `#'`, `,@` or `,.`. So no word reaches into a comment or a string, and no
step passes the start of a word, as a word starts after a break and a step goes along lexemes that
are none. What is passed on purpose is the test after `#+` or `#-`.
-/

namespace LexScope

open Byte

/-! ## After two signs -/

/-- A sign `#+` or `#-` ends at the offset; digits may stand inside it. -/
def afterFeatureSign (source : List UInt8) (offset : Nat) : Bool :=
  match (source.take offset).reverse with
  | sign :: before =>
    (sign == plus || sign == minus) && (before.dropWhile isDigit).head? == some hash
  | [] => false

/-- A comma that splices ends at the offset. -/
def afterSplice (source : List UInt8) (offset : Nat) : Bool :=
  match (source.take offset).reverse with
  | mark :: sign :: _ => sign == comma && (mark == atSign || mark == dot)
  | _ => false

section Signs

variable {source rest : List UInt8} {pos : Nat}

private theorem reverse_take_of_drop {bytes : List UInt8}
    (hdrop : source.drop pos = bytes ++ rest) :
    (source.take (pos + bytes.length)).reverse = bytes.reverse ++ (source.take pos).reverse := by
  rw [← List.reverse_append, List.take_add, hdrop, List.take_left]

/-- A position right behind a feature sign, with digits in it or none, is found to be behind one. -/
theorem afterFeatureSign_of_drop {digits : List UInt8} {sign : UInt8}
    (hdrop : source.drop pos = hash :: (digits ++ sign :: rest))
    (hdigits : ∀ b ∈ digits, isDigit b = true) (hsign : sign = plus ∨ sign = minus) :
    afterFeatureSign source (pos + 1 + digits.length + 1) = true := by
  have hsplit : source.drop pos = (hash :: digits ++ [sign]) ++ rest := by simp [hdrop]
  have hreverse := reverse_take_of_drop hsplit
  have hlength : pos + (hash :: digits ++ [sign]).length = pos + 1 + digits.length + 1 := by
    simp only [List.length_append, List.length_cons, List.length_nil]
    omega
  rw [hlength] at hreverse
  have hbefore : (digits.reverse ++ hash :: (source.take pos).reverse).dropWhile isDigit =
      hash :: (source.take pos).reverse := by
    rw [List.dropWhile_append_of_pos fun b hb => hdigits b (List.mem_reverse.1 hb)]
    rfl
  rw [afterFeatureSign, hreverse]
  simp only [List.reverse_append, List.reverse_cons, List.reverse_nil, List.nil_append,
    List.append_assoc, List.cons_append, hbefore, List.head?_cons]
  simpa using hsign

private theorem afterSplice_of_drop {mark : UInt8} (hdrop : source.drop pos = comma :: mark :: rest)
    (hmark : mark = atSign ∨ mark = dot) : afterSplice source (pos + 2) = true := by
  have hreverse : (source.take (pos + 2)).reverse = mark :: comma :: (source.take pos).reverse :=
    reverse_take_of_drop (show source.drop pos = [comma, mark] ++ rest from hdrop)
  rw [afterSplice, hreverse]
  simpa using hmark

end Signs

/-! ## Marks -/

namespace Lexeme

variable {source : List UInt8} {l : Lexeme}

/-- Marks do not keep apart what they stand between, but words start after them. -/
theorem breaks_of_mark (h : l.isFunctionMark source = true ∨ l.isMarker = true) :
    l.separates source = false ∧ l.isBreak source = true := by
  constructor
  · rcases h with h | h
    · simp only [isFunctionMark, Bool.and_eq_true, beq_iff_eq] at h
      have hblank : isWhitespace hash = false := by decide
      simp [separates, isBlank, h, hblank, LexemeKind.isBracket, LexemeKind.isComment,
        LexemeKind.isString]
    · unfold isMarker at h
      split at h
      · next hkind =>
        simp [separates, isBlank, hkind, LexemeKind.isBracket, LexemeKind.isComment,
          LexemeKind.isString]
      · cases h
  · rcases h with h | h <;> simp [isBreak, h]

/-- A bracket takes one byte. -/
theorem stop_of_isBracket (hl : l ∈ lexemes source) (h : l.kind.isBracket = true) :
    l.span.stop = l.span.start + 1 := by
  obtain ⟨b, rest, -, hkind, hstop⟩ := exists_read rfl hl
  have hmore : (LexemeKind.read b rest).2 = 0 := by
    rcases LexemeKind.read_of_isBracket (hkind ▸ h) with rfl | rfl <;> rfl
  rw [hstop, hmore, Nat.zero_min]

/-- The mark of a function takes two bytes. -/
theorem stop_of_isFunctionMark (hl : l ∈ lexemes source) (h : l.isFunctionMark source = true) :
    l.span.stop = l.span.start + 2 := by
  obtain ⟨b, rest, hdrop, -, hstop⟩ := exists_read rfl hl
  have hfirst : source[l.span.start]? = some b := head_of_drop_cons hdrop
  have hsecond : source[l.span.start + 1]? = rest.head? := second_of_drop_cons hdrop
  simp only [isFunctionMark, hfirst, hsecond, Bool.and_eq_true, beq_iff_eq,
    Option.some.injEq] at h
  obtain ⟨tail, rfl⟩ := List.head?_eq_some_iff.1 h.2
  rw [hstop, h.1.2]
  have hread : (LexemeKind.read hash (quote :: tail)).2 = 1 := rfl
  rw [hread, List.length_cons, Nat.min_eq_left (by omega)]

end Lexeme

/-- The offset is that of the second byte of `#'`, `,@` or `,.`. -/
def IsHalfway (source : List UInt8) (offset : Nat) : Prop :=
  ∃ l ∈ lexemes source, l.span.start + 1 = offset ∧ l.span.stop = offset + 1 ∧
    (l.isFunctionMark source = true ∨
      l.isMarker = true ∧ ∃ mark rest, source.drop l.span.start = comma :: mark :: rest ∧
        (mark = atSign ∨ mark = dot))

/-- Reading words may stand at the offset. -/
def IsSynced (source : List UInt8) (offset : Nat) : Prop :=
  IsSeam source offset ∨ IsHalfway source offset

namespace IsHalfway

variable {source : List UInt8} {pos : Nat}

/-- The mark ends after the next byte, and does not keep apart. -/
theorem exists_mark (h : IsHalfway source pos) :
    ∃ l ∈ lexemes source, l.span.contains pos = true ∧ l.span.stop = pos + 1 ∧
      l.separates source = false := by
  obtain ⟨l, hl, hstart, hstop, hmark⟩ := h
  refine ⟨l, hl, Span.contains_iff.2 ⟨by omega, by omega⟩, hstop, ?_⟩
  exact (Lexeme.breaks_of_mark (hmark.imp_right And.left)).1

private theorem isSeam_succ (h : IsHalfway source pos) : IsSeam source (pos + 1) := by
  obtain ⟨l, hl, -, hstop, -⟩ := h.exists_mark
  exact hstop ▸ Lexeme.isSeam_stop hl

/-- The second byte of a mark is a quote or that of a splicing comma. -/
theorem byte (h : IsHalfway source pos) {b : UInt8} {rest : List UInt8}
    (hdrop : source.drop pos = b :: rest) :
    b = quote ∨ (b = atSign ∨ b = dot) ∧ afterSplice source (pos + 1) = true := by
  have hget : source[pos]? = some b := head_of_drop_cons hdrop
  obtain ⟨l, hl, rfl, -, hmark | ⟨-, mark, tail, hcomma, hmark⟩⟩ := h
  · left
    simp only [Lexeme.isFunctionMark, hget, Bool.and_eq_true, beq_iff_eq,
      Option.some.injEq] at hmark
    exact hmark.2
  · right
    have hsecond : source[l.span.start + 1]? = some mark := second_of_drop_cons hcomma
    rw [hget, Option.some.injEq] at hsecond
    rw [hsecond]
    exact ⟨hmark, afterSplice_of_drop hcomma hmark⟩

end IsHalfway

/-! ## Steps of reading words -/

/-- A word may start at the offset: a lexeme that is no break follows one that is, and neither a
splicing comma nor a feature test is in the way. -/
structure StartsWord (source : List UInt8) (offset : Nat) : Prop where
  /-- A lexeme ends there. -/
  seam : IsSeam source offset
  /-- It is a break. -/
  fresh : IsFresh source offset
  /-- The next one is not. -/
  part : ∀ l ∈ lexemes source, l.span.start = offset → l.isBreak source = false
  /-- No splicing comma ends there. -/
  splice : afterSplice source offset = false
  /-- The offset lies in no group that is a feature test. -/
  feature : ∀ p ∈ (Layout.ofBytes source).pairs.pairs,
    afterFeatureSign source p.opening = true → ¬(p.opening < offset ∧ offset < p.closing)

/-- Reading words goes on from the first offset to the second one and passes no word. -/
structure Passes (source : List UInt8) (pos next : Nat) : Prop where
  /-- Reading words may stand there. -/
  synced : IsSynced source next
  /-- No word starts between the two. -/
  clear : ∀ offset, StartsWord source offset → pos < offset → next ≤ offset

section Steps

variable {source rest : List UInt8} {pos next : Nat} {b : UInt8}

/-- What words leave out are the comments and the strings. -/
theorem contains_skip_iff {offset : Nat} :
    (Layout.ofBytes source).commentsAndStrings.contains offset = true ↔
      ∃ l ∈ lexemes source, (l.kind.isComment = true ∨ l.kind.isString = true) ∧
        l.span.contains offset = true :=
  (Layout.collects_commentsAndStrings source).contains_iff offset

/-- A lexeme of a word holds nothing that words leave out. -/
theorem not_contains_skip {l : Lexeme} (hl : l ∈ lexemes source)
    (hkind : l.separates source = false) {offset : Nat} (hoffset : l.span.contains offset = true) :
    (Layout.ofBytes source).commentsAndStrings.contains offset = false := by
  rw [Bool.eq_false_iff]
  intro hskip
  obtain ⟨m, hm, hmkind, hmoffset⟩ := contains_skip_iff.1 hskip
  rw [(Lexeme.inOrder_lexemes source).eq_of_contains hm hl hmoffset hoffset] at hmkind
  rw [Lexeme.separates_of_kind (.inr hmkind)] at hkind
  cases hkind

private theorem StartsWord.not_contains (h : StartsWord source pos) :
    (Layout.ofBytes source).commentsAndStrings.contains pos = false := by
  rw [Bool.eq_false_iff]
  intro hskip
  obtain ⟨l, hl, hkind, hoffset⟩ := contains_skip_iff.1 hskip
  rw [Span.contains_iff] at hoffset
  have hseam := h.seam.2 l hl
  have hpart := h.part l hl (by omega)
  rw [Lexeme.isBreak_of_separates (Lexeme.separates_of_kind (.inr hkind))] at hpart
  cases hpart

/-- An atom that starts at a seam holds nothing that words leave out. -/
theorem AtomTo.not_contains_skip (h : AtomTo source pos next) (hseam : IsSeam source pos)
    {offset : Nat} (hle : pos ≤ offset) (hlt : offset < next) (hlength : offset < source.length) :
    (Layout.ofBytes source).commentsAndStrings.contains offset = false := by
  obtain ⟨last, hjoins, hstop⟩ := h
  obtain ⟨l, hl, hcontains⟩ := Lexeme.exists_contains source (Nat.zero_le offset) (by omega)
  refine LexScope.not_contains_skip hl ?_ hcontains
  rw [Span.contains_iff] at hcontains
  have hstart := hseam.2 l hl
  by_cases hlast : l.span.start < last
  · exact Lexeme.separates_eq_false (hjoins.parts l hl (by omega) hlast).1
  · rcases hstop with hstop | ⟨hstop, m, hm, hmstart, hmark⟩
    · omega
    · rw [Lexeme.eq_of_start hl hm (by omega)]
      exact (Lexeme.breaks_of_mark (.inl hmark)).1

/-- An atom that starts at a seam passes no word. -/
theorem Passes.of_atomTo (h : AtomTo source pos next) (hseam : IsSeam source pos)
    (hle : next ≤ source.length) : Passes source pos next := by
  obtain ⟨last, hjoins, hstop⟩ := h
  constructor
  · rcases hstop with rfl | ⟨rfl, l, hl, rfl, hmark⟩
    · exact .inl (hjoins.isSeam hseam hle)
    · exact .inr ⟨l, hl, rfl, Lexeme.stop_of_isFunctionMark hl hmark, .inl hmark⟩
  · intro offset hword hlt
    rw [← Nat.not_lt]
    intro hinside
    exact hjoins.not_isFresh hseam hword.seam hlt (by omega) hword.fresh

private theorem Passes.of_joins (h : Joins source pos next) (hseam : IsSeam source pos)
    (hle : next ≤ source.length) : Passes source pos next :=
  .of_atomTo (.of_joins h) hseam hle

/-- A comment or string is passed up to its end. -/
theorem passes_skip {s : Span}
    (hskip : (Layout.ofBytes source).commentsAndStrings.spanAt pos = some s) :
    Passes source pos s.stop := by
  have hcollects := Layout.collects_commentsAndStrings source
  have hmem := SpanSet.mem_of_spanAt hskip
  have hbounds := SpanSet.bounds_of_spanAt hskip
  constructor
  · obtain ⟨l, hl, -, hstop⟩ := hcollects.stop s hmem
    exact .inl (hstop ▸ Lexeme.isSeam_stop hl)
  · intro offset hword hlt
    rw [← Nat.not_lt]
    intro hinside
    have hcontains := (SpanSet.contains_iff_of_separated hcollects.separated).2
      ⟨s, hmem, Span.contains_iff.2 ⟨by omega, hinside⟩⟩
    rw [hword.not_contains] at hcontains
    cases hcontains

/-- A delimiter outside comments and strings is a lexeme of one byte, or a splicing comma. -/
theorem read_of_isDelimiter (rest : List UInt8) (hb : isDelimiter b = true) :
    (LexemeKind.read b rest).1.isComment = true ∨
      b = doubleQuote ∧ (LexemeKind.read b rest).1.isString = true ∨
      (LexemeKind.read b rest).2 = 0 ∨
        b = comma ∧ ∃ mark tail, rest = mark :: tail ∧ (mark = atSign ∨ mark = dot) := by
  simp only [isDelimiter, Bool.or_eq_true, beq_iff_eq] at hb
  rcases hb with ((((((hb | rfl) | rfl) | rfl) | rfl) | rfl) | rfl) | rfl
  · rw [LexemeKind.read_plain (.inr hb)]
    exact .inr (.inr (.inl rfl))
  · exact .inr (.inr (.inl rfl))
  · exact .inr (.inr (.inl rfl))
  · rw [LexemeKind.read_doubleQuote]
    cases closing? doubleQuote rest <;> exact .inr (.inl ⟨rfl, rfl⟩)
  · exact .inl rfl
  · exact .inr (.inr (.inl rfl))
  · exact .inr (.inr (.inl rfl))
  · cases rest with
    | nil => exact .inr (.inr (.inl rfl))
    | cons mark tail =>
      by_cases hmark : mark = atSign ∨ mark = dot
      · exact .inr (.inr (.inr ⟨rfl, mark, tail, rfl, hmark⟩))
      · rw [LexemeKind.read_comma, if_neg (by simpa using hmark)]
        exact .inr (.inr (.inl rfl))

/-- A delimiter is passed alone. -/
theorem passes_delimiter (hsynced : IsSynced source pos) (hdrop : source.drop pos = b :: rest)
    (hskip : (Layout.ofBytes source).commentsAndStrings.contains pos = false)
    (hb : isDelimiter b = true) : Passes source pos (pos + 1) := by
  refine ⟨?_, fun offset _ hlt => hlt⟩
  rcases hsynced with hseam | hhalf
  · have hmem := hseam.mem hdrop
    have hkept : ¬((LexemeKind.read b rest).1.isComment = true ∨
        (LexemeKind.read b rest).1.isString = true) := by
      intro hkind
      rw [contains_skip_iff.2 ⟨_, hmem, hkind, Lexeme.contains_start hmem⟩] at hskip
      cases hskip
    rcases read_of_isDelimiter rest hb with h | h | hmore | ⟨rfl, mark, tail, rfl, hmark⟩
    · exact absurd (.inl h) hkept
    · exact absurd (.inr h.2) hkept
    · have hnext := Lexeme.isSeam_stop hmem
      simp only [hmore, Nat.zero_min, Nat.add_zero] at hnext
      exact .inl hnext
    · have hread : LexemeKind.read comma (mark :: tail) = (.marker .comma (.after 2 tail), 1) := by
        rw [LexemeKind.read_comma, if_pos (by simpa using hmark)]
      exact .inr ⟨_, hseam.mem_of_read hdrop hread (by simp), rfl, rfl,
        .inr ⟨rfl, mark, tail, hdrop, hmark⟩⟩
  · exact .inl hhalf.isSeam_succ

/-- An atom goes as far as the text at most. -/
theorem atomLength_le_of_drop (hdrop : source.drop pos = b :: rest) :
    pos + atomLength (b :: rest) ≤ source.length := by
  have hlength := length_of_drop hdrop
  have hlt := pos_le_of_drop_cons hdrop
  have hle := atomLength_le (b :: rest)
  omega

/-- Only a number sign starts a block comment. -/
theorem not_isBlockComment_of_ne (hdrop : source.drop pos = b :: rest) (hhash : b ≠ hash) :
    ∀ c ∈ lexemes source, c.span.start = pos → c.isBlockComment source = false := by
  rintro c - rfl
  have hget : source[c.span.start]? = some b := head_of_drop_cons hdrop
  simp [Lexeme.isBlockComment, hget, hhash]

/-- A word holds nothing that words leave out, and passes no other word. -/
theorem passes_atom (hapart : CommentsApart source) (hsynced : IsSynced source pos)
    (hdrop : source.drop pos = b :: rest) (hb : isDelimiter b = false) (hhash : b ≠ hash) :
    Passes source pos (pos + atomLength (b :: rest)) ∧
      ∀ offset, pos ≤ offset → offset < pos + atomLength (b :: rest) →
        (Layout.ofBytes source).commentsAndStrings.contains offset = false := by
  have hlength := atomLength_le_of_drop hdrop
  rcases hsynced with hseam | hhalf
  · have hatom := atomTo_plainAtomLength hapart hseam (not_isBlockComment_of_ne hdrop hhash)
    rw [hdrop, ← atomLength_eq] at hatom
    exact ⟨.of_atomTo hatom hseam hlength,
      fun offset hle hlt => hatom.not_contains_skip hseam hle hlt (by omega)⟩
  · -- The word starts with the second byte of a splicing comma.
    obtain ⟨hmark, hsplice⟩ := (hhalf.byte hdrop).resolve_left fun hquote => by
      rw [hquote] at hb
      exact absurd hb (by decide)
    have hsplit : atomLength (b :: rest) = 1 + plainAtomLength false rest := by
      rw [atomLength_eq]
      rcases hmark with rfl | rfl <;>
        exact plainAtomLength_cons (by decide) (by decide) (.inr (by decide))
    obtain ⟨l, hl, hcontains, hstop, hkind⟩ := hhalf.exists_mark
    have hatom := atomTo_plainAtomLength hapart hhalf.isSeam_succ
      (hstop ▸ hapart.not_isBlockComment hl hkind)
    rw [drop_succ_of_drop_cons hdrop, Nat.add_assoc, ← hsplit] at hatom
    have hpasses := Passes.of_atomTo hatom hhalf.isSeam_succ hlength
    refine ⟨⟨hpasses.synced, fun offset hword hlt => ?_⟩, fun offset hle hlt => ?_⟩
    · refine hpasses.clear offset hword (Nat.lt_of_le_of_ne hlt fun heq => ?_)
      rw [heq, hword.splice] at hsplice
      cases hsplice
    · rcases Nat.eq_or_lt_of_le hle with rfl | hlt'
      · exact not_contains_skip hl hkind hcontains
      · exact hatom.not_contains_skip hhalf.isSeam_succ hlt' hlt (by omega)

/-! ### Dispatched readings -/

private theorem toLower_eq_iff {c : UInt8} (hc : isLetter c = false) : toLower b = c ↔ b = c := by
  rw [← beq_iff_eq, toLower_beq hc, beq_iff_eq]

/-- A plain byte stays plain in lower case. -/
@[simp] theorem isPlain_toLower (b : UInt8) : isPlain (toLower b) = isPlain b := by
  simp (disch := decide) only [isPlain, isDelimiter_toLower, bne, toLower_beq]

private theorem isPlain_of_isDigit (h : isDigit b = true) : isPlain b = true := by
  have hall : ∀ k < 128, isDigit (UInt8.ofNat k) = true → isPlain (UInt8.ofNat k) = true := by
    decide
  have hlt : b.toNat < 128 := UInt8.lt_iff_toNat_lt.1 (isAscii_of_isDigit h)
  simpa using hall b.toNat hlt (by simpa using h)

/-- A plain byte is a lexeme that is no break. -/
theorem joins_plain (hseam : IsSeam source pos) (hdrop : source.drop pos = b :: rest)
    (hread : LexemeKind.read b rest = (.plain, 0)) (hblank : isWhitespace b = false)
    (hmark : b ≠ hash ∨ rest.head? ≠ some quote) :
    ⟨.plain, ⟨pos, pos + 1⟩⟩ ∈ lexemes source ∧ IsSeam source (pos + 1) ∧
      Lexeme.separates source ⟨.plain, ⟨pos, pos + 1⟩⟩ = false ∧ Joins source pos (pos + 1) := by
  have hmem : ⟨.plain, ⟨pos, pos + 1⟩⟩ ∈ lexemes source :=
    hseam.mem_of_read hdrop hread (Nat.zero_le _)
  have hbreak : Lexeme.isBreak source ⟨.plain, ⟨pos, pos + 1⟩⟩ = false :=
    Lexeme.isBreak_plain hdrop hblank hmark
  exact ⟨hmem, Lexeme.isSeam_stop hmem, Lexeme.separates_eq_false hbreak,
    Joins.of_mem hmem hbreak⟩

/-- Digits join. -/
theorem joins_digits {bytes : List UInt8} (hseam : IsSeam source pos)
    (hdrop : source.drop pos = bytes) :
    IsSeam source (pos + (bytes.takeWhile isDigit).length) ∧
      Joins source pos (pos + (bytes.takeWhile isDigit).length) := by
  induction bytes generalizing pos with
  | nil => exact ⟨hseam, .refl _ _⟩
  | cons b rest ih =>
    by_cases hdigit : isDigit b = true
    · have hplain := isPlain_of_isDigit hdigit
      obtain ⟨-, hnext, -, hjoins⟩ := joins_plain hseam hdrop
        (LexemeKind.read_plain (.inl hplain) rest)
        (isWhitespace_of_not_isDelimiter (isPlain_iff.1 hplain).1)
        (.inl (isPlain_iff.1 hplain).2.2.2)
      obtain ⟨hend, hrest⟩ := ih hnext (drop_succ_of_drop_cons hdrop)
      rw [List.takeWhile_cons_of_pos hdigit, List.length_cons, Nat.add_comm _ 1, ← Nat.add_assoc]
      exact ⟨hend, hjoins.trans hrest⟩
    · rw [List.takeWhile_cons_of_neg hdigit]
      exact ⟨hseam, .refl _ _⟩

/-- What a letter after a number sign reads. -/
theorem isPlain_of_dispatch {d : UInt8}
    (h : toLower d = plus ∨ toLower d = minus ∨ toLower d = colon ∨ toLower d = asterisk ∨
      toLower d ∈ radixLetters ∨ toLower d ∈ structureLetters) : isPlain d = true := by
  rw [← isPlain_toLower]
  generalize toLower d = c at h
  rcases h with rfl | rfl | rfl | rfl | h | h
  · decide
  · decide
  · decide
  · decide
  · exact List.all_eq_true.1 (by decide : radixLetters.all isPlain = true) c h
  · exact List.all_eq_true.1 (by decide : structureLetters.all isPlain = true) c h

/-- A number sign and the digits after it join, unless the sign starts a mark, a character or a
comment. -/
theorem joins_hash (hseam : IsSeam source pos) (hdrop : source.drop pos = hash :: rest)
    (hbar : rest.head? ≠ some bar) (hbackslash : rest.head? ≠ some backslash)
    (hquote : rest.head? ≠ some quote) :
    IsSeam source (pos + 1 + (rest.takeWhile isDigit).length) ∧
      Joins source pos (pos + 1 + (rest.takeWhile isDigit).length) := by
  have hread : LexemeKind.read hash rest = (.plain, 0) := by
    cases rest with
    | nil => rfl
    | cons c tail =>
      simp only [List.head?_cons, ne_eq, Option.some.injEq] at hbar hbackslash hquote
      rw [LexemeKind.read_hash]
      simp [hbar, hbackslash, hquote]
  obtain ⟨-, hnext, -, hjoins⟩ := joins_plain hseam hdrop hread (by decide) (.inr hquote)
  obtain ⟨hend, hdigits⟩ := joins_digits hnext (drop_succ_of_drop_cons hdrop)
  exact ⟨hend, hjoins.trans hdigits⟩

/-- A letter joins what stands before it, and the atom it reads is passed with it. -/
theorem passes_letter (hapart : CommentsApart source) (hseam : IsSeam source pos)
    {start : Nat} (hstart : IsSeam source start) (hbefore : Joins source start pos)
    (hdrop : source.drop pos = b :: rest) (hb : isPlain b = true) :
    IsSeam source (pos + 1) ∧ Joins source start (pos + 1) ∧
      Passes source start (pos + 1 + atomLength rest) := by
  obtain ⟨hmem, hnext, hkind, hjoins⟩ := joins_plain hseam hdrop
    (LexemeKind.read_plain (.inl hb) rest)
    (isWhitespace_of_not_isDelimiter (isPlain_iff.1 hb).1) (.inl (isPlain_iff.1 hb).2.2.2)
  have htail := drop_succ_of_drop_cons hdrop
  have hatom := atomTo_plainAtomLength hapart hnext (hapart.not_isBlockComment hmem hkind)
  rw [htail, ← atomLength_eq] at hatom
  have hlength := length_of_drop htail
  have hle := atomLength_le rest
  have hpos := pos_le_of_drop_cons hdrop
  exact ⟨hnext, hbefore.trans hjoins,
    .of_atomTo (.trans (hbefore.trans hjoins) hatom) hstart (by omega)⟩

/-- A bracket of a pair is a lexeme of its own. -/
theorem exists_break_of_mem_pairs {p : Pair} (hp : p ∈ (Layout.ofBytes source).pairs.pairs)
    {offset : Nat} (hoffset : p.HasBracketAt offset) :
    ∃ l ∈ lexemes source, l.span.start = offset ∧ l.span.stop = offset + 1 ∧
      l.isBreak source = true := by
  obtain ⟨l, hl, hkind, rfl⟩ := Layout.exists_bracket_of_mem_pairs hp hoffset
  exact ⟨l, hl, rfl, Lexeme.stop_of_isBracket hl hkind,
    Lexeme.isBreak_of_separates (Lexeme.separates_of_kind (.inl hkind))⟩

/-- A feature test is passed as a whole, and no word starts in it. -/
theorem passes_feature {start opening closed : Nat} (hstart : IsSeam source start)
    (hbefore : Joins source start opening)
    (hsign : afterFeatureSign source opening = true)
    (hclosed : (Layout.ofBytes source).pairs.closingOf opening = some closed) :
    Passes source start (closed + 1) := by
  have hpair := PairIndex.mem_of_closingOf hclosed
  obtain ⟨l, hl, hlstart, hlstop, hbreak⟩ := exists_break_of_mem_pairs hpair (.inr rfl)
  constructor
  · exact .inl (hlstop ▸ Lexeme.isSeam_stop hl)
  · intro offset hword hlt
    rw [← Nat.not_lt]
    intro hinside
    by_cases hle : offset ≤ opening
    · exact hbefore.not_isFresh hstart hword.seam hlt hle hword.fresh
    · have hclear := hword.feature _ hpair hsign
      simp only at hclear hlstart
      have hpart := hword.part l hl (by omega)
      rw [hbreak] at hpart
      cases hpart

/-- A number sign with digits and a backslash starts an atom that holds them all. -/
theorem le_atomLength_of_backslash {digits : List UInt8} (tail : List UInt8)
    (hdigits : ∀ b ∈ digits, isDigit b = true) :
    digits.length + 2 ≤ atomLength (hash :: (digits ++ backslash :: tail)) := by
  have hplain : ∀ b ∈ digits, b ≠ backslash ∧ b ≠ bar ∧
      (false = true ∨ isDelimiter b = false) := by
    intro b hb
    have hb := isPlain_iff.1 (isPlain_of_isDigit (hdigits b hb))
    exact ⟨hb.2.1, hb.2.2.1, .inr hb.1⟩
  rw [atomLength_eq, plainAtomLength_cons (by decide) (by decide) (.inr (by decide)),
    plainAtomLength_append hplain]
  have hone : 1 ≤ plainAtomLength false (backslash :: tail) := by
    cases tail with
    | nil => decide
    | cons c tail =>
      rw [plainAtomLength, if_pos (by decide)]
      omega
  omega

/-- What a number sign and a backslash start is passed as the atom that it is. -/
theorem passes_character (hapart : CommentsApart source) (hseam : IsSeam source pos)
    (hdrop : source.drop pos = hash :: rest)
    (hcomment : ∀ l ∈ lexemes source, l.span.start = pos → l.isBlockComment source = false)
    {least : Nat} (hleast : least ≤ atomLength (hash :: rest)) (hone : 1 ≤ least) :
    Passes source pos (pos + 1 + (max (atomLength (hash :: rest)) least - 1)) := by
  have hatom := atomTo_plainAtomLength hapart hseam hcomment
  rw [hdrop, ← atomLength_eq] at hatom
  have hnext : pos + 1 + (max (atomLength (hash :: rest)) least - 1) =
      pos + atomLength (hash :: rest) := by
    omega
  rw [hnext]
  exact .of_atomTo hatom hseam (atomLength_le_of_drop hdrop)

/-- A dispatched reading with digits or a letter is passed up to where it ends. -/
theorem passes_dispatch_of_joins (hapart : CommentsApart source) (hseam : IsSeam source pos)
    (hdrop : source.drop pos = hash :: rest)
    (hnext : IsSeam source (pos + 1 + (rest.takeWhile isDigit).length))
    (hjoins : Joins source pos (pos + 1 + (rest.takeWhile isDigit).length)) :
    Passes source pos (pos + 1 + dispatchLength (Layout.ofBytes source).pairs pos rest) := by
  have hletter := drop_takeWhile isDigit (drop_succ_of_drop_cons hdrop)
  have hdigits : ∀ b ∈ rest.takeWhile isDigit, isDigit b = true :=
    List.all_eq_true.1 List.all_takeWhile
  have hsplit := List.takeWhile_append_dropWhile (p := isDigit) (l := rest)
  unfold dispatchLength
  simp only
  generalize rest.takeWhile isDigit = digits at *
  split
  · exact .of_joins hjoins hseam hnext.1
  · next d tail hd =>
    rw [hd] at hletter hsplit
    have hpasses (hplain : isPlain d = true) :=
      passes_letter hapart hnext hseam hjoins hletter hplain
    have hafter : pos + 1 + (digits.length + 1) = pos + 1 + digits.length + 1 :=
      (Nat.add_assoc _ _ _).symm
    have hend : pos + 1 + (digits.length + 1 + atomLength tail) =
        pos + 1 + digits.length + 1 + atomLength tail := by
      omega
    split
    · next hquote =>
      obtain rfl := (toLower_eq_iff (by decide)).1 (eq_of_beq hquote)
      have hmem := hnext.mem_of_read hletter (rfl : LexemeKind.read quote tail = _)
        (Nat.zero_le _)
      rw [hafter]
      refine ⟨.inl (Lexeme.isSeam_stop hmem), fun offset hword hlt => ?_⟩
      rw [← Nat.not_lt]
      intro hinside
      exact hjoins.not_isFresh hseam hword.seam hlt (by omega) hword.fresh
    split
    · next hbackslash =>
      obtain rfl := (toLower_eq_iff (by decide)).1 (eq_of_beq hbackslash)
      have hle := le_atomLength_of_backslash tail hdigits
      rw [hsplit] at hle
      refine passes_character hapart hseam hdrop (fun l hl hstart => ?_) hle (by omega)
      exact Lexeme.isBlockComment_eq_false
        (Lexeme.separates_eq_false (hjoins.parts l hl (by omega) (by omega)).1)
    split
    · next hsign =>
      simp only [Bool.or_eq_true, beq_iff_eq] at hsign
      obtain ⟨-, hbefore, hatom⟩ := hpasses
        (isPlain_of_dispatch (hsign.imp_right .inl))
      split
      · next closed hclosed =>
        have hsign' : d = plus ∨ d = minus :=
          hsign.imp (toLower_eq_iff (by decide)).1 (toLower_eq_iff (by decide)).1
        have hlt := (Layout.laminar_ofBytes source).lt _ (PairIndex.mem_of_closingOf hclosed)
        simp only at hlt
        have hclose : pos + 1 + (closed - pos) = closed + 1 := by omega
        rw [hclose]
        exact passes_feature hseam hbefore
          (afterFeatureSign_of_drop (by rw [hdrop, hsplit]) hdigits hsign') hclosed
      · rw [hend]
        exact hatom
    split
    · next hradix =>
      simp only [Bool.or_eq_true, beq_iff_eq, List.contains_iff_mem] at hradix
      rw [hend]
      refine (hpasses (isPlain_of_dispatch ?_)).2.2
      rcases hradix with (h | h) | h <;> simp [h]
    split
    · next hstructure =>
      simp only [List.contains_iff_mem] at hstructure
      obtain ⟨hseam', hbefore, -⟩ := hpasses
        (isPlain_of_dispatch (.inr (.inr (.inr (.inr (.inr hstructure))))))
      rw [hafter]
      exact .of_joins hbefore hseam hseam'.1
    · exact .of_joins hjoins hseam hnext.1

/-- A dispatched reading is passed up to where it ends. -/
theorem passes_dispatch (hapart : CommentsApart source) (hsynced : IsSynced source pos)
    (hdrop : source.drop pos = hash :: rest)
    (hskip : (Layout.ofBytes source).commentsAndStrings.contains pos = false) :
    Passes source pos (pos + 1 + dispatchLength (Layout.ofBytes source).pairs pos rest) := by
  have hseam : IsSeam source pos := by
    refine hsynced.resolve_right fun hhalf => ?_
    rcases hhalf.byte hdrop with h | ⟨h | h, -⟩ <;> exact absurd h (by decide)
  have hmem := hseam.mem hdrop
  by_cases hbar : rest.head? = some bar
  · have hkind : (LexemeKind.read hash rest).1.isComment = true :=
      (Bool.and_eq_true_iff.1 (isBlockComment_of_bar hdrop hbar pos)).1
    rw [contains_skip_iff.2 ⟨_, hmem, .inl hkind, Lexeme.contains_start hmem⟩] at hskip
    cases hskip
  by_cases hbackslash : rest.head? = some backslash
  · obtain ⟨tail, rfl⟩ := List.head?_eq_some_iff.1 hbackslash
    have hleast : 2 ≤ atomLength (hash :: backslash :: tail) :=
      le_atomLength_of_backslash tail (List.forall_mem_nil _)
    refine passes_character hapart hseam hdrop (fun l hl hstart => ?_) hleast (by omega)
    rw [Lexeme.eq_of_start hl hmem hstart]
    rfl
  by_cases hquote : rest.head? = some quote
  · obtain ⟨tail, rfl⟩ := List.head?_eq_some_iff.1 hquote
    have hmem := (mem_functionMark hseam hdrop).1
    refine ⟨.inl (Lexeme.isSeam_stop hmem), fun offset hword hlt => ?_⟩
    -- Only the second byte of the mark lies between.
    have hinside : ¬(pos < offset ∧ offset < pos + 2) := hword.seam.2 _ hmem
    have hlength : dispatchLength (Layout.ofBytes source).pairs pos (quote :: tail) = 1 := rfl
    rw [hlength]
    omega
  obtain ⟨hnext, hjoins⟩ := joins_hash hseam hdrop hbar hbackslash hquote
  exact passes_dispatch_of_joins hapart hseam hdrop hnext hjoins

/-! ## Words -/

/-- The lexeme that starts with a delimiter is a break. -/
theorem isBreak_of_isDelimiter (hdrop : source.drop pos = b :: rest) (hb : isDelimiter b = true)
    (stop : Nat) : Lexeme.isBreak source ⟨(LexemeKind.read b rest).1, ⟨pos, stop⟩⟩ = true := by
  have hget : source[pos]? = some b := head_of_drop_cons hdrop
  simp only [isDelimiter, Bool.or_eq_true, beq_iff_eq] at hb
  rcases hb with ((((((hb | rfl) | rfl) | rfl) | rfl) | rfl) | rfl) | rfl
  · rw [LexemeKind.read_plain (.inr hb)]
    simp [Lexeme.isBreak, Lexeme.separates, Lexeme.isBlank, hget, hb]
  · exact Lexeme.isBreak_of_separates (Lexeme.separates_of_kind (.inl rfl))
  · exact Lexeme.isBreak_of_separates (Lexeme.separates_of_kind (.inl rfl))
  · rw [LexemeKind.read_doubleQuote]
    cases closing? doubleQuote rest <;>
      exact Lexeme.isBreak_of_separates (Lexeme.separates_of_kind (.inr (.inr rfl)))
  · rfl
  · rfl
  · rfl
  · cases rest with
    | nil => rfl
    | cons mark tail =>
      rw [LexemeKind.read_comma]
      split <;> simp [Lexeme.isBreak, Lexeme.isMarker]

/-- A word starts with a byte of a word. -/
theorem StartsWord.isDelimiter_eq_false (h : StartsWord source pos)
    (hdrop : source.drop pos = b :: rest) : isDelimiter b = false := by
  rw [Bool.eq_false_iff]
  intro hb
  have hpart := h.part _ (h.seam.mem hdrop) rfl
  rw [isBreak_of_isDelimiter hdrop hb _] at hpart
  cases hpart

variable {bytes : List UInt8}

/-- Reading words finds every word that starts where it has not been yet. -/
theorem mem_wordsFrom_of_startsWord (hapart : CommentsApart source)
    (hsynced : IsSynced source pos) (hdrop : source.drop pos = bytes) {offset : Nat}
    (hword : StartsWord source offset) (hle : pos ≤ offset) {first : UInt8} {after : List UInt8}
    (hbytes : source.drop offset = first :: after) (hfirst : first ≠ hash) :
    (⟨offset, offset + atomLength (first :: after)⟩,
        (first :: after).take (atomLength (first :: after))) ∈
      wordsFrom (Layout.ofBytes source).pairs (Layout.ofBytes source).commentsAndStrings pos
        bytes := by
  fun_induction wordsFrom (Layout.ofBytes source).pairs
    (Layout.ofBytes source).commentsAndStrings pos bytes with
  | case1 pos =>
    have hlt := pos_le_of_drop_cons hbytes
    rw [List.drop_eq_nil_iff] at hdrop
    omega
  | case2 pos b rest s hskip ih =>
    have hbounds := SpanSet.bounds_of_spanAt hskip
    have hnext : max s.stop (pos + 1) = s.stop := by omega
    have hpasses := passes_skip hskip
    have hne : pos ≠ offset := by
      rintro rfl
      have hnone := hword.not_contains
      rw [SpanSet.contains, hskip] at hnone
      cases hnone
    rw [hnext] at ih ⊢
    exact ih hpasses.synced (drop_of_drop_cons hdrop hbounds.2)
      (hpasses.clear offset hword (by omega))
  | case3 pos b rest hskip hb ih =>
    have hne : pos ≠ offset := by
      rintro rfl
      rw [hword.isDelimiter_eq_false hdrop] at hb
      cases hb
    have hpasses := passes_delimiter hsynced hdrop (by simp [SpanSet.contains, hskip]) hb
    exact ih hpasses.synced (drop_succ_of_drop_cons hdrop) (by omega)
  | case4 pos b rest hskip hb hhash more ih =>
    obtain rfl := eq_of_beq hhash
    have hne : pos ≠ offset := by
      rintro rfl
      rw [hdrop, List.cons.injEq] at hbytes
      exact hfirst hbytes.1.symm
    have hpasses := passes_dispatch hapart hsynced hdrop (by simp [SpanSet.contains, hskip])
    refine ih hpasses.synced ?_ (hpasses.clear offset hword (by omega))
    rw [drop_of_drop_cons hdrop (by omega), Nat.add_sub_cancel_left]
  | case5 pos b rest hskip hb hhash length ih =>
    by_cases hhere : pos = offset
    · subst hhere
      rw [hdrop, List.cons.injEq] at hbytes
      obtain ⟨rfl, rfl⟩ := hbytes
      exact List.mem_cons_self
    · have hb : isDelimiter b = false := by simpa using hb
      have hone : 1 ≤ length := one_le_atomLength hb
      have hnext : max (pos + length) (pos + 1) = pos + length := by omega
      have hpasses := (passes_atom hapart hsynced hdrop hb (by simpa using hhash)).1
      rw [hnext] at ih ⊢
      refine List.mem_cons_of_mem _
        (ih hpasses.synced ?_ (hpasses.clear offset hword (by omega)))
      rw [drop_of_drop_cons hdrop (by omega), Nat.add_sub_add_left]

/-- A word is an atom that starts where reading words may stand, with no number sign. -/
structure WordAt (source : List UInt8) (word : Span × List UInt8) : Prop where
  /-- Reading words may stand there. -/
  synced : IsSynced source word.1.start
  /-- It starts with a byte of atoms and goes on to the end of the atom. -/
  atom : ∃ b rest, source.drop word.1.start = b :: rest ∧ isDelimiter b = false ∧ b ≠ hash ∧
    word.1.stop = word.1.start + atomLength (b :: rest)

/-- Every word that is read is one. -/
theorem wordAt_of_mem_wordsFrom (hapart : CommentsApart source) (hsynced : IsSynced source pos)
    (hdrop : source.drop pos = bytes) {word : Span × List UInt8}
    (h : word ∈ wordsFrom (Layout.ofBytes source).pairs (Layout.ofBytes source).commentsAndStrings
      pos bytes) : WordAt source word := by
  fun_induction wordsFrom (Layout.ofBytes source).pairs
    (Layout.ofBytes source).commentsAndStrings pos bytes with
  | case1 => cases h
  | case2 pos b rest s hskip ih =>
    have hbounds := SpanSet.bounds_of_spanAt hskip
    have hnext : max s.stop (pos + 1) = s.stop := by omega
    rw [hnext] at ih h
    exact ih (passes_skip hskip).synced (drop_of_drop_cons hdrop hbounds.2) h
  | case3 pos b rest hskip hb ih =>
    have hpasses := passes_delimiter hsynced hdrop (by simp [SpanSet.contains, hskip]) hb
    exact ih hpasses.synced (drop_succ_of_drop_cons hdrop) h
  | case4 pos b rest hskip hb hhash more ih =>
    obtain rfl := eq_of_beq hhash
    have hpasses := passes_dispatch hapart hsynced hdrop (by simp [SpanSet.contains, hskip])
    refine ih hpasses.synced ?_ h
    rw [drop_of_drop_cons hdrop (by omega), Nat.add_sub_cancel_left]
  | case5 pos b rest hskip hb hhash length ih =>
    have hb : isDelimiter b = false := by simpa using hb
    have hhash : b ≠ hash := by simpa using hhash
    rcases List.mem_cons.1 h with rfl | hrest
    · exact ⟨hsynced, b, rest, hdrop, hb, hhash, rfl⟩
    · have hone : 1 ≤ length := one_le_atomLength hb
      have hnext : max (pos + length) (pos + 1) = pos + length := by omega
      rw [hnext] at ih hrest
      refine ih (passes_atom hapart hsynced hdrop hb hhash).1.synced ?_ hrest
      rw [drop_of_drop_cons hdrop (by omega), Nat.add_sub_add_left]

/-- No word reaches into a comment or a string. -/
theorem WordAt.not_contains {word : Span × List UInt8} (h : WordAt source word)
    (hapart : CommentsApart source) {offset : Nat} (hoffset : word.1.contains offset = true) :
    (Layout.ofBytes source).commentsAndStrings.contains offset = false := by
  obtain ⟨b, rest, hdrop, hb, hhash, hstop⟩ := h.atom
  rw [Span.contains_iff, hstop] at hoffset
  exact (passes_atom hapart h.synced hdrop hb hhash).2 offset hoffset.1 hoffset.2

end Steps

end LexScope
