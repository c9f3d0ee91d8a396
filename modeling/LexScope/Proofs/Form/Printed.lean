import LexScope.Proofs.Form.Datum
import LexScope.Proofs.Form.Layout

/-!
# The layout of printed data

The lexemes of a printed datum leave the open brackets as they are and add to the layout the pieces
of the datum and nothing else, whatever is printed before it and after it. Atoms need to know that
what follows ends a word; every neighbour in a list does, as it starts with a space or a bracket.
-/

namespace LexScope

open Byte Utf8

/-! ## Atoms -/

/-- Nothing follows, or something that ends a word. -/
def Ends (rest : List UInt8) : Prop := ∀ b ∈ rest.head?, isDelimiter b = true

/-- The end of the bytes ends an atom. -/
theorem Ends.nil : Ends [] := by simp [Ends]

/-- A delimiter ends an atom. -/
theorem Ends.cons {b : UInt8} {rest : List UInt8} (h : isDelimiter b = true) :
    Ends (b :: rest) := by
  simpa [Ends] using h

/-- A plain byte is no delimiter and starts no escape, bar or sign. -/
theorem isPlain_iff {b : UInt8} :
    isPlain b = true ↔ isDelimiter b = false ∧ b ≠ backslash ∧ b ≠ bar ∧ b ≠ hash := by
  simp [isPlain, and_assoc]

section AtomLength

variable {inBars : Bool} {b : UInt8} {bytes rest : List UInt8}

/-- A byte inside an atom adds one to its length. -/
theorem plainAtomLength_cons (hbackslash : b ≠ backslash) (hbar : b ≠ bar)
    (h : inBars = true ∨ isDelimiter b = false) :
    plainAtomLength inBars (b :: rest) = 1 + plainAtomLength inBars rest := by
  have hstays : (!inBars && isDelimiter b) = false := by
    rcases h with h | h <;> simp [h]
  cases rest with
  | nil => simp [plainAtomLength, Bool.and_assoc, hstays]
  | cons c rest => simp [plainAtomLength, hbackslash, hbar, hstays]

/-- A bar is part of the atom and turns the quoting round. -/
theorem plainAtomLength_bar :
    plainAtomLength inBars (bar :: rest) = 1 + plainAtomLength (!inBars) rest := by
  have hdelimiter : isDelimiter bar = false := by decide
  have hbackslash : (bar == backslash) = false := by decide
  cases rest with
  | nil => simp [plainAtomLength, hdelimiter]
  | cons c rest => simp [plainAtomLength, hbackslash]

/-- No atom is left where one ends. -/
theorem plainAtomLength_of_ends (h : Ends rest) : plainAtomLength false rest = 0 := by
  cases rest with
  | nil => rfl
  | cons b rest =>
    have hb : isDelimiter b = true := h b rfl
    have hbackslash : b ≠ backslash := fun heq => by
      rw [heq] at hb
      exact absurd hb (by decide)
    have hbar : b ≠ bar := fun heq => by
      rw [heq] at hb
      exact absurd hb (by decide)
    cases rest with
    | nil => simp [plainAtomLength, hb, hbackslash]
    | cons c rest => simp [plainAtomLength, hb, hbackslash, hbar]

/-- An atom runs through bytes that do not end it. -/
theorem plainAtomLength_append
    (h : ∀ b ∈ bytes, b ≠ backslash ∧ b ≠ bar ∧ (inBars = true ∨ isDelimiter b = false)) :
    plainAtomLength inBars (bytes ++ rest) = bytes.length + plainAtomLength inBars rest := by
  induction bytes with
  | nil => simp
  | cons b bytes ih =>
    obtain ⟨⟨hbackslash, hbar, hstays⟩, hbytes⟩ := List.forall_mem_cons.1 h
    rw [List.cons_append, plainAtomLength_cons hbackslash hbar hstays, ih hbytes,
      List.length_cons]
    omega

private theorem atomLength_cons_of_ne (hhash : b ≠ hash) :
    atomLength (b :: rest) = plainAtomLength false (b :: rest) := by
  cases rest with
  | nil => rfl
  | cons c rest => simp [atomLength, hhash]

end AtomLength

/-- The bytes of characters beyond ASCII are plain. -/
theorem isPlain_of_le {b : UInt8} (h : 128 ≤ b) : isPlain b = true := by
  have hne (c : UInt8) (hc : IsAscii c) : b ≠ c := by
    rintro rfl
    exact absurd (UInt8.lt_of_lt_of_le hc h) (UInt8.lt_irrefl _)
  refine isPlain_iff.2 ⟨?_, hne _ (by decide), hne _ (by decide), hne _ (by decide)⟩
  cases hb : isDelimiter b with
  | false => rfl
  | true => exact absurd rfl (hne b (isAscii_of_isDelimiter hb))

/-- The digits of a number are plain. -/
theorem isPlain_of_mem_digits {n : Nat} {b : UInt8} (h : b ∈ encode (Nat.toDigits 10 n)) :
    isPlain b = true := by
  have hdigit : ∀ k < 128, 48 ≤ k ∧ k ≤ 57 → isPlain (UInt8.ofNat k) = true := by decide
  rcases mem_encode h with hge | ⟨c, hc, hlt, rfl⟩
  · exact isPlain_of_le hge
  · have hc := Nat.isDigit_of_mem_toDigits (by decide) (by decide) hc
    exact hdigit _ hlt (by simpa [Char.isDigit, UInt32.le_iff_toNat_le] using hc)

section Closing

variable {mark b : UInt8} {bytes rest : List UInt8}

private theorem closing?_mark : closing? mark (mark :: rest) = some 1 := by
  cases rest <;> simp [closing?]

private theorem closing?_cons (hmark : b ≠ mark) (hbackslash : b ≠ backslash) :
    closing? mark (b :: rest) = (closing? mark rest).map (· + 1) := by
  cases rest <;> simp [closing?, hmark, hbackslash]

private theorem closing?_append (h : ∀ b ∈ bytes, b ≠ mark ∧ b ≠ backslash) :
    closing? mark (bytes ++ rest) = (closing? mark rest).map (· + bytes.length) := by
  induction bytes with
  | nil => simp
  | cons b bytes ih =>
    obtain ⟨⟨hmark, hbackslash⟩, hbytes⟩ := List.forall_mem_cons.1 h
    rw [List.cons_append, closing?_cons hmark hbackslash, ih hbytes, Option.map_map]
    congr 1

end Closing

/-- A string is closed by the quote that follows its contents. -/
theorem closing?_contents (contents : List Char) (rest : List UInt8) :
    closing? doubleQuote (encode (contents.flatMap escapeChar) ++ doubleQuote :: rest) =
      some ((encode (contents.flatMap escapeChar)).length + 1) := by
  induction contents with
  | nil => simp [encode, closing?_mark]
  | cons c contents ih =>
    rw [List.flatMap_cons, encode_append, List.append_assoc, List.length_append]
    by_cases hc : c = '"' ∨ c = '\\'
    · have hbytes : encode (escapeChar c) = [backslash, UInt8.ofNat c.toNat] := by
        rcases hc with rfl | rfl <;> decide
      rw [hbytes]
      simp only [List.cons_append, List.nil_append, closing?]
      rw [if_neg (by decide), if_pos (by decide), ih]
      simp only [Option.map_some, List.length_cons, List.length_nil]
      congr 1
      omega
    · have hplain : ∀ b ∈ encode (escapeChar c), b ≠ doubleQuote ∧ b ≠ backslash := by
        simp only [escapeChar, if_neg hc]
        intro b hb
        refine ⟨?_, ?_⟩
        · rintro rfl
          exact not_mem_encode (c := '"') (by decide) (by simpa using fun h => hc (.inl h.symm)) hb
        · rintro rfl
          exact not_mem_encode (c := '\\') (by decide) (by simpa using fun h => hc (.inr h.symm)) hb
      rw [closing?_append hplain, ih, Option.map_some]
      congr 1
      omega

namespace Atom

variable {rest : List UInt8}

/-- The bytes of plain characters start with a plain byte and are all plain. -/
theorem bytes_cases_of_plain {chars : List Char} (hne : chars ≠ [])
    (h : ∀ b ∈ encode chars, isPlain b = true) :
    ∃ b bytes, encode chars = b :: bytes ∧ ∀ c ∈ b :: bytes, isPlain c = true := by
  obtain ⟨c, rest, rfl⟩ := List.exists_cons_of_ne_nil hne
  obtain ⟨b, bytes, hc⟩ := List.exists_cons_of_ne_nil (String.utf8EncodeChar_ne_nil (c := c))
  have hbytes : encode (c :: rest) = b :: (bytes ++ encode rest) := by
    rw [encode_cons, hc, List.cons_append]
  exact ⟨b, bytes ++ encode rest, hbytes, by rwa [← hbytes]⟩

/-- An atom is written in plain bytes, or as a character, or between bars. -/
theorem bytes_cases (a : Atom) :
    (∃ b bytes, encode a.chars = b :: bytes ∧ ∀ c ∈ b :: bytes, isPlain c = true) ∨
      (∃ c, encode a.chars = [hash, backslash, c]) ∨
      ∃ inner, encode a.chars = bar :: (inner ++ [bar]) ∧
        ∀ b ∈ inner, b ≠ bar ∧ b ≠ backslash := by
  cases a with
  | word w => exact .inl (bytes_cases_of_plain w.nonempty w.plain)
  | number n =>
    exact .inl (bytes_cases_of_plain Nat.toDigits_ne_nil fun _ => isPlain_of_mem_digits)
  | character opens =>
    right; left
    cases opens
    · exact ⟨closing, rfl⟩
    · exact ⟨opening, rfl⟩
  | barred contents noBar noBackslash =>
    right; right
    refine ⟨encode contents, ?_, ?_⟩
    · rw [chars, encode_cons_ascii (by decide), encode_append]
      rfl
    · intro b hb
      refine ⟨?_, ?_⟩
      · rintro rfl
        exact not_mem_encode (c := '|') (by decide) noBar hb
      · rintro rfl
        exact not_mem_encode (c := '\\') (by decide) noBackslash hb

/-- The length of a printed atom, whatever ends it. -/
theorem atomLength_bytes (a : Atom) (hrest : Ends rest) :
    atomLength (encode a.chars ++ rest) = (encode a.chars).length := by
  rcases a.bytes_cases with ⟨b, bytes, hbytes, hplain⟩ | ⟨c, hbytes⟩ | ⟨inner, hbytes, hinner⟩
  · have hhash : b ≠ hash := (isPlain_iff.1 (hplain b List.mem_cons_self)).2.2.2
    rw [hbytes, List.cons_append, atomLength_cons_of_ne hhash, ← List.cons_append,
      plainAtomLength_append, plainAtomLength_of_ends hrest, Nat.add_zero]
    intro c hc
    obtain ⟨hdelimiter, hbackslash, hbar, -⟩ := isPlain_iff.1 (hplain c hc)
    exact ⟨hbackslash, hbar, .inr hdelimiter⟩
  · simp [hbytes, atomLength, plainAtomLength_of_ends hrest]
  · rw [hbytes, List.cons_append, atomLength_cons_of_ne (by decide), plainAtomLength_bar,
      List.append_assoc, plainAtomLength_append (by
        intro b hb
        exact ⟨(hinner b hb).2, (hinner b hb).1, .inl rfl⟩)]
    simp only [List.cons_append, List.nil_append]
    rw [plainAtomLength_bar]
    simp only [Bool.not_false, Bool.not_true, plainAtomLength_of_ends hrest, List.length_cons,
      List.length_append, List.length_nil]
    omega

/-- A printed atom starts like nothing else: with no delimiter, and with a number sign only before a
backslash. -/
theorem exists_head (a : Atom) : ∃ b bytes, encode a.chars = b :: bytes ∧
    isDelimiter b = false ∧ (b = hash → bytes.head? = some backslash) := by
  rcases a.bytes_cases with ⟨b, bytes, hbytes, hplain⟩ | ⟨c, hbytes⟩ | ⟨inner, hbytes, -⟩
  · obtain ⟨hdelimiter, -, -, hhash⟩ := isPlain_iff.1 (hplain b List.mem_cons_self)
    exact ⟨b, bytes, hbytes, hdelimiter, fun h => absurd h hhash⟩
  · exact ⟨hash, [backslash, c], hbytes, by decide, fun _ => rfl⟩
  · exact ⟨bar, inner ++ [bar], hbytes, by decide, fun h => absurd h (by decide)⟩

end Atom

/-! ## Lexemes -/

namespace LayoutState

variable {st : LayoutState} {pos more : Nat} {b : UInt8} {rest : List UInt8}

/-- Take in the lexemes of some bytes at offset `pos`. -/
def scan (st : LayoutState) (pos : Nat) (bytes : List UInt8) : LayoutState :=
  (lexemesFrom pos bytes).foldl LayoutState.step st

/-- Scanning nothing changes nothing. -/
theorem scan_nil : st.scan pos [] = st := by
  simp [scan, lexemesFrom]

private theorem scan_cons {kind : LexemeKind} (hread : LexemeKind.read b rest = (kind, more))
    (hmore : more ≤ rest.length) :
    st.scan pos (b :: rest) =
      (st.step ⟨kind, ⟨pos, pos + (1 + more)⟩⟩).scan (pos + (1 + more)) (rest.drop more) := by
  rw [scan, lexemesFrom]
  simp only [hread, Nat.min_eq_left hmore, List.foldl_cons]
  rfl

/-- Plain lexemes leave no trace. -/
theorem scan_plain {l : List UInt8} (hread : LexemeKind.read b (l ++ rest) = (.plain, l.length)) :
    st.scan pos (b :: (l ++ rest)) = st.scan (pos + (b :: l).length) rest := by
  rw [scan_cons hread (by simp), List.drop_left, List.length_cons, Nat.add_comm 1]
  rfl

end LayoutState

/-- A byte that shapes nothing is a lexeme of its own. -/
theorem LexemeKind.read_plain {b : UInt8} (h : isPlain b = true ∨ isWhitespace b = true)
    (rest : List UInt8) : LexemeKind.read b rest = (.plain, 0) := by
  have hne : b ≠ semicolon ∧ b ≠ doubleQuote ∧ b ≠ hash ∧ b ≠ bar ∧ b ≠ backslash ∧
      b ≠ Byte.opening ∧ b ≠ Byte.closing ∧ b ≠ Byte.quote ∧ b ≠ backquote ∧ b ≠ Byte.comma := by
    rcases h with h | h
    · obtain ⟨hdelimiter, hbackslash, hbar, hhash⟩ := isPlain_iff.1 h
      simp only [isDelimiter, Bool.or_eq_false_iff, beq_eq_false_iff_ne] at hdelimiter
      simp_all
    · simp only [isWhitespace, newline, carriageReturn, Bool.or_eq_true, beq_iff_eq] at h
      obtain (((h | h) | h) | h) | h := h <;> subst h <;> decide
  simp [LexemeKind.read, hne]

/-- A byte shapes nothing, or it is one of ten. -/
theorem Byte.plain_or_shapes (b : UInt8) :
    (isPlain b = true ∨ isWhitespace b = true) ∨ b = semicolon ∨ b = doubleQuote ∨ b = hash ∨
      b = bar ∨ b = backslash ∨ b = Byte.opening ∨ b = Byte.closing ∨ b = Byte.quote ∨
      b = backquote ∨ b = Byte.comma := by
  simp only [isPlain, isDelimiter, Bool.and_eq_true, Bool.not_eq_true', Bool.or_eq_false_iff,
    bne_iff_ne, beq_eq_false_iff_ne]
  cases isWhitespace b <;> grind

/-- A lexeme up to where its end was found; without an end it takes the `left` bytes. -/
def LexemeKind.upTo (closed unclosed : LexemeKind) (width : Nat → Nat) (left : Nat) :
    Option Nat → LexemeKind × Nat
  | some n => (closed, width n)
  | none => (unclosed, left)

section Read

variable {rest : List UInt8} {n : Nat}

/-- A double quote opens a string that runs to the closing one. -/
theorem LexemeKind.read_doubleQuote (rest : List UInt8) :
    LexemeKind.read doubleQuote rest =
      upTo .string .unclosedString id rest.length (closing? doubleQuote rest) := rfl

/-- A bar opens a quoted name that runs to the closing one. -/
theorem LexemeKind.read_bar_eq (rest : List UInt8) :
    LexemeKind.read bar rest = upTo .plain .unclosedName id rest.length (closing? bar rest) := rfl

/-- A hash sign starts a block comment, a character, a quoted function or a plain byte. -/
theorem LexemeKind.read_hash (c : UInt8) (rest : List UInt8) :
    LexemeKind.read hash (c :: rest) =
      if c == bar then
        upTo .comment .unclosedComment (1 + ·) (c :: rest).length (blockEnd? 0 rest)
      else if c == backslash then (.plain, atomLength (hash :: c :: rest) - 1)
      else if c == Byte.quote then (.plain, 1)
      else (.plain, 0) := rfl

/-- A comma is read with the at sign or the dot after it. -/
theorem LexemeKind.read_comma (c : UInt8) (rest : List UInt8) :
    LexemeKind.read Byte.comma (c :: rest) =
      if c == atSign || c == dot then (.marker .comma (.after 2 rest), 1)
      else (.marker .comma (.after 1 (c :: rest)), 0) := rfl

private theorem LexemeKind.read_bar (h : closing? bar rest = some n) :
    LexemeKind.read bar rest = (.plain, n) := by
  rw [read_bar_eq, h]
  rfl

private theorem LexemeKind.read_string (h : closing? doubleQuote rest = some n) :
    LexemeKind.read doubleQuote rest = (.string, n) := by
  rw [read_doubleQuote, h]
  rfl

private theorem LexemeKind.read_character (h : atomLength (hash :: backslash :: rest) = n + 1) :
    LexemeKind.read hash (backslash :: rest) = (.plain, n) := by
  have hread : LexemeKind.read hash (backslash :: rest) =
      (.plain, atomLength (hash :: backslash :: rest) - 1) := rfl
  rw [hread, h, Nat.add_sub_cancel]

/-- An opening bracket is read alone. -/
theorem LexemeKind.read_opening : LexemeKind.read Byte.opening rest = (.opening, 0) := rfl

private theorem LexemeKind.read_closing : LexemeKind.read Byte.closing rest = (.closing, 0) := rfl

end Read

/-- A gap with a comment is printed as the comment on the rest of a line. -/
theorem Gap.encode_comment (text : List Char) (oneLine : '\n' ∉ text) :
    encode (Gap.lead (some (.comment text oneLine))) =
      32 :: semicolon :: (encode text ++ [newline, 32]) := by
  simp only [Gap.lead, Gap.chars]
  rw [encode_cons_ascii (by decide), encode_cons_ascii (by decide), encode_append]
  rfl

namespace Mark

/-- Marks are printed byte by byte. -/
theorem encode_cons (m : Mark) (marks : List Mark) :
    encode ((m :: marks).map Mark.char) =
      UInt8.ofNat m.char.toNat :: encode (marks.map Mark.char) := by
  rw [List.map_cons]
  apply encode_cons_ascii
  cases m <;> decide

/-- A mark takes up one byte. -/
@[simp] theorem length_encode (marks : List Mark) :
    (encode (marks.map Mark.char)).length = marks.length := by
  induction marks with
  | nil => rfl
  | cons m marks ih => rw [encode_cons, List.length_cons, List.length_cons, ih]

private theorem exists_read (m : Mark) (rest : List UInt8) : ∃ marker target,
    LexemeKind.read (UInt8.ofNat m.char.toNat) rest = (.marker marker target, 0) := by
  cases m <;> exact ⟨_, _, rfl⟩

end Mark

/-- The state has gained some pieces and is otherwise as before. What becomes of markers is left
open. -/
structure LayoutState.Gains (st st' : LayoutState) (pieces : List Piece) : Prop where
  /-- The open brackets are the same. -/
  stack : st'.stack = st.stack
  /-- Nothing is unclosed. -/
  truncatedAt : st'.truncatedAt = st.truncatedAt
  /-- The new pairs are those of the lists. -/
  pairs : (pieces.filterMap Piece.pair? ++ st.pairs).Perm st'.pairs
  /-- The new comments. -/
  comments : (pieces.filterMap Piece.comment? ++ st.comments).Perm st'.comments
  /-- The new strings. -/
  strings : (pieces.filterMap Piece.string? ++ st.strings).Perm st'.strings

namespace LayoutState

variable {st st' st'' : LayoutState} {pos : Nat} {bytes rest : List UInt8}

private theorem Gains.refl (st : LayoutState) : st.Gains st [] :=
  ⟨rfl, rfl, .refl _, .refl _, .refl _⟩

private theorem perm_filterMap_append {β : Type} {f : Piece → Option β} {a b : List Piece}
    {x y z : List β} (hxy : (a.filterMap f ++ x).Perm y) (hyz : (b.filterMap f ++ y).Perm z) :
    ((a ++ b).filterMap f ++ x).Perm z := by
  have hswap : ((a ++ b).filterMap f ++ x).Perm (b.filterMap f ++ (a.filterMap f ++ x)) := by
    rw [List.filterMap_append, ← List.append_assoc]
    exact List.perm_append_comm.append_right x
  exact hswap.trans ((hxy.append_left _).trans hyz)

private theorem Gains.trans {a b : List Piece} (hab : st.Gains st' a) (hbc : st'.Gains st'' b) :
    st.Gains st'' (a ++ b) where
  stack := hbc.stack.trans hab.stack
  truncatedAt := hbc.truncatedAt.trans hab.truncatedAt
  pairs := perm_filterMap_append hab.pairs hbc.pairs
  comments := perm_filterMap_append hab.comments hbc.comments
  strings := perm_filterMap_append hab.strings hbc.strings

/-- The scanner passes over plain bytes and blanks. -/
theorem scan_bytes (h : ∀ b ∈ bytes, isPlain b = true ∨ isWhitespace b = true) :
    st.scan pos (bytes ++ rest) = st.scan (pos + bytes.length) rest := by
  induction bytes generalizing pos with
  | nil => rfl
  | cons b bytes ih =>
    obtain ⟨hb, hbytes⟩ := List.forall_mem_cons.1 h
    have hread := LexemeKind.read_plain hb (bytes ++ rest)
    calc st.scan pos (b :: (bytes ++ rest))
        = st.scan (pos + 1) (bytes ++ rest) := scan_plain (l := []) hread
      _ = st.scan (pos + 1 + bytes.length) rest := ih hbytes
      _ = st.scan (pos + (b :: bytes).length) rest := by
        rw [List.length_cons, Nat.add_assoc, Nat.add_comm 1]

/-- Atoms leave no trace. -/
theorem scan_atom (a : Atom) (hrest : Ends rest) :
    st.scan pos (encode a.chars ++ rest) = st.scan (pos + (encode a.chars).length) rest := by
  have hlength := a.atomLength_bytes hrest
  rcases a.bytes_cases with ⟨b, bytes, hbytes, hplain⟩ | ⟨c, hbytes⟩ | ⟨inner, hbytes, hinner⟩
  · rw [hbytes]
    exact scan_bytes fun c hc => .inl (hplain c hc)
  · rw [hbytes] at hlength ⊢
    exact scan_plain (l := [backslash, c]) (LexemeKind.read_character hlength)
  · rw [hbytes]
    apply scan_plain
    apply LexemeKind.read_bar
    rw [List.append_assoc, closing?_append hinner, List.cons_append, closing?_mark,
      Option.map_some, List.length_append, Nat.add_comm]
    rfl

/-- Brackets around what adds pieces add a form. -/
theorem Gains.close {pieces : List Piece} {opened closed : Nat}
    (h : ({ st with stack := opened :: st.stack } : LayoutState).Gains st' pieces)
    (elements : List Element) :
    st.Gains (st'.close closed) (.form ⟨opened, closed⟩ elements :: pieces) := by
  have hclose : st'.stack = opened :: st.stack := h.stack
  have hpairs : (st'.close closed).pairs = ⟨opened, closed⟩ :: st'.pairs := by
    simp [LayoutState.close, hclose]
  refine ⟨?_, ?_, ?_, ?_, ?_⟩
  · simp [LayoutState.close, hclose]
  · simpa [LayoutState.close, hclose] using h.truncatedAt
  · rw [hpairs]
    exact h.pairs.cons _
  · simpa [LayoutState.close, hclose, List.filterMap_cons, Piece.comment?] using h.comments
  · simpa [LayoutState.close, hclose, List.filterMap_cons, Piece.string?] using h.strings

private theorem gains_marker (m : Marker) (target : Target) (span : Span) :
    st.Gains (st.step ⟨.marker m target, span⟩) [] := by
  cases target <;> exact ⟨rfl, rfl, .refl _, .refl _, .refl _⟩

/-- Marks change only what waits for a form, and what is known of marked atoms. -/
theorem scan_marks (marks : List Mark) : ∃ st', st.Gains st' [] ∧
    st.scan pos (encode (marks.map Mark.char) ++ rest) = st'.scan (pos + marks.length) rest := by
  induction marks generalizing st pos with
  | nil => exact ⟨st, .refl st, rfl⟩
  | cons m marks ih =>
    rw [Mark.encode_cons, List.cons_append]
    generalize encode (marks.map Mark.char) ++ rest = bytes at ih ⊢
    obtain ⟨marker, target, hread⟩ := m.exists_read bytes
    rw [scan_cons hread (Nat.zero_le _), List.drop_zero, List.length_cons]
    have hmarker := st.gains_marker marker target ⟨pos, pos + (1 + 0)⟩
    obtain ⟨st', hgains, hscan⟩ :=
      @ih (st.step ⟨.marker marker target, ⟨pos, pos + (1 + 0)⟩⟩) (pos + (1 + 0))
    refine ⟨st', hmarker.trans hgains, ?_⟩
    rw [hscan]
    congr 1
    omega

/-- A string adds itself. -/
theorem scan_literal (contents : List Char) : ∃ st',
    st.Gains st' [.string ⟨pos, pos + (encode (literal contents)).length⟩] ∧
      st.scan pos (encode (literal contents) ++ rest) =
        st'.scan (pos + (encode (literal contents)).length) rest := by
  have hbytes : encode (literal contents) =
      doubleQuote :: (encode (contents.flatMap escapeChar) ++ [doubleQuote]) := by
    rw [literal, encode_cons_ascii (by decide), encode_append]
    rfl
  have hclosing := closing?_contents contents rest
  rw [hbytes]
  generalize encode (contents.flatMap escapeChar) = inner at hclosing ⊢
  have hread : LexemeKind.read doubleQuote (inner ++ [doubleQuote] ++ rest) =
      (.string, (inner ++ [doubleQuote]).length) := by
    apply LexemeKind.read_string
    simpa using hclosing
  refine ⟨st.step ⟨.string, ⟨pos, pos + (doubleQuote :: (inner ++ [doubleQuote])).length⟩⟩,
    ⟨rfl, rfl, .refl _, .refl _, .refl _⟩, ?_⟩
  rw [List.cons_append, scan_cons hread (by simp), List.drop_left, List.length_cons,
    Nat.add_comm 1]

/-- What stands between two neighbours adds its comment, if it is one. -/
theorem scan_lead (lead : Option Gap) : ∃ st', st.Gains st' (Gap.pieces pos lead) ∧
    st.scan pos (encode (Gap.lead lead) ++ rest) =
      st'.scan (pos + (encode (Gap.lead lead)).length) rest := by
  match lead with
  | none => exact ⟨st, .refl st, rfl⟩
  | some .space =>
    refine ⟨st, .refl st, ?_⟩
    exact scan_bytes (List.forall_mem_singleton.2 (by decide))
  | some (.comment text oneLine) =>
    have hline : ∀ b ∈ encode text, (b != newline) = true := by
      intro b hb
      simp only [bne_iff_ne]
      rintro rfl
      exact not_mem_encode (c := '\n') (by decide) oneLine hb
    rw [Gap.encode_comment, Gap.pieces]
    generalize encode text = line at hline ⊢
    have hread : LexemeKind.read semicolon (line ++ (newline :: 32 :: rest)) =
        (.comment, line.length) := by
      have htake : (line ++ newline :: 32 :: rest).takeWhile (· != newline) = line := by
        rw [List.takeWhile_append_of_pos hline]
        simp
      have hread : LexemeKind.read semicolon (line ++ (newline :: 32 :: rest)) =
        (.comment, ((line ++ newline :: 32 :: rest).takeWhile (· != newline)).length) := rfl
      rw [hread, htake]
    have hspan : pos + 1 + (1 + line.length) = pos + 2 + line.length := by omega
    refine ⟨st.step ⟨.comment, ⟨pos + 1, pos + 1 + (1 + line.length)⟩⟩, ?_, ?_⟩
    · rw [← hspan]
      exact ⟨rfl, rfl, .refl _, .refl _, .refl _⟩
    · have hspace : ∀ b ∈ [(32 : UInt8)], isPlain b = true ∨ isWhitespace b = true :=
        List.forall_mem_singleton.2 (by decide)
      have hblank : ∀ b ∈ [newline, 32], isPlain b = true ∨ isWhitespace b = true :=
        List.forall_mem_cons.2 ⟨by decide, hspace⟩
      simp only [List.cons_append, List.append_assoc, List.nil_append]
      -- The first space, the comment, and the end of its line with the last space.
      rw [← List.singleton_append, scan_bytes hspace, List.length_singleton,
        scan_cons hread (by simp), List.drop_left,
        show newline :: 32 :: rest = [newline, 32] ++ rest from rfl, scan_bytes hblank]
      congr 1
      simp only [List.length_cons, List.length_append, List.length_nil]
      omega

end LayoutState

/-! ## Data -/

private theorem isDelimiter_head_lead (gap : Gap) (chars : List Char) (rest : List UInt8) :
    Ends (encode (Gap.lead (some gap) ++ chars) ++ rest) := by
  cases gap with
  | space => exact Ends.cons (b := 32) (by decide)
  | comment text oneLine => exact Ends.cons (b := 32) (by decide)

namespace Datum

/-- Items after the first start with a gap, which ends an atom. -/
theorem ends_charsFrom (gap : Gap) (gaps : Nat → Gap) (items : List Datum) {rest : List UInt8}
    (hrest : Ends rest) : Ends (encode (charsFrom (some gap) gaps items) ++ rest) := by
  cases items with
  | nil => exact hrest
  | cons d items => exact isDelimiter_head_lead gap _ rest

/-- A list is printed as its marks, the opening bracket, its items and the closing bracket. -/
theorem encode_list (marks : List Mark) (gaps : Nat → Gap) (items : List Datum) :
    encode (list marks gaps items).chars = encode (marks.map Mark.char) ++
      Byte.opening :: (encode (charsFrom none gaps items) ++ [Byte.closing]) := by
  rw [chars, encode_append, encode_cons_ascii (by decide), encode_append]
  rfl

/-- The width of a list is that of its marks, its brackets and its items. -/
theorem size_list (marks : List Mark) (gaps : Nat → Gap) (items : List Datum) :
    (list marks gaps items).size = marks.length + (sizeFrom none gaps items + 2) := by
  rw [size, encode_list, sizeFrom]
  simp

/-- The width of the items is that of the first, with its gap, and of the rest. -/
theorem sizeFrom_cons (lead : Option Gap) (gaps : Nat → Gap) (d : Datum) (items : List Datum) :
    sizeFrom lead gaps (d :: items) = (encode (Gap.lead lead)).length +
      (d.size + sizeFrom (some (gaps 0)) (fun i => gaps (i + 1)) items) := by
  rw [sizeFrom, charsFrom, encode_append, encode_append, List.length_append, List.length_append]
  rfl

mutual

/-- The lexemes of a printed datum add its pieces. -/
theorem scan_chars (st : LayoutState) (pos : Nat) {rest : List UInt8} (hrest : Ends rest) :
    ∀ d : Datum, ∃ st', st.Gains st' (d.pieces pos) ∧
      st.scan pos (encode d.chars ++ rest) = st'.scan (pos + d.size) rest
  | atom marks a => by
    obtain ⟨st', hgains, hscan⟩ := st.scan_marks marks
    refine ⟨st', by simpa [pieces] using hgains, ?_⟩
    rw [size, chars, encode_append, List.append_assoc, hscan, LayoutState.scan_atom a hrest,
      List.length_append, Mark.length_encode, Nat.add_assoc]
  | string marks contents => by
    obtain ⟨st₁, hmarks, hscan₁⟩ := st.scan_marks marks
    obtain ⟨st₂, hliteral, hscan₂⟩ := st₁.scan_literal contents
    have hsize : pos + (string marks contents).size =
        pos + marks.length + (encode (literal contents)).length := by
      rw [size, chars, encode_append, List.length_append, Mark.length_encode, Nat.add_assoc]
    refine ⟨st₂, ?_, ?_⟩
    · rw [pieces, hsize]
      exact hmarks.trans hliteral
    · rw [hsize, chars, encode_append, List.append_assoc, hscan₁, hscan₂]
  | list marks gaps items => by
    obtain ⟨st₁, hmarks, hscan₁⟩ := st.scan_marks marks
    obtain ⟨st₂, hitems, hscan₂⟩ := scan_charsFrom
      { st₁ with stack := (pos + marks.length) :: st₁.stack } (pos + marks.length + 1)
      (Ends.cons (by decide) : Ends (Byte.closing :: rest)) none gaps items
    have hclosing : pos + (list marks gaps items).size - 1 =
        pos + marks.length + 1 + sizeFrom none gaps items := by
      rw [size_list]
      omega
    have hend : pos + (list marks gaps items).size =
        pos + marks.length + 1 + sizeFrom none gaps items + 1 := by
      rw [size_list]
      omega
    refine ⟨st₂.close (pos + marks.length + 1 + sizeFrom none gaps items), ?_, ?_⟩
    · rw [pieces, hclosing]
      exact hmarks.trans (hitems.close _)
    · rw [hend, encode_list, List.append_assoc, hscan₁, List.cons_append,
        LayoutState.scan_cons LexemeKind.read_opening (Nat.zero_le _), List.drop_zero,
        List.append_assoc]
      refine hscan₂.trans ?_
      rw [LayoutState.scan_cons LexemeKind.read_closing (Nat.zero_le _)]
      rfl

/-- The lexemes of printed neighbours add their pieces. -/
theorem scan_charsFrom (st : LayoutState) (pos : Nat) {rest : List UInt8} (hrest : Ends rest)
    (lead : Option Gap) (gaps : Nat → Gap) :
    ∀ items : List Datum, ∃ st', st.Gains st' (piecesFrom pos lead gaps items) ∧
      st.scan pos (encode (charsFrom lead gaps items) ++ rest) =
        st'.scan (pos + sizeFrom lead gaps items) rest
  | [] => by
    refine ⟨st, ?_, rfl⟩
    rw [piecesFrom]
    exact .refl st
  | d :: items => by
    obtain ⟨st₁, hlead, hscan₁⟩ := st.scan_lead lead
    obtain ⟨st₂, hd, hscan₂⟩ := scan_chars st₁ (pos + (encode (Gap.lead lead)).length)
      (ends_charsFrom (gaps 0) (fun i => gaps (i + 1)) items hrest) d
    obtain ⟨st₃, hitems, hscan₃⟩ := scan_charsFrom st₂
      (pos + (encode (Gap.lead lead)).length + d.size) hrest (some (gaps 0))
      (fun i => gaps (i + 1)) items
    refine ⟨st₃, ?_, ?_⟩
    · rw [piecesFrom]
      exact hlead.trans (hd.trans hitems)
    · rw [charsFrom, encode_append, encode_append, List.append_assoc, List.append_assoc, hscan₁,
        hscan₂, hscan₃, sizeFrom_cons]
      congr 1
      omega

end

end Datum

end LexScope
