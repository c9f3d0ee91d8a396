import LexScope.Text.Utf8

/-!
# Character boundaries

The reader works on bytes and jumps over them, so it has to be shown that what it records never cuts
a character. A byte below `0x80` is a character of its own: the text can be cut before it and after
it. Everything that the reader records starts at such a byte, and ends after such a byte, before
one, or at the end of the text.
-/

namespace LexScope

/-- A character beyond ASCII has a first byte of its own class and then continuation bytes only; an
ASCII character is its own byte. -/
theorem utf8EncodeChar_cases (c : Char) :
    (c.toNat < 128 ∧ String.utf8EncodeChar c = [UInt8.ofNat c.toNat]) ∨
      (128 ≤ c.toNat ∧ ∃ b rest, String.utf8EncodeChar c = b :: rest ∧ 192 ≤ b ∧
        ∀ d ∈ rest, Byte.isContinuation d = true) := by
  unfold String.utf8EncodeChar
  simp only [Char.toNat]
  split
  · left
    exact ⟨by omega, rfl⟩
  · right
    split
    · refine ⟨by omega, _, _, rfl, ?_, ?_⟩
      · simp [UInt8.le_iff_toNat_le]
        omega
      · simp [Byte.isContinuation, UInt8.le_iff_toNat_le, UInt8.lt_iff_toNat_lt]
        omega
    · split
      · refine ⟨by omega, _, _, rfl, ?_, ?_⟩
        · simp [UInt8.le_iff_toNat_le]
          omega
        · simp [Byte.isContinuation, UInt8.le_iff_toNat_le, UInt8.lt_iff_toNat_lt]
          omega
      · refine ⟨by omega, _, _, rfl, ?_, ?_⟩
        · simp [UInt8.le_iff_toNat_le]
          omega
        · simp [Byte.isContinuation, UInt8.le_iff_toNat_le, UInt8.lt_iff_toNat_lt]
          omega

namespace Byte

/-- The byte is an ASCII character. -/
def IsAscii (b : UInt8) : Prop := b < 128

instance (b : UInt8) : Decidable (IsAscii b) := inferInstanceAs (Decidable (b < 128))

private theorem IsAscii.not_continuation {b : UInt8} (h : IsAscii b) :
    isContinuation b = false := by
  simp only [isContinuation, Bool.and_eq_false_iff, decide_eq_false_iff_not]
  exact Or.inl (UInt8.not_le.2 h)

/-- Blanks are ASCII. -/
theorem isAscii_of_isWhitespace {b : UInt8} (h : isWhitespace b = true) : IsAscii b := by
  simp only [isWhitespace, newline, carriageReturn, Bool.or_eq_true, beq_iff_eq] at h
  obtain (((h | h) | h) | h) | h := h <;> subst h <;> decide

/-- Delimiters are ASCII. -/
theorem isAscii_of_isDelimiter {b : UInt8} (h : isDelimiter b = true) : IsAscii b := by
  simp only [isDelimiter, opening, closing, doubleQuote, semicolon, quote, backquote, comma,
    Bool.or_eq_true, beq_iff_eq] at h
  obtain ((((((h | h) | h) | h) | h) | h) | h) | h := h
  · exact isAscii_of_isWhitespace h
  all_goals subst h; decide

/-- Digits are ASCII. -/
theorem isAscii_of_isDigit {b : UInt8} (h : isDigit b = true) : IsAscii b := by
  simp only [isDigit, Bool.and_eq_true, decide_eq_true_eq] at h
  exact UInt8.lt_of_le_of_lt h.2 (by decide)

end Byte

namespace Utf8

open Byte

/-- The text can be cut at the offset. -/
def Boundary (source : List UInt8) (offset : Nat) : Prop := isBoundary source offset = true

/-- The bytes are those of characters as far as boundaries are concerned: none starts with the rest
of a character, and none follows an ASCII character with one. -/
structure Clean (source : List UInt8) : Prop where
  /-- The text can be cut at its start. -/
  zero : Boundary source 0
  /-- The text can be cut after an ASCII character. -/
  succ : ∀ offset b, source[offset]? = some b → IsAscii b → Boundary source (offset + 1)

/-- The span is in order, inside the text, and cuts no character. -/
structure Fits (source : List UInt8) (s : Span) : Prop where
  /-- The span is in order. -/
  ordered : s.start ≤ s.stop
  /-- The text can be cut at its start. -/
  start : Boundary source s.start
  /-- The text can be cut at its end. -/
  stop : Boundary source s.stop

variable {source : List UInt8} {offset : Nat}

private theorem boundary_of_forall (hle : offset ≤ source.length)
    (h : ∀ b, source[offset]? = some b → isContinuation b = false) : Boundary source offset := by
  cases hget : source[offset]? with
  | none =>
    have hge := List.getElem?_eq_none_iff.1 hget
    simp only [Boundary, isBoundary, hget, beq_iff_eq]
    omega
  | some b => simp [Boundary, isBoundary, hget, h b hget]

/-- An ASCII byte starts a character. -/
theorem boundary_of_isAscii {b : UInt8} (h : source[offset]? = some b) (hb : IsAscii b) :
    Boundary source offset := by
  simp [Boundary, isBoundary, h, hb.not_continuation]

/-- The end of a source is a boundary. -/
theorem boundary_length (source : List UInt8) : Boundary source source.length := by
  simp [Boundary, isBoundary]

/-- A boundary is no further than the end of the source. -/
theorem Boundary.le_length (h : Boundary source offset) : offset ≤ source.length := by
  by_cases hlt : offset < source.length
  · exact Nat.le_of_lt hlt
  · have hnone : source[offset]? = none := List.getElem?_eq_none (by omega)
    simp only [Boundary, isBoundary, hnone, beq_iff_eq] at h
    exact Nat.le_of_eq h

/-- A span that fits stops inside the source. -/
theorem Fits.stop_le_length {s : Span} (h : Fits source s) : s.stop ≤ source.length :=
  h.stop.le_length

/-- Cutting a span out of a text succeeds exactly if the span fits. -/
theorem cut?_isSome_iff {s : Span} : (cut? source s).isSome = true ↔ Fits source s := by
  unfold cut?
  constructor
  · intro h
    split at h
    · next hs => exact ⟨hs.1, hs.2.2.1, hs.2.2.2⟩
    · cases h
  · intro h
    rw [if_pos ⟨h.ordered, h.stop_le_length, h.start, h.stop⟩]
    rfl

/-- The empty span at a boundary fits. -/
theorem fits_point (h : Boundary source offset) : Fits source (.point offset) :=
  ⟨Nat.le_refl _, h, h⟩

/-- A span from one boundary to a later one. -/
theorem Fits.of_le {start stop : Nat} (hle : start ≤ stop) (hstart : Boundary source start)
    (hstop : Boundary source stop) : Fits source ⟨start, stop⟩ :=
  ⟨hle, hstart, hstop⟩

/-! ## The bytes of a text -/

/-- The bytes of a text are those of its first character and of the rest. -/
theorem encode_cons (c : Char) (rest : List Char) :
    encode (c :: rest) = String.utf8EncodeChar c ++ encode rest := by
  simp [encode]

/-- The bytes of two texts are those of the first and of the second. -/
theorem encode_append (a b : List Char) : encode (a ++ b) = encode a ++ encode b := by
  simp [encode]

/-- An ASCII character is its own byte. -/
theorem encode_cons_ascii {c : Char} (hc : c.toNat < 128) (rest : List Char) :
    encode (c :: rest) = UInt8.ofNat c.toNat :: encode rest := by
  rw [encode_cons]
  rcases utf8EncodeChar_cases c with ⟨-, henc⟩ | ⟨hge, -⟩
  · rw [henc]
    rfl
  · omega

/-- A byte of a text belongs to a character beyond ASCII, or is itself one of the characters. -/
theorem mem_encode {chars : List Char} {b : UInt8} (h : b ∈ encode chars) :
    128 ≤ b ∨ ∃ c ∈ chars, c.toNat < 128 ∧ b = UInt8.ofNat c.toNat := by
  obtain ⟨c, hc, hb⟩ := List.mem_flatMap.1 h
  rcases utf8EncodeChar_cases c with ⟨hlt, henc⟩ | ⟨-, first, tail, henc, hfirst, htail⟩
  · rw [henc, List.mem_singleton] at hb
    exact Or.inr ⟨c, hc, hlt, hb⟩
  · left
    rw [henc] at hb
    rcases List.mem_cons.1 hb with rfl | hb
    · exact UInt8.le_trans (by decide) hfirst
    · have hcontinuation := htail b hb
      simp only [isContinuation, Bool.and_eq_true, decide_eq_true_eq] at hcontinuation
      exact hcontinuation.1

/-- A text without an ASCII character has none of its bytes. -/
theorem not_mem_encode {chars : List Char} {c : Char} (hc : c.toNat < 128) (h : c ∉ chars) :
    UInt8.ofNat c.toNat ∉ encode chars := by
  intro hmem
  rcases mem_encode hmem with hge | ⟨d, hd, hlt, heq⟩
  · rw [UInt8.le_iff_toNat_le, UInt8.toNat_ofNat'] at hge
    simp only [UInt8.reduceToNat] at hge
    omega
  · have hnat := congrArg UInt8.toNat heq
    simp only [UInt8.toNat_ofNat'] at hnat
    rw [Nat.mod_eq_of_lt (by omega), Nat.mod_eq_of_lt (by omega)] at hnat
    rw [Char.toNat_inj.1 hnat] at h
    exact h hd

private theorem isContinuation_head_encode (chars : List Char) {b : UInt8}
    (h : (encode chars).head? = some b) : isContinuation b = false := by
  cases chars with
  | nil => simp [encode] at h
  | cons c rest =>
    rcases utf8EncodeChar_cases c with ⟨hc, henc⟩ | ⟨-, first, tail, henc, hfirst, -⟩
    · simp only [encode, List.flatMap_cons, henc, List.cons_append, List.nil_append,
        List.head?_cons, Option.some.injEq] at h
      subst h
      apply IsAscii.not_continuation
      simp only [IsAscii, UInt8.lt_iff_toNat_lt, UInt8.toNat_ofNat']
      simp only [UInt8.reduceToNat]
      omega
    · simp only [encode, List.flatMap_cons, henc, List.cons_append, List.head?_cons,
        Option.some.injEq] at h
      subst h
      simp only [isContinuation, Bool.and_eq_false_iff, decide_eq_false_iff_not]
      exact Or.inr (UInt8.not_lt.2 hfirst)

private theorem isContinuation_of_encode_next (chars : List Char) {offset : Nat} {a b : UInt8}
    (ha : (encode chars)[offset]? = some a) (hascii : IsAscii a)
    (hb : (encode chars)[offset + 1]? = some b) : isContinuation b = false := by
  induction chars generalizing offset with
  | nil => simp [encode] at ha
  | cons c rest ih =>
    rw [encode_cons] at ha hb
    by_cases hlt : offset < (String.utf8EncodeChar c).length
    · -- Inside a character only its single byte can be ASCII, and then another one starts.
      rcases utf8EncodeChar_cases c with ⟨hc, henc⟩ | ⟨hc, first, tail, henc, hfirst, htail⟩
      · rw [henc] at hlt hb
        have hzero : offset = 0 := by simpa using hlt
        subst hzero
        apply isContinuation_head_encode rest
        simpa [List.head?_eq_getElem?] using hb
      · exfalso
        rw [List.getElem?_append_left hlt, henc] at ha
        cases offset with
        | zero =>
          simp only [List.getElem?_cons_zero, Option.some.injEq] at ha
          subst ha
          exact absurd (UInt8.lt_of_lt_of_le hascii (UInt8.le_trans (by decide) hfirst))
            (UInt8.lt_irrefl _)
        | succ offset =>
          have hmem : a ∈ tail := by
            rw [List.getElem?_cons_succ] at ha
            exact List.mem_of_getElem? ha
          have := htail a hmem
          rw [hascii.not_continuation] at this
          cases this
    · have hle := Nat.le_of_not_lt hlt
      rw [List.getElem?_append_right hle] at ha
      rw [List.getElem?_append_right (by omega)] at hb
      exact ih ha (by rwa [Nat.sub_add_comm hle] at hb)

/-- The bytes of a text are clean. -/
theorem clean_bytes (text : String) : Clean (bytes text) where
  zero := by
    apply boundary_of_forall (Nat.zero_le _)
    intro b hb
    exact isContinuation_head_encode text.toList (by rwa [List.head?_eq_getElem?])
  succ offset b hb hascii := by
    apply boundary_of_forall
    · exact (List.getElem?_eq_some_iff.1 hb).1
    · intro d hd
      exact isContinuation_of_encode_next text.toList hb hascii hd

/-! ## Boundaries and characters -/

/-- The size of a text is the number of its bytes. -/
theorem length_encode (chars : List Char) :
    (encode chars).length = (String.ofList chars).utf8ByteSize := by
  simp [← String.size_toByteArray, List.utf8Encode, encode]

/-- A text has as many bytes as its encoded size says. -/
theorem length_bytes (text : String) : (bytes text).length = text.utf8ByteSize := by
  rw [bytes, length_encode, String.ofList_toList]

/-- The bytes of joined texts are the joined bytes. -/
theorem bytes_append (t u : String) : bytes (t ++ u) = bytes t ++ bytes u := by
  rw [bytes, String.toList_append, encode_append]
  rfl

/-- A boundary in the second of two joined lists is one of that list. -/
theorem Boundary.of_append {a b : List UInt8} {k : Nat} (h : Boundary (a ++ b) (a.length + k)) :
    Boundary b k := by
  have hget : (a ++ b)[a.length + k]? = b[k]? := by
    rw [List.getElem?_append_right (Nat.le_add_right _ _), Nat.add_sub_cancel_left]
  unfold Boundary isBoundary at h ⊢
  rw [hget] at h
  cases hb : b[k]? with
  | none => simpa [hb] using h
  | some d => simpa [hb] using h

/-- Cutting at a boundary cuts between two characters. -/
theorem exists_chars_of_boundary {chars : List Char} {offset : Nat}
    (h : Boundary (encode chars) offset) :
    ∃ before after, chars = before ++ after ∧ offset = (encode before).length := by
  induction chars generalizing offset with
  | nil => exact ⟨[], [], rfl, Nat.le_zero.1 h.le_length⟩
  | cons c rest ih =>
    rw [encode_cons] at h
    by_cases hzero : offset = 0
    · exact ⟨[], c :: rest, rfl, hzero⟩
    by_cases hlt : offset < (String.utf8EncodeChar c).length
    · -- Inside a character there are continuation bytes only.
      exfalso
      rcases utf8EncodeChar_cases c with ⟨-, henc⟩ | ⟨-, first, tail, henc, -, htail⟩
      · simp only [henc, List.length_singleton] at hlt
        omega
      · obtain ⟨k, rfl⟩ := Nat.exists_eq_succ_of_ne_zero hzero
        rw [henc] at h hlt
        have hk : k < tail.length := by simpa using hlt
        have hget : (first :: tail ++ encode rest)[k + 1]? = some tail[k] := by
          simp [List.getElem?_append_left hk, hk]
        have hcontinuation := htail _ (List.getElem_mem hk)
        simp only [Boundary, isBoundary, hget, hcontinuation] at h
        cases h
    · obtain ⟨k, rfl⟩ := Nat.exists_eq_add_of_le (Nat.le_of_not_lt hlt)
      obtain ⟨before, after, rfl, rfl⟩ := ih h.of_append
      exact ⟨c :: before, after, rfl, by simp [encode_cons]⟩

/-- A boundary of the bytes is a position of the text. -/
theorem Boundary.isValid {text : String} (h : Boundary (bytes text) offset) :
    String.Pos.Raw.IsValid text ⟨offset⟩ := by
  obtain ⟨before, after, hchars, rfl⟩ := exists_chars_of_boundary h
  rw [String.Pos.Raw.isValid_iff_exists_take_toList]
  refine ⟨before.length, ?_⟩
  rw [hchars, List.take_left, length_encode]

end Utf8

end LexScope
