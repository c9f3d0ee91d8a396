import LexScope.Form.Element
import LexScope.Proofs.Text.Boundary

/-!
# Where lexemes start and end

Each lexeme is decided by the bytes from its start on. This file says what those bytes are: a
bracket is a bracket, a string ends with its quote, a comment before the end of its line, and the
atom after a marker at a delimiter. Hence whatever the layout takes from a lexeme cuts no character.
-/

namespace LexScope

open Byte Utf8

/-! ## Ends of atoms, strings and comments -/

/-- What is closed by a mark ends with it. -/
theorem closing?_spec {mark : UInt8} {bytes : List UInt8} {n : Nat}
    (h : closing? mark bytes = some n) : ∃ k, n = k + 1 ∧ bytes[k]? = some mark := by
  fun_induction closing? mark bytes generalizing n with
  | case1 => cases h
  | case2 b hb =>
    simp only [Option.some.injEq] at h
    exact ⟨0, h.symm, by simpa using hb⟩
  | case3 => cases h
  | case4 b c rest hb =>
    simp only [Option.some.injEq] at h
    exact ⟨0, h.symm, by simpa using hb⟩
  | case5 b c rest hb hescape ih =>
    obtain ⟨m, hm, rfl⟩ := Option.map_eq_some_iff.1 h
    obtain ⟨k, rfl, hk⟩ := ih hm
    exact ⟨k + 2, by omega, by simpa using hk⟩
  | case6 b c rest hb hescape ih =>
    obtain ⟨m, hm, rfl⟩ := Option.map_eq_some_iff.1 h
    obtain ⟨k, rfl, hk⟩ := ih hm
    exact ⟨k + 1, by omega, by simpa using hk⟩

/-- A block comment ends with a number sign. -/
theorem blockEnd?_spec {depth : Nat} {bytes : List UInt8} {n : Nat}
    (h : blockEnd? depth bytes = some n) : ∃ k, n = k + 1 ∧ bytes[k]? = some hash := by
  fun_induction blockEnd? depth bytes generalizing n with
  | case1 a b rest hend =>
    simp only [Option.some.injEq] at h
    simp only [Bool.and_eq_true, beq_iff_eq] at hend
    exact ⟨1, h.symm, by simp [hend.2]⟩
  | case2 a b rest depth hend ih =>
    obtain ⟨m, hm, rfl⟩ := Option.map_eq_some_iff.1 h
    obtain ⟨k, rfl, hk⟩ := ih hm
    exact ⟨k + 2, by omega, by simpa using hk⟩
  | case3 depth a b rest hend hstart ih =>
    obtain ⟨m, hm, rfl⟩ := Option.map_eq_some_iff.1 h
    obtain ⟨k, rfl, hk⟩ := ih hm
    exact ⟨k + 2, by omega, by simpa using hk⟩
  | case4 depth a b rest hend hstart ih =>
    obtain ⟨m, hm, rfl⟩ := Option.map_eq_some_iff.1 h
    obtain ⟨k, rfl, hk⟩ := ih hm
    exact ⟨k + 1, by omega, by simpa using hk⟩
  | case5 => cases h

/-- An atom ends at a delimiter or with the bytes. -/
theorem plainAtomLength_spec (inBars : Bool) (bytes : List UInt8) :
    plainAtomLength inBars bytes = bytes.length ∨
      ∃ b, bytes[plainAtomLength inBars bytes]? = some b ∧ isDelimiter b = true := by
  fun_induction plainAtomLength inBars bytes with
  | case1 => exact Or.inl rfl
  | case2 inBars b hb =>
    simp only [Bool.and_eq_true] at hb
    exact Or.inr ⟨b, by simp, hb.2⟩
  | case3 => exact Or.inl rfl
  | case4 inBars b c rest hb ih =>
    rcases ih with hlen | ⟨d, hd, hdel⟩
    · left
      simp only [List.length_cons, hlen]
      omega
    · exact Or.inr ⟨d, by rw [Nat.add_comm]; simpa using hd, hdel⟩
  | case5 inBars b c rest hb hbar ih =>
    rcases ih with hlen | ⟨d, hd, hdel⟩
    · left
      simp only [List.length_cons] at hlen ⊢
      omega
    · exact Or.inr ⟨d, by rw [Nat.add_comm]; simpa using hd, hdel⟩
  | case6 inBars b c rest hb hbar hdel =>
    simp only [Bool.and_eq_true] at hdel
    exact Or.inr ⟨b, by simp, hdel.2⟩
  | case7 inBars b c rest hb hbar hdel ih =>
    rcases ih with hlen | ⟨d, hd, hdel⟩
    · left
      simp only [List.length_cons] at hlen ⊢
      omega
    · exact Or.inr ⟨d, by rw [Nat.add_comm]; simpa using hd, hdel⟩

/-- An atom runs to the end of the bytes or to a delimiter. -/
theorem atomLength_spec (bytes : List UInt8) :
    atomLength bytes = bytes.length ∨
      ∃ b, bytes[atomLength bytes]? = some b ∧ isDelimiter b = true := by
  fun_cases atomLength bytes with
  | case1 a b hliteral => exact Or.inl rfl
  | case2 a b hliteral c rest =>
    rcases plainAtomLength_spec false rest with hlen | ⟨d, hd, hdel⟩
    · left
      simp only [List.length_cons, hlen]
      omega
    · exact Or.inr ⟨d, by rw [Nat.add_comm]; simpa using hd, hdel⟩
  | case3 a b rest hliteral => exact plainAtomLength_spec false _
  | case4 bytes hshort => exact plainAtomLength_spec false _

/-- An atom does not run past the bytes. -/
theorem atomLength_le (bytes : List UInt8) : atomLength bytes ≤ bytes.length := by
  rcases atomLength_spec bytes with hlen | ⟨b, hget, -⟩
  · exact Nat.le_of_eq hlen
  · exact Nat.le_of_lt (List.getElem?_eq_some_iff.1 hget).1

/-! ## Boundaries along a suffix -/

section Suffix

variable {source bytes : List UInt8} {pos : Nat}

private theorem getElem?_of_drop (hdrop : source.drop pos = bytes) (i : Nat) :
    source[pos + i]? = bytes[i]? := by
  rw [← hdrop, List.getElem?_drop]

/-- The byte that the rest of the text starts with. -/
theorem head_of_drop_cons {b : UInt8} {rest : List UInt8} (hdrop : source.drop pos = b :: rest) :
    source[pos]? = some b :=
  getElem?_of_drop hdrop 0

/-- The byte after it, if there is one. -/
theorem second_of_drop_cons {b : UInt8} {rest : List UInt8}
    (hdrop : source.drop pos = b :: rest) : source[pos + 1]? = rest.head? := by
  rw [getElem?_of_drop hdrop 1, List.getElem?_cons_succ, List.head?_eq_getElem?]

/-- The bytes left at a position are as many as the source has after it. -/
theorem length_of_drop (hdrop : source.drop pos = bytes) : bytes.length = source.length - pos := by
  rw [← hdrop, List.length_drop]

private theorem boundary_of_drop {i : Nat} {b : UInt8} (hdrop : source.drop pos = bytes)
    (hget : bytes[i]? = some b) (hb : IsAscii b) : Boundary source (pos + i) :=
  boundary_of_isAscii ((getElem?_of_drop hdrop i).trans hget) hb

/-- A character starts right after an ASCII byte. -/
theorem boundary_after_of_drop (hclean : Clean source) {i : Nat} {b : UInt8}
    (hdrop : source.drop pos = bytes) (hget : bytes[i]? = some b) (hb : IsAscii b) :
    Boundary source (pos + (i + 1)) :=
  hclean.succ (pos + i) b ((getElem?_of_drop hdrop i).trans hget) hb

/-- The end of a suffix is the end of the text. -/
theorem boundary_end_of_drop (hdrop : source.drop pos = bytes) (hpos : pos ≤ source.length) :
    Boundary source (pos + bytes.length) := by
  rw [length_of_drop hdrop, Nat.add_sub_cancel' hpos]
  exact boundary_length source

/-- A later suffix of the text. -/
theorem drop_of_drop_cons {b : UInt8} {rest : List UInt8} (hdrop : source.drop pos = b :: rest)
    {next : Nat} (hlt : pos < next) : source.drop next = rest.drop (next - (pos + 1)) := by
  have hnext : next = pos + (next - (pos + 1) + 1) := by omega
  calc source.drop next = (source.drop pos).drop (next - (pos + 1) + 1) := by
        rw [List.drop_drop, ← hnext]
    _ = rest.drop (next - (pos + 1)) := by rw [hdrop, List.drop_succ_cons]

/-- What is left behind the first byte is the rest. -/
theorem drop_succ_of_drop_cons {b : UInt8} {rest : List UInt8}
    (hdrop : source.drop pos = b :: rest) : source.drop (pos + 1) = rest := by
  simpa using drop_of_drop_cons hdrop (Nat.lt_succ_self pos)

/-- What is left after the first bytes with a property. -/
theorem drop_takeWhile (p : UInt8 → Bool) (hdrop : source.drop pos = bytes) :
    source.drop (pos + (bytes.takeWhile p).length) = bytes.dropWhile p := by
  have hsplit : (bytes.takeWhile p ++ bytes.dropWhile p).drop (bytes.takeWhile p).length =
      bytes.dropWhile p := List.drop_left
  rw [← List.drop_drop, hdrop]
  rwa [List.takeWhile_append_dropWhile] at hsplit

/-- A position with a byte left is inside the source. -/
theorem pos_le_of_drop_cons {b : UInt8} {rest : List UInt8} (hdrop : source.drop pos = b :: rest) :
    pos < source.length := by
  have := length_of_drop hdrop
  simp only [List.length_cons] at this
  omega

/-- An atom ends at a boundary. -/
theorem boundary_atomLength (hdrop : source.drop pos = bytes) (hpos : pos ≤ source.length) :
    Boundary source (pos + atomLength bytes) := by
  rcases atomLength_spec bytes with hlen | ⟨b, hget, hdel⟩
  · rw [hlen]
    exact boundary_end_of_drop hdrop hpos
  · exact boundary_of_drop hdrop hget (isAscii_of_isDelimiter hdel)

end Suffix

/-! ## Lexemes -/

/-- What a marker stands before ends at a boundary. -/
theorem Target.boundary_after {source rest : List UInt8} {pos width n : Nat}
    (hdrop : source.drop (pos + width) = rest) (h : Target.after width rest = .atom n) :
    Boundary source (pos + n) := by
  unfold Target.after at h
  simp only at h
  split at h
  · cases h
  · next b rest' hrest =>
    split at h
    · cases h
    split at h
    · cases h
    split at h
    · cases h
    · simp only [Target.atom.injEq] at h
      have hdrop' : source.drop (pos + width + markerRun rest) = b :: rest' := by
        rw [← hrest, ← hdrop, List.drop_drop]
      have hend := boundary_atomLength hdrop' (Nat.le_of_lt (pos_le_of_drop_cons hdrop'))
      rw [← h]
      simpa [Nat.add_assoc] using hend

/-- What the bytes of a text say about a lexeme. -/
def Lexeme.Sound (source : List UInt8) (l : Lexeme) : Prop :=
  match l.kind with
  | .comment | .string | .unclosedComment | .unclosedString => Fits source l.span
  | .opening => source[l.span.start]? = some Byte.opening
  | .closing => source[l.span.start]? = some Byte.closing
  | .marker _ target =>
    Boundary source l.span.start ∧
      ∀ n, target = .atom n → Boundary source (l.span.start + n)
  | .plain | .unclosedName => True

section

variable {source : List UInt8} {pos : Nat} {b : UInt8} {rest : List UInt8}

/-- A stretch of the text that starts with an ASCII character and ends with another one. -/
private theorem fits_through (hclean : Clean source) (hdrop : source.drop pos = b :: rest)
    (hb : IsAscii b) {k : Nat} {c : UInt8} (hget : rest[k]? = some c) (hc : IsAscii c) :
    Fits source ⟨pos, pos + (1 + min (k + 1) rest.length)⟩ := by
  have hk := (List.getElem?_eq_some_iff.1 hget).1
  have hmin : 1 + min (k + 1) rest.length = k + 1 + 1 := by omega
  rw [hmin]
  refine .of_le (by omega) (boundary_of_drop hdrop (i := 0) rfl hb) ?_
  exact boundary_after_of_drop hclean hdrop (by simpa using hget) hc

/-- A stretch of the text that starts with an ASCII character and ends with the text. -/
private theorem fits_toEnd (hdrop : source.drop pos = b :: rest) (hb : IsAscii b) :
    Fits source ⟨pos, pos + (1 + min rest.length rest.length)⟩ := by
  refine .of_le (by omega) (boundary_of_drop hdrop (i := 0) rfl hb) ?_
  have hend := boundary_end_of_drop hdrop (Nat.le_of_lt (pos_le_of_drop_cons hdrop))
  simpa [Nat.add_comm] using hend

/-- A comment of one line ends before the end of the line or with the text. -/
private theorem fits_line (hdrop : source.drop pos = b :: rest) (hb : IsAscii b) :
    Fits source ⟨pos, pos + (1 + min (rest.takeWhile (· != newline)).length rest.length)⟩ := by
  have hle : (rest.takeWhile (· != newline)).length ≤ rest.length :=
    (List.takeWhile_sublist _).length_le
  rw [Nat.min_eq_left hle]
  refine .of_le (by omega) (boundary_of_drop hdrop (i := 0) rfl hb) ?_
  have hsplit := List.takeWhile_append_dropWhile (p := (· != newline)) (l := rest)
  cases hdropWhile : rest.dropWhile (· != newline) with
  | nil =>
    have hlen : (rest.takeWhile (· != newline)).length = rest.length := by
      rw [hdropWhile, List.append_nil] at hsplit
      rw [hsplit]
    rw [hlen, Nat.add_comm 1]
    exact boundary_end_of_drop hdrop (Nat.le_of_lt (pos_le_of_drop_cons hdrop))
  | cons c tail =>
    have hc : c = newline := by
      have hhead := List.head?_dropWhile_not (· != newline) rest
      rw [hdropWhile] at hhead
      exact bne_eq_false_iff_eq.1 hhead
    have hget : rest[(rest.takeWhile (· != newline)).length]? = some c := by
      have hafter : (rest.takeWhile (· != newline) ++ c :: tail)[
          (rest.takeWhile (· != newline)).length]? = some c := by simp
      rwa [← hdropWhile, hsplit] at hafter
    rw [Nat.add_comm 1]
    exact boundary_of_drop hdrop (by simpa using hget) (by rw [hc]; decide)

private theorem sound_marker (hdrop : source.drop pos = b :: rest) (hb : IsAscii b) {width : Nat}
    {rest' : List UInt8} (hrest : source.drop (pos + width) = rest') :
    Boundary source pos ∧
      ∀ n, Target.after width rest' = .atom n → Boundary source (pos + n) :=
  ⟨boundary_of_drop hdrop (i := 0) rfl hb, fun _ h => Target.boundary_after hrest h⟩

/-- The lexeme that is read at an offset is sound. -/
theorem LexemeKind.sound_read (hclean : Clean source) (hdrop : source.drop pos = b :: rest) :
    Lexeme.Sound source ⟨(LexemeKind.read b rest).1,
      ⟨pos, pos + (1 + min (LexemeKind.read b rest).2 rest.length)⟩⟩ := by
  have hget : source[pos]? = some b := getElem?_of_drop hdrop 0
  have hrest : source.drop (pos + 1) = rest := drop_succ_of_drop_cons hdrop
  fun_cases LexemeKind.read b rest
  all_goals simp only [Lexeme.Sound]
  case case1 hb =>
    have hb := eq_of_beq hb
    exact fits_line hdrop (by rw [hb]; decide)
  case case2 _ hb n hclosed =>
    have hb := eq_of_beq hb
    obtain ⟨k, rfl, hk⟩ := closing?_spec hclosed
    exact fits_through hclean hdrop (by rw [hb]; decide) hk (by decide)
  case case3 _ hb _ =>
    have hb := eq_of_beq hb
    exact fits_toEnd hdrop (by rw [hb]; decide)
  case case5 _ _ hb c rest' hc n hclosed =>
    have hb := eq_of_beq hb
    obtain ⟨k, rfl, hk⟩ := blockEnd?_spec hclosed
    rw [Nat.add_comm 1 (k + 1)]
    exact fits_through hclean hdrop (by rw [hb]; decide) (by simpa using hk) (by decide)
  case case6 _ _ hb c rest' hc _ =>
    have hb := eq_of_beq hb
    exact fits_toEnd hdrop (by rw [hb]; decide)
  case case13 hb =>
    rw [hget, eq_of_beq hb]
  case case14 hb =>
    rw [hget, eq_of_beq hb]
  case case15 hb =>
    have hb := eq_of_beq hb
    exact sound_marker hdrop (by rw [hb]; decide) hrest
  case case16 hb =>
    have hb := eq_of_beq hb
    exact sound_marker hdrop (by rw [hb]; decide) hrest
  case case17 hb c rest' _ =>
    have hb := eq_of_beq hb
    exact sound_marker hdrop (by rw [hb]; decide) (drop_succ_of_drop_cons hrest)
  case case18 hb c rest' _ =>
    have hb := eq_of_beq hb
    exact sound_marker hdrop (by rw [hb]; decide) hrest
  case case19 hb =>
    have hb := eq_of_beq hb
    exact sound_marker hdrop (by rw [hb]; decide) hrest

end

end LexScope
