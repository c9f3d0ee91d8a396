import LexScope.Proofs.Text.Case
import LexScope.Proofs.Text.Columns

/-!
# Characters from bytes

What `decode` reads from the bytes of some characters are these characters. So the text of a span
that cuts no character consists of characters of the document, and of two texts that end together
the longer one has the longer name.
-/

namespace LexScope

open Utf8

namespace Utf8

/-! ## Bytes of one character -/

section Lengths

variable {a : UInt8} (ha : ¬a < 0x80) (b c d : UInt8) (rest : List UInt8)

include ha

private theorem decode_cons_two (htwo : a < 0xE0) :
    decode (a :: b :: rest) = Char.ofNat ((a.toNat - 0xC0) * 64 + payload b) :: decode rest := by
  rw [decode.eq_def]
  simp only [ha, htwo, if_true, if_false]

private theorem decode_cons_three (htwo : ¬a < 0xE0) (hthree : a < 0xF0) :
    decode (a :: b :: c :: rest) =
      Char.ofNat (((a.toNat - 0xE0) * 64 + payload b) * 64 + payload c) :: decode rest := by
  rw [decode.eq_def]
  simp only [ha, htwo, hthree, if_true, if_false]

private theorem decode_cons_four (htwo : ¬a < 0xE0) (hthree : ¬a < 0xF0) :
    decode (a :: b :: c :: d :: rest) =
      Char.ofNat ((((a.toNat - 0xF0) * 64 + payload b) * 64 + payload c) * 64 + payload d) ::
        decode rest := by
  rw [decode.eq_def]
  simp only [ha, htwo, hthree, if_false]

end Lengths

private theorem toNat_ofNat_of_lt {n : Nat} (h : n < 256) : (UInt8.ofNat n).toNat = n := by
  rw [UInt8.toNat_ofNat', Nat.mod_eq_of_lt h]

private theorem payload_ofNat {n : Nat} (h : n < 64) : payload (UInt8.ofNat (n + 128)) = n := by
  have hbyte := toNat_ofNat_of_lt (n := n + 128) (by omega)
  unfold payload
  omega

/-- A character is read back from its bytes. -/
theorem decode_utf8EncodeChar (c : Char) (rest : List UInt8) :
    decode (String.utf8EncodeChar c ++ rest) = c :: decode rest := by
  have hlt : c.toNat < 0x110000 := by
    rcases c.valid with h | h
    · exact Nat.lt_trans h (by decide)
    · exact h.2
  have hchar (n : Nat) (h : n = c.toNat) : Char.ofNat n = c := by rw [h, Char.ofNat_toNat]
  unfold String.utf8EncodeChar
  simp only [show c.val.toNat = c.toNat from rfl]
  generalize c.toNat = v at hlt hchar
  split
  · next hone =>
    have hfirst := toNat_ofNat_of_lt (n := v) (by omega)
    rw [List.singleton_append, decode_cons_ascii, hfirst, hchar v rfl]
    simp only [UInt8.lt_iff_toNat_lt, hfirst, UInt8.reduceToNat]
    omega
  split
  · next htwo =>
    have hfirst := toNat_ofNat_of_lt (n := v / 64 % 32 + 192) (by omega)
    have hsecond := payload_ofNat (n := v % 64) (by omega)
    simp only [List.cons_append, List.nil_append]
    rw [decode_cons_two, hfirst, hsecond, hchar _ (by omega)] <;>
      simp only [UInt8.lt_iff_toNat_lt, hfirst, UInt8.reduceToNat] <;> omega
  split
  · next hthree =>
    have hfirst := toNat_ofNat_of_lt (n := v / 4096 % 16 + 224) (by omega)
    have hsecond := payload_ofNat (n := v / 64 % 64) (by omega)
    have hthird := payload_ofNat (n := v % 64) (by omega)
    simp only [List.cons_append, List.nil_append]
    rw [decode_cons_three, hfirst, hsecond, hthird, hchar _ (by omega)] <;>
      simp only [UInt8.lt_iff_toNat_lt, hfirst, UInt8.reduceToNat] <;> omega
  · have hfirst := toNat_ofNat_of_lt (n := v / 262144 % 8 + 240) (by omega)
    have hsecond := payload_ofNat (n := v / 4096 % 64) (by omega)
    have hthird := payload_ofNat (n := v / 64 % 64) (by omega)
    have hfourth := payload_ofNat (n := v % 64) (by omega)
    simp only [List.cons_append, List.nil_append]
    rw [decode_cons_four, hfirst, hsecond, hthird, hfourth, hchar _ (by omega)] <;>
      simp only [UInt8.lt_iff_toNat_lt, hfirst, UInt8.reduceToNat] <;> omega

/-- Characters are read back from their bytes. -/
theorem decode_encode (chars : List Char) : decode (encode chars) = chars := by
  induction chars with
  | nil => rfl
  | cons c rest ih => rw [encode_cons, decode_utf8EncodeChar, ih]

/-! ## Texts of spans -/

/-- The bytes of a span that cuts no character are those of some characters. -/
theorem exists_chars_of_fits {text : String} {s : Span} (h : Fits (bytes text) s) :
    ∃ chars, cut (bytes text) s = encode chars := by
  obtain ⟨before, rest, hchars, hstart⟩ := exists_chars_of_boundary h.start
  have hbytes : bytes text = encode before ++ encode rest := by
    rw [bytes, hchars, encode_append]
  have hstop : Boundary (encode before ++ encode rest) ((encode before).length + s.length) := by
    rw [← hbytes, ← hstart, Span.length, Nat.add_sub_cancel' h.ordered]
    exact h.stop
  obtain ⟨chars, after, rfl, hlength⟩ := exists_chars_of_boundary hstop.of_append
  refine ⟨chars, ?_⟩
  rw [cut, hbytes, hstart, hlength, List.drop_left, encode_append, List.take_left]

end Utf8

/-! ## Lengths of names -/

/-- In lower case only a capital I with a dot takes more than one character. -/
theorem length_lowerChars (before chars : List Char) :
    (lowerChars before chars).length = chars.length + chars.count 'İ' := by
  induction chars generalizing before with
  | nil => rfl
  | cons c rest ih =>
    rw [lowerChars]
    simp only [List.length_append, ih, List.length_cons, List.count_cons]
    split
    · next hsigma =>
      have hdotted : (c == 'İ') = false := by
        rw [eq_of_beq hsigma]
        decide
      simp only [List.length_singleton, hdotted, Bool.false_eq_true, if_false]
      omega
    · split <;> simp only [List.length_cons, List.length_nil] <;> omega

/-- Of two texts that end together the longer one has another name. -/
theorem lowerCase_slice_ne {text : String} {a b c : Nat} (hab : Fits (bytes text) ⟨a, b⟩)
    (hbc : Fits (bytes text) ⟨b, c⟩) (hlt : a < b) :
    lowerCase (slice (bytes text) ⟨a, c⟩) ≠ lowerCase (slice (bytes text) ⟨b, c⟩) := by
  obtain ⟨first, hfirst⟩ := exists_chars_of_fits hab
  obtain ⟨rest, hrest⟩ := exists_chars_of_fits hbc
  have hwhole : cut (bytes text) ⟨a, c⟩ = encode (first ++ rest) := by
    rw [encode_append, ← hfirst, ← hrest, cut_append hab.ordered hbc.ordered]
  have hpos : 0 < first.length := by
    refine List.length_pos_iff.2 ?_
    rintro rfl
    have hlength := congrArg List.length hfirst
    rw [length_cut hab.stop_le_length] at hlength
    simp [encode] at hlength
    omega
  intro h
  have hlengths := congrArg (fun name => name.toList.length) h
  simp only [lowerCase, slice, hwhole, hrest, decode_encode, String.toList_ofList,
    length_lowerChars, List.length_append, List.count_append] at hlengths
  omega

end LexScope
