import LexScope.Binding.Basic
import LexScope.Proofs.Form.RoundTrip
import LexScope.Proofs.Text.Decoding

/-!
# Words in small letters

Names, keywords and the markers of lambda lists are mostly written in ASCII and without capitals.
Such a word is one atom, it is read back from its bytes, and it is its own lower case. If it starts
with a letter and spells no constant, it can be bound.
-/

namespace LexScope

open Byte Utf8

variable {chars : List Char} {c : Char}

/-! ## Characters -/

/-- A character of words in small letters. -/
def isSmallChar (c : Char) : Bool :=
  c == '*' || c == '-' || c == '&' || (decide ('0' ≤ c) && decide (c ≤ '9')) ||
    (decide ('a' ≤ c) && decide (c ≤ 'z'))

private theorem toNat_of_isSmallChar (h : isSmallChar c = true) : c.toNat < 128 := by
  simp only [isSmallChar, Bool.or_eq_true, beq_iff_eq, Bool.and_eq_true, decide_eq_true_eq] at h
  have hle {d : Char} (hd : c ≤ d) : c.toNat ≤ d.toNat := hd
  rcases h with (((rfl | rfl) | rfl) | h) | h
  · decide
  · decide
  · decide
  · exact Nat.lt_of_le_of_lt (hle h.2) (by decide)
  · exact Nat.lt_of_le_of_lt (hle h.2) (by decide)

/-- There are few such characters, so a fact about all of them can be computed. -/
theorem of_isSmallChar (P : Char → Prop)
    (h : ∀ k < 128, isSmallChar (Char.ofNat k) = true → P (Char.ofNat k))
    (hc : isSmallChar c = true) : P c := by
  have := h c.toNat (toNat_of_isSmallChar hc)
  rw [Char.ofNat_toNat] at this
  exact this hc

private theorem lowerChar_of_isSmallChar (hc : isSmallChar c = true) : lowerChar c = c :=
  of_isSmallChar (fun c => lowerChar c = c) (by decide) hc

private theorem ne_of_isSmallChar (hc : isSmallChar c = true) : c ≠ 'Σ' ∧ c ≠ 'İ' :=
  of_isSmallChar (fun c => c ≠ 'Σ' ∧ c ≠ 'İ') (by decide) hc

/-- A letter is part of no number, and neither a sign nor a dot, a colon or an ampersand. -/
theorem ne_of_letter (hc : 'a' ≤ c ∧ c ≤ 'z') :
    isMantissaChar c = false ∧ c ≠ '+' ∧ c ≠ '-' ∧ c ≠ ':' ∧ c ≠ '&' ∧ c ≠ '.' := by
  have hsmall : isSmallChar c = true := by simp [isSmallChar, hc]
  have hletter : ('a' ≤ c ∧ c ≤ 'z') → (!isMantissaChar c && c != '+' && c != '-' && c != ':' &&
      c != '&' && c != '.') = true :=
    of_isSmallChar (fun c => ('a' ≤ c ∧ c ≤ 'z') → (!isMantissaChar c && c != '+' && c != '-' &&
      c != ':' && c != '&' && c != '.') = true) (by decide) hsmall
  simpa [and_assoc] using hletter hc

/-! ## Texts -/

/-- Small letters are printed as plain bytes. -/
theorem isPlain_of_mem_small (h : ∀ c ∈ chars, isSmallChar c = true) :
    ∀ b ∈ encode chars, isPlain b = true := by
  intro b hb
  rcases mem_encode hb with hge | ⟨c, hc, -, rfl⟩
  · exact isPlain_of_le hge
  · exact of_isSmallChar (fun c => isPlain (UInt8.ofNat c.toNat) = true) (by decide) (h c hc)

/-- A word that stands in a document is read as it is written. -/
theorem slice_of_standsAt {src : Source} {pos : Nat} (h : StandsAt src.bytes pos (encode chars)) :
    src.slice ⟨pos, pos + (encode chars).length⟩ = String.ofList chars := by
  obtain ⟨before, after, hbytes, hlength⟩ := h
  have hcut : cut src.bytes ⟨pos, pos + (encode chars).length⟩ = encode chars := by
    rw [cut, Span.length, Nat.add_sub_cancel_left, hbytes, ← hlength, List.drop_left,
      List.take_left]
  rw [Source.slice, slice, hcut, decode_encode]

private theorem lowerChars_small (h : ∀ c ∈ chars, isSmallChar c = true) (before : List Char) :
    lowerChars before chars = chars := by
  induction chars generalizing before with
  | nil => rfl
  | cons c rest ih =>
    obtain ⟨hc, hrest⟩ := List.forall_mem_cons.1 h
    obtain ⟨hsigma, hdotted⟩ := ne_of_isSmallChar hc
    rw [lowerChars, beq_eq_false_iff_ne.2 hsigma, beq_eq_false_iff_ne.2 hdotted,
      lowerChar_of_isSmallChar hc, ih hrest]
    rfl

/-- A name of lower-case letters and plain signs is its own lower case. -/
theorem lowerCase_small {text : String} (h : ∀ c ∈ text.toList, isSmallChar c = true) :
    lowerCase text = text := by
  rw [lowerCase, lowerChars_small h, String.ofList_toList]

/-! ## Names -/

section Names

variable {text : String} {rest : List Char}

/-- A text that starts with neither a sign nor a part of a number is no number. -/
theorem looksNumeric_of_head (htext : text.toList = c :: rest)
    (hmantissa : isMantissaChar c = false) (hplus : c ≠ '+') (hminus : c ≠ '-') :
    looksNumeric text = false := by
  have hsign : dropSign (c :: rest) = c :: rest := by
    unfold dropSign
    split <;> simp_all
  rw [looksNumeric, htext, hsign, List.takeWhile_cons_of_neg (by simp [hmantissa])]
  rfl

/-- A text that starts with a letter is a name, unless it is one of the two constants. -/
theorem isBindable_of_letter (htext : text.toList = c :: rest) (hc : 'a' ≤ c ∧ c ≤ 'z')
    (hconstant : text ≠ "nil" ∧ text ≠ "t") : isBindable text = true := by
  obtain ⟨hmantissa, hplus, hminus, hcolon, hampersand, hdot⟩ := ne_of_letter hc
  have hne {other : String} (h : other.toList.head? ≠ some c) : text ≠ other := by
    rintro rfl
    exact h (by rw [htext, List.head?_cons])
  have hempty : text ≠ "" := hne (by simp)
  have hdot : text ≠ "." := hne (by simpa using hdot.symm)
  simp [isBindable, hempty, hdot, hconstant, htext, hcolon, hampersand,
    looksNumeric_of_head htext hmantissa hplus hminus]

end Names

end LexScope
