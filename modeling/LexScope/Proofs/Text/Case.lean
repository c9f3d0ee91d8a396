import LexScope.Binding.Doc
import LexScope.Binding.Head
import LexScope.Form.Symbol
import LexScope.Proofs.Form.Printed

/-!
# Letters in either case

Everything that shapes a document is told apart by bytes that are no letters, and every word that
the language fixes is compared in lower case. So the functions of the reader give the same answer
for a text and for that text with its ASCII capitals in lower case, and so does the mapping of names
to lower case, which for letters beyond ASCII goes further.

Where a function gives back a part of its text, the part comes out in lower case too.
-/

namespace LexScope

open Byte Utf8

/-! ## Bytes -/

namespace Byte

/-- An ASCII letter. -/
def isLetter (b : UInt8) : Bool :=
  (decide (65 ≤ b) && decide (b ≤ 90)) || (decide (97 ≤ b) && decide (b ≤ 122))

/-- A byte that is no letter is told apart in either case. -/
theorem toLower_beq {c : UInt8} (hc : isLetter c = false) (b : UInt8) :
    (toLower b == c) = (b == c) := by
  unfold toLower
  split
  · next hb =>
    have hb' : isLetter b = true := by simp [isLetter, hb]
    have hlow : isLetter (b + 32) = true := by
      simp only [isLetter, UInt8.le_iff_toNat_le, UInt8.toNat_add, UInt8.reduceToNat] at hb ⊢
      simp
      omega
    have hne : b ≠ c := by
      rintro rfl
      rw [hb'] at hc
      cases hc
    have hne' : b + 32 ≠ c := by
      rintro rfl
      rw [hlow] at hc
      cases hc
    rw [beq_eq_false_iff_ne.2 hne, beq_eq_false_iff_ne.2 hne']
  · rfl

/-- The lower case of a byte is its own lower case. -/
theorem toLower_toLower (b : UInt8) : toLower (toLower b) = toLower b := by
  unfold toLower
  by_cases hb : 65 ≤ b ∧ b ≤ 90
  · rw [if_pos hb, if_neg]
    simp only [UInt8.le_iff_toNat_le, UInt8.toNat_add, UInt8.reduceToNat] at hb ⊢
    omega
  · rw [if_neg hb, if_neg hb]

private theorem toLower_of_le {b : UInt8} (h : 128 ≤ b) : toLower b = b := by
  unfold toLower
  rw [if_neg]
  simp only [UInt8.le_iff_toNat_le, UInt8.reduceToNat] at h ⊢
  omega

/-- The case of a byte does not matter to whether it is a blank. -/
@[simp] theorem isWhitespace_toLower (b : UInt8) : isWhitespace (toLower b) = isWhitespace b := by
  simp (disch := decide) only [isWhitespace, toLower_beq]

/-- The case of a byte does not matter to whether it is a delimiter. -/
@[simp] theorem isDelimiter_toLower (b : UInt8) : isDelimiter (toLower b) = isDelimiter b := by
  simp (disch := decide) only [isDelimiter, isWhitespace_toLower, toLower_beq]

/-- The case of a byte does not matter to whether it is a marker. -/
@[simp] theorem isMarker_toLower (b : UInt8) : isMarker (toLower b) = isMarker b := by
  simp (disch := decide) only [isMarker, toLower_beq]

/-- The case of a byte does not matter to whether it is a digit. -/
@[simp] theorem isDigit_toLower (b : UInt8) : isDigit (toLower b) = isDigit b := by
  unfold toLower
  split
  · next hb =>
    simp only [isDigit, UInt8.le_iff_toNat_le, UInt8.toNat_add, UInt8.reduceToNat] at hb ⊢
    rw [decide_eq_false (p := b.toNat ≤ 57) (by omega),
      decide_eq_false (p := (b.toNat + 32) % 2 ^ 8 ≤ 57) (by omega)]
    simp
  · rfl

end Byte

/-! ## Characters -/

private theorem toNat_toLower (c : Char) :
    c.toLower.toNat = if 65 ≤ c.toNat ∧ c.toNat ≤ 90 then c.toNat + 32 else c.toNat := by
  have hbounds : (c.val ≥ 'A'.val ∧ c.val ≤ 'Z'.val) ↔ (65 ≤ c.toNat ∧ c.toNat ≤ 90) := by
    simp only [ge_iff_le, UInt32.le_iff_toNat_le]
    exact Iff.rfl
  unfold Char.toLower
  by_cases h : 65 ≤ c.toNat ∧ c.toNat ≤ 90
  · have hadd : (c.val + ('a'.val - 'A'.val)).toNat = (c.val.toNat + 32) % 2 ^ 32 := rfl
    rw [dif_pos (hbounds.2 h), if_pos h]
    simp only [Char.toNat] at h ⊢
    rw [hadd]
    omega
  · rw [dif_neg (mt hbounds.1 h), if_neg h]

/-- Only ASCII letters have another lower case. -/
theorem charToLower_of_le {c : Char} (h : 128 ≤ c.toNat) : c.toLower = c := by
  rw [← Char.toNat_inj, toNat_toLower, if_neg (by omega)]

private theorem charToLower_charToLower (c : Char) : c.toLower.toLower = c.toLower := by
  rw [← Char.toNat_inj, toNat_toLower, toNat_toLower]
  by_cases h : 65 ≤ c.toNat ∧ c.toNat ≤ 90
  · rw [if_pos h, if_neg (by omega)]
  · rw [if_neg h, if_neg h]

/-- The number is the code point of an ASCII letter. -/
def IsLetterCode (n : Nat) : Prop := (65 ≤ n ∧ n ≤ 90) ∨ (97 ≤ n ∧ n ≤ 122)

instance (n : Nat) : Decidable (IsLetterCode n) := inferInstanceAs (Decidable (_ ∨ _))

private theorem charToLower_eq_iff {c d : Char} (hd : ¬IsLetterCode d.toNat) :
    c.toLower = d ↔ c = d := by
  rw [← Char.toNat_inj, ← Char.toNat_inj, toNat_toLower]
  unfold IsLetterCode at hd
  split <;> omega

/-- A way to look at characters that may hide their case and hides nothing else. -/
structure CaseView (view : Char → Char) : Prop where
  /-- Both have the same lower case. -/
  toLower : ∀ c, (view c).toLower = c.toLower

/-- Leaving the characters as they are is a view of their case. -/
theorem CaseView.id : CaseView id := ⟨fun _ => rfl⟩

/-- Lower-casing the characters is a view of their case. -/
theorem CaseView.lower : CaseView Char.toLower := ⟨charToLower_charToLower⟩

private theorem CaseView.eq_iff {view : Char → Char} (h : CaseView view) {c d : Char}
    (hd : ¬IsLetterCode d.toNat) : view c = d ↔ c = d := by
  rw [← charToLower_eq_iff hd, h.toLower, charToLower_eq_iff hd]

private theorem CaseView.beq {view : Char → Char} (h : CaseView view) (c : Char) {d : Char}
    (hd : ¬IsLetterCode d.toNat) : (view c == d) = (c == d) := by
  rw [Bool.eq_iff_iff, beq_iff_eq, beq_iff_eq]
  exact h.eq_iff hd

/-! ## Encoding and decoding -/

private theorem utf8EncodeChar_toLower (c : Char) :
    String.utf8EncodeChar c.toLower = (String.utf8EncodeChar c).map Byte.toLower := by
  rcases utf8EncodeChar_cases c with ⟨hlt, henc⟩ | ⟨hge, first, tail, henc, hfirst, htail⟩
  · have hlow : c.toLower.toNat < 128 := by
      rw [toNat_toLower]
      split <;> omega
    rcases utf8EncodeChar_cases c.toLower with ⟨-, henc'⟩ | ⟨hge, -⟩
    · rw [henc, henc', toNat_toLower, List.map_singleton, Byte.toLower]
      have hnat : (UInt8.ofNat c.toNat).toNat = c.toNat := by
        rw [UInt8.toNat_ofNat']
        omega
      simp only [UInt8.le_iff_toNat_le, hnat, UInt8.reduceToNat]
      split
      · rw [UInt8.ofNat_add]
        rfl
      · rfl
    · omega
  · have htail' : tail.map Byte.toLower = tail := by
      refine (List.map_congr_left fun d hd => ?_).trans (List.map_id tail)
      have hcontinuation := htail d hd
      simp only [isContinuation, Bool.and_eq_true, decide_eq_true_eq] at hcontinuation
      exact Byte.toLower_of_le hcontinuation.1
    rw [charToLower_of_le hge, henc, List.map_cons, htail',
      Byte.toLower_of_le (UInt8.le_trans (by decide) hfirst)]

/-- The bytes of a text in lower case. -/
theorem encode_map_toLower (chars : List Char) :
    encode (chars.map Char.toLower) = (encode chars).map Byte.toLower := by
  induction chars with
  | nil => rfl
  | cons c rest ih => rw [List.map_cons, encode_cons, encode_cons, List.map_append, ih,
      utf8EncodeChar_toLower]

private theorem payload_toLower (b : UInt8) : payload (Byte.toLower b) = payload b := by
  unfold payload Byte.toLower
  split
  · next h =>
    simp only [UInt8.le_iff_toNat_le, UInt8.toNat_add, UInt8.reduceToNat] at h ⊢
    omega
  · rfl

private theorem ofNat_toLower {a : UInt8} (ha : a < 0x80) :
    Char.ofNat (Byte.toLower a).toNat = (Char.ofNat a.toNat).toLower := by
  have hnat {n : Nat} (hn : n < 128) : (Char.ofNat n).toNat = n := by
    rw [Char.ofNat, dif_pos (Or.inl (by omega))]
    rfl
  rw [← Char.toNat_inj, toNat_toLower, Byte.toLower]
  simp only [UInt8.lt_iff_toNat_lt, UInt8.reduceToNat] at ha
  rw [hnat ha]
  split
  · next h =>
    simp only [UInt8.le_iff_toNat_le, UInt8.reduceToNat] at h
    have hsum : (a + 32).toNat = a.toNat + 32 := by
      rw [UInt8.toNat_add]
      simp only [UInt8.reduceToNat]
      omega
    rw [if_pos h, hsum, hnat (by omega)]
  · next h =>
    simp only [UInt8.le_iff_toNat_le, UInt8.reduceToNat] at h
    rw [if_neg h, hnat ha]

private theorem toLower_lt_iff (a : UInt8) : Byte.toLower a < 0x80 ↔ a < 0x80 := by
  unfold Byte.toLower
  split
  · next h =>
    simp only [UInt8.le_iff_toNat_le, UInt8.lt_iff_toNat_lt, UInt8.toNat_add,
      UInt8.reduceToNat] at h ⊢
    omega
  · rfl

/-- An ASCII byte is decoded to the character of its code. -/
theorem decode_cons_ascii {a : UInt8} (ha : a < 0x80) (rest : List UInt8) :
    decode (a :: rest) = Char.ofNat a.toNat :: decode rest := by
  rw [decode.eq_def]
  simp only [ha, if_true]

/-- Whether bytes or characters are brought into lower case, the characters agree in lower case. -/
theorem decode_map_toLower (bytes : List UInt8) :
    (decode (bytes.map Byte.toLower)).map Char.toLower = (decode bytes).map Char.toLower := by
  match bytes with
  | [] => rfl
  | a :: rest =>
    by_cases ha : a < 0x80
    · rw [List.map_cons, decode_cons_ascii ((toLower_lt_iff a).2 ha), decode_cons_ascii ha,
        List.map_cons, List.map_cons, ofNat_toLower ha, charToLower_charToLower,
        decode_map_toLower rest]
    -- The first byte says how long the character is, and beyond ASCII it is no letter.
    have hlead : Byte.toLower a = a := Byte.toLower_of_le (UInt8.not_lt.1 ha)
    by_cases htwo : a < 0xE0
    · match rest with
      | [] => simp [hlead, decode, ha, htwo]
      | b :: rest =>
        simp only [List.map_cons, hlead, decode, ha, htwo, if_false, if_true, payload_toLower,
          decode_map_toLower rest]
    by_cases hthree : a < 0xF0
    · match rest with
      | [] | [_] => simp [hlead, decode, ha, htwo, hthree]
      | b :: c :: rest =>
        simp only [List.map_cons, hlead, decode, ha, htwo, hthree, if_false, if_true,
          payload_toLower, decode_map_toLower rest]
    · match rest with
      | [] | [_] | [_, _] => simp [hlead, decode, ha, htwo, hthree]
      | b :: c :: d :: rest =>
        simp only [List.map_cons, hlead, decode, ha, htwo, hthree, if_false, payload_toLower,
          decode_map_toLower rest]
termination_by bytes.length

/-! ## Numbers -/

private theorem isDigit_charToLower (c : Char) : c.toLower.isDigit = c.isDigit := by
  have hdigit (c : Char) : c.isDigit = (decide (48 ≤ c.toNat) && decide (c.toNat ≤ 57)) := rfl
  rw [hdigit, hdigit, toNat_toLower]
  split
  · next h =>
    rw [decide_eq_false (p := c.toNat ≤ 57) (by omega),
      decide_eq_false (p := c.toNat + 32 ≤ 57) (by omega), Bool.and_false, Bool.and_false]
  · rfl

private theorem isMantissaChar_toLower (c : Char) :
    isMantissaChar c.toLower = isMantissaChar c := by
  rw [isMantissaChar, isMantissaChar, isDigit_charToLower, CaseView.lower.beq c (by decide),
    CaseView.lower.beq c (by decide)]

private theorem dropSign_cons {c : Char} (hplus : c ≠ '+') (hminus : c ≠ '-') (rest : List Char) :
    dropSign (c :: rest) = c :: rest := by
  unfold dropSign
  split
  · next h => exact absurd (List.cons.inj h).1 hplus
  · next h => exact absurd (List.cons.inj h).1 hminus
  · rfl

private theorem dropSign_map_toLower (chars : List Char) :
    dropSign (chars.map Char.toLower) = (dropSign chars).map Char.toLower := by
  match chars with
  | [] => rfl
  | c :: rest =>
    by_cases hplus : c = '+'
    · subst hplus
      rfl
    by_cases hminus : c = '-'
    · subst hminus
      rfl
    rw [dropSign_cons hplus hminus, List.map_cons,
      dropSign_cons (mt (charToLower_eq_iff (by decide)).1 hplus)
        (mt (charToLower_eq_iff (by decide)).1 hminus)]

private theorem all_isDigit_map_toLower (chars : List Char) :
    (chars.map Char.toLower).all Char.isDigit = chars.all Char.isDigit := by
  rw [List.all_map]
  congr 1
  funext c
  exact isDigit_charToLower c

private theorem isExponent_map_toLower (chars : List Char) :
    isExponent (chars.map Char.toLower) = isExponent chars := by
  cases chars with
  | nil => rfl
  | cons c rest =>
    simp only [List.map_cons, isExponent, charToLower_charToLower, dropSign_map_toLower,
      all_isDigit_map_toLower, List.isEmpty_map]

private theorem looksNumeric_lowerAscii (text : String) :
    looksNumeric (lowerAscii text) = looksNumeric text := by
  have hmantissa : isMantissaChar ∘ Char.toLower = isMantissaChar := funext isMantissaChar_toLower
  have hdigit : Char.isDigit ∘ Char.toLower = Char.isDigit := funext isDigit_charToLower
  simp only [looksNumeric, lowerAscii, String.toList_ofList, dropSign_map_toLower,
    List.takeWhile_map, List.dropWhile_map, hmantissa, List.any_map, hdigit, List.isEmpty_map,
    isExponent_map_toLower]

/-! ## Texts -/

/-- The text as it looks through a view of its characters. -/
def viewText (view : Char → Char) (text : String) : String := String.ofList (text.toList.map view)

/-- Viewing a text as it is changes nothing. -/
@[simp] theorem viewText_id (text : String) : viewText id text = text := by
  simp [viewText]

private theorem lowerAscii_viewText {view : Char → Char} (h : CaseView view) (text : String) :
    lowerAscii (viewText view text) = lowerAscii text := by
  have hview : Char.toLower ∘ view = Char.toLower := funext h.toLower
  rw [lowerAscii, viewText, String.toList_ofList, List.map_map, hview, lowerAscii]

/-- Texts that look the same differ at most in case. -/
theorem lowerAscii_eq_of_viewText_eq {view : Char → Char} (h : CaseView view) {t u : String}
    (htu : viewText view t = viewText view u) : lowerAscii t = lowerAscii u := by
  rw [← lowerAscii_viewText h t, htu, lowerAscii_viewText h u]

/-- Texts that may be missing look the same if both are missing or both look the same. -/
theorem cases_of_map_viewText_eq {view : Char → Char} {a b : Option String}
    (h : a.map (viewText view) = b.map (viewText view)) :
    (a = none ∧ b = none) ∨
      ∃ t u, a = some t ∧ b = some u ∧ viewText view t = viewText view u := by
  cases a with
  | none => exact .inl ⟨rfl, Option.map_eq_none_iff.1 h.symm⟩
  | some t =>
    obtain ⟨u, rfl, htu⟩ := Option.map_eq_some_iff.1 h.symm
    exact .inr ⟨t, u, rfl, rfl, htu.symm⟩

/-- Lower-casing a text keeps whether it starts with a given character that is no letter. -/
theorem head?_lowerAscii_beq (text : String) {c : Char} (hc : ¬IsLetterCode c.toNat) :
    ((lowerAscii text).toList.head? == some c) = (text.toList.head? == some c) := by
  rw [lowerAscii, String.toList_ofList, List.head?_map]
  cases text.toList.head? with
  | none => rfl
  | some d => exact CaseView.lower.beq d hc

/-- The case of a word does not matter to whether it is a symbol. -/
theorem isSymbolText_lowerAscii (text : String) :
    isSymbolText (lowerAscii text) = isSymbolText text := by
  have hdot : (lowerAscii text == ".") = (text == ".") := by
    rw [Bool.eq_iff_iff, beq_iff_eq, beq_iff_eq, ← String.toList_inj, ← String.toList_inj,
      lowerAscii, String.toList_ofList]
    match text.toList with
    | [] => simp
    | [c] => simpa using charToLower_eq_iff (c := c) (d := '.') (by decide)
    | _ :: _ :: _ => simp
  simp only [isSymbolText, bne, head?_lowerAscii_beq text (c := ':') (by decide), hdot,
    looksNumeric_lowerAscii]

/-! ## Lower case beyond ASCII -/

/-- A table of characters tells no letter apart by its case. -/
def CaseBlind (intervals : List (Nat × Nat)) : Prop :=
  ∀ i < 26, inIntervals intervals (65 + i + 32) = inIntervals intervals (65 + i)

instance (intervals : List (Nat × Nat)) : Decidable (CaseBlind intervals) :=
  inferInstanceAs (Decidable (∀ i < 26, _))

private theorem CaseBlind.toLower {intervals : List (Nat × Nat)} (h : CaseBlind intervals)
    (c : Char) :
    inIntervals intervals c.toLower.toNat = inIntervals intervals c.toNat := by
  rw [toNat_toLower]
  split
  · have := h (c.toNat - 65) (by omega)
    rwa [show 65 + (c.toNat - 65) = c.toNat by omega] at this
  · rfl

/-- A table without letters is blind to their case. -/
theorem CaseBlind.of_apart {intervals : List (Nat × Nat)}
    (h : ∀ r ∈ intervals, r.2 < 65 ∨ (90 < r.1 ∧ r.2 < 97) ∨ 122 < r.1) :
    CaseBlind intervals := by
  have hnot {n : Nat} (hn : IsLetterCode n) : inIntervals intervals n = false := by
    rw [inIntervals, List.any_eq_false]
    intro r hr
    have := h r hr
    unfold IsLetterCode at hn
    simp only [Bool.and_eq_true, decide_eq_true_eq]
    omega
  intro i hi
  rw [hnot (.inr (by omega)), hnot (.inl (by omega))]

private theorem caseBlind_cased : CaseBlind CaseTable.cased := by decide +kernel

private theorem caseBlind_ignorable : CaseBlind CaseTable.ignorable := .of_apart (by decide +kernel)

private theorem reachesCased_map_toLower (chars : List Char) :
    reachesCased (chars.map Char.toLower) = reachesCased chars := by
  have hignorable : (fun c : Char => !inIntervals CaseTable.ignorable c.toNat) ∘ Char.toLower =
      fun c => !inIntervals CaseTable.ignorable c.toNat := by
    funext c
    simp only [Function.comp, caseBlind_ignorable.toLower]
  simp only [reachesCased, List.find?_map, hignorable]
  cases chars.find? fun c => !inIntervals CaseTable.ignorable c.toNat with
  | none => rfl
  | some c => exact caseBlind_cased.toLower c

private theorem lowerChar_toLower (c : Char) : lowerChar c.toLower = lowerChar c := by
  rcases Nat.lt_or_ge c.toNat 128 with hlt | hge
  · have hlow : c.toLower.toNat < 128 := by
      rw [toNat_toLower]
      split <;> omega
    rw [lowerChar, if_pos hlow, lowerChar, if_pos hlt, charToLower_charToLower]
  · rw [charToLower_of_le hge]

private theorem lowerChars_map_toLower (before chars : List Char) :
    lowerChars (before.map Char.toLower) (chars.map Char.toLower) = lowerChars before chars := by
  induction chars generalizing before with
  | nil => rfl
  | cons c rest ih =>
    simp only [List.map_cons, lowerChars, CaseView.lower.beq c (d := 'Σ') (by decide),
      CaseView.lower.beq c (d := 'İ') (by decide), reachesCased_map_toLower, lowerChar_toLower,
      ← ih (c :: before)]

/-- Lower case does not depend on the case of ASCII letters. -/
theorem lowerCase_lowerAscii (text : String) : lowerCase (lowerAscii text) = lowerCase text := by
  rw [lowerCase, lowerAscii, String.toList_ofList, lowerCase]
  exact congrArg String.ofList (lowerChars_map_toLower [] text.toList)

/-! ## Parts of texts -/

private theorem isPrefixOf_map_toLower {beginning : List Char}
    (h : beginning.any (fun c => decide (IsLetterCode c.toNat)) = false) (chars : List Char) :
    beginning.isPrefixOf (chars.map Char.toLower) = beginning.isPrefixOf chars := by
  induction beginning generalizing chars with
  | nil => cases chars <;> rfl
  | cons d beginning ih =>
    rw [List.any_cons, Bool.or_eq_false_iff, decide_eq_false_iff_not] at h
    cases chars with
    | nil => rfl
    | cons c chars =>
      rw [List.map_cons, List.isPrefixOf, List.isPrefixOf, ih h.2, Bool.beq_comm (a := d),
        CaseView.lower.beq c h.1, Bool.beq_comm (a := d)]

private theorem afterBeginning?_lowerAscii (beginning : String)
    (h : beginning.toList.any (fun c => decide (IsLetterCode c.toNat)) = false) (text : String) :
    afterBeginning? beginning (lowerAscii text) =
      (afterBeginning? beginning text).map lowerAscii := by
  rw [afterBeginning?, lowerAscii, String.toList_ofList, isPrefixOf_map_toLower h, afterBeginning?]
  split
  · simp [lowerAscii]
  · rfl

/-- Only a backslash is unescaped. -/
theorem unescape_cons {c : Char} (h : c ≠ '\\') (rest : List Char) :
    unescape (c :: rest) = c :: unescape rest := by
  rw [unescape]
  · rintro rfl
    exact absurd rfl h
  · rintro _ _ rfl
    exact absurd rfl h

private theorem unescape_map {view : Char → Char} (h : CaseView view) (chars : List Char) :
    unescape (chars.map view) = (unescape chars).map view := by
  have hescape : view '\\' = '\\' := (h.eq_iff (by decide)).2 rfl
  fun_induction unescape chars with
  | case1 => rfl
  | case2 => simp [hescape, unescape]
  | case3 c rest ih => simp [hescape, unescape, ih]
  | case4 c rest hlast hnext ih =>
    have hc : c ≠ '\\' := by
      rintro rfl
      cases rest with
      | nil => exact hlast rfl rfl
      | cons d rest => exact hnext d rest rfl rfl
    rw [List.map_cons, unescape_cons (mt (h.eq_iff (by decide)).1 hc), ih, List.map_cons]

private theorem literalContents_map {view : Char → Char} (h : CaseView view) (chars : List Char) :
    literalContents (chars.map view) = (literalContents chars).map (·.map view) := by
  have hquote : view '"' = '"' := (h.eq_iff (by decide)).2 rfl
  have hlast (rest : List Char) :
      ((rest.map view).getLast? == some '"') = (rest.getLast? == some '"') := by
    rw [List.getLast?_map]
    cases rest.getLast? with
    | none => rfl
    | some c => exact h.beq c (by decide)
  fun_cases literalContents chars with
  | case1 rest =>
    rw [List.map_cons, hquote, literalContents, hlast, ← List.map_dropLast, Option.map_some,
      ← unescape_map h]
    split <;> rfl
  | case2 chars hopen =>
    match chars, hopen with
    | [], _ => rfl
    | c :: rest, hopen =>
      have hc : view c ≠ '"' := fun heq => hopen rest (by rw [(h.eq_iff (by decide)).1 heq])
      rw [List.map_cons, literalContents]
      · rfl
      · exact fun _ heq => hc (List.cons.inj heq).1

/-- The contents of a literal look like the contents of what it looks like. -/
theorem map_viewText_literalContents {view : Char → Char} (h : CaseView view) (text : String) :
    ((literalContents text.toList).map String.ofList).map (viewText view) =
      (literalContents (viewText view text).toList).map String.ofList := by
  rw [viewText, String.toList_ofList, literalContents_map h, Option.map_map, Option.map_map]
  congr 1
  funext contents
  simp [viewText]

/-- A package is named without the marker before its symbol, in either case. -/
theorem lowerAscii_packageText (text : String) :
    lowerAscii ((["#:", ":"].findSome? (afterBeginning? · text)).getD text) =
      (["#:", ":"].findSome? (afterBeginning? · (lowerAscii text))).getD (lowerAscii text) := by
  have hsharp := afterBeginning?_lowerAscii "#:" (by decide) text
  have hcolon := afterBeginning?_lowerAscii ":" (by decide) text
  simp only [List.findSome?_cons, List.findSome?_nil, hsharp, hcolon]
  cases afterBeginning? "#:" text with
  | some rest => rfl
  | none => cases afterBeginning? ":" text <;> rfl

/-- Texts that differ in case have bytes that differ in case. -/
theorem map_toLower_bytes_of_sameWord {t u : String} (h : sameWord t u = true) :
    (bytes t).map Byte.toLower = (bytes u).map Byte.toLower := by
  have hlower : lowerAscii t = lowerAscii u := by simpa [sameWord] using h
  rw [lowerAscii, lowerAscii, ← String.toList_inj, String.toList_ofList,
    String.toList_ofList] at hlower
  rw [bytes, bytes, ← encode_map_toLower, ← encode_map_toLower, hlower]

end LexScope
