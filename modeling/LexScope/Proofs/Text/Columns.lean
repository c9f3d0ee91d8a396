import LexScope.Proofs.Text.Boundary
import LexScope.Text.Lines

/-!
# Lines and columns along a text

Lines go up with the offset, and on one line a later offset is as many units further right as the
text between the two is long. A unit is that of UTF-16, and no character has more units than bytes,
so lines and columns are no greater than the size of the text.
-/

namespace LexScope

namespace Utf8

/-! ## Units of some bytes -/

/-- The unit length of two pieces is the sum of theirs. -/
@[simp] theorem unitLength_append (a b : List UInt8) :
    unitLength (a ++ b) = unitLength a + unitLength b := by
  induction a with
  | nil => simp [unitLength]
  | cons c rest ih => simp [unitLength, ih, Nat.add_assoc]

/-- The rest of a character adds nothing to the unit or the two units of its first byte. -/
theorem unitLength_of_isContinuation {bytes : List UInt8}
    (h : ∀ b ∈ bytes, Byte.isContinuation b = true) : unitLength bytes = 0 := by
  induction bytes with
  | nil => rfl
  | cons b rest ih =>
    obtain ⟨hb, hrest⟩ := List.forall_mem_cons.1 h
    rw [unitLength, ih hrest, units, if_pos hb]

/-- No character has more units than bytes. -/
theorem unitLength_utf8EncodeChar_le (c : Char) :
    unitLength (String.utf8EncodeChar c) ≤ (String.utf8EncodeChar c).length := by
  rcases utf8EncodeChar_cases c with ⟨hc, henc⟩ | ⟨hc, first, rest, henc, -, hrest⟩
  · have hunits : units (UInt8.ofNat c.toNat) ≤ 1 := by
      have hlt : UInt8.ofNat c.toNat < 0xF0 := by
        simp only [UInt8.lt_iff_toNat_lt, UInt8.toNat_ofNat', UInt8.reduceToNat]
        omega
      rw [units, if_pos hlt]
      split <;> omega
    rw [henc]
    simpa [unitLength] using hunits
  · have hunits : units first ≤ 2 := by
      unfold units
      split
      · omega
      · split <;> omega
    have hlength : 2 ≤ (String.utf8EncodeChar c).length := by
      have hone : c.utf8Size ≠ 1 := by
        rw [ne_eq, Char.utf8Size_eq_one_iff, UInt32.le_iff_toNat_le]
        exact Nat.not_le.2 hc
      have hpos := c.utf8Size_pos
      rw [String.length_utf8EncodeChar]
      omega
    rw [henc] at hlength ⊢
    rw [unitLength, unitLength_of_isContinuation hrest]
    omega

/-- No text has more units than bytes. -/
theorem unitLength_encode_le (chars : List Char) :
    unitLength (encode chars) ≤ (encode chars).length := by
  induction chars with
  | nil => exact Nat.le_refl _
  | cons c rest ih =>
    have hc := unitLength_utf8EncodeChar_le c
    rw [encode_cons, unitLength_append, List.length_append]
    omega

variable {source : List UInt8}

/-- The bytes of two neighbouring spans are those of the span that covers them. -/
theorem cut_append {a b c : Nat} (hab : a ≤ b) (hbc : b ≤ c) :
    cut source ⟨a, b⟩ ++ cut source ⟨b, c⟩ = cut source ⟨a, c⟩ := by
  have hsplit : c - a = (b - a) + (c - b) := by omega
  simp only [cut, Span.length, hsplit, List.take_add, List.drop_drop, Nat.add_sub_cancel' hab]

/-- The bytes cut out are as many as the bounds are apart. -/
theorem length_cut {a b : Nat} (h : b ≤ source.length) : (cut source ⟨a, b⟩).length = b - a := by
  simp only [cut, Span.length, List.length_take, List.length_drop]
  omega

/-- The first bytes of a cut are a shorter cut. -/
theorem take_cut {a b k : Nat} (h : a + k ≤ b) :
    (cut source ⟨a, b⟩).take k = cut source ⟨a, a + k⟩ := by
  have hmin : min k (b - a) = a + k - a := by omega
  simp only [cut, Span.length, List.take_take, hmin]

/-- A byte of a cut is a byte of the source. -/
theorem getElem?_cut {a b k : Nat} (h : a + k < b) : (cut source ⟨a, b⟩)[k]? = source[a + k]? := by
  have hlt : k < b - a := by omega
  simp only [cut, Span.length, List.getElem?_take_of_lt hlt, List.getElem?_drop]

/-- Where the text can be cut, a character starts, so something that is not empty has a unit. -/
theorem unitLength_cut_pos {s : Span} (h : Fits source s) (hlt : s.start < s.stop) :
    0 < unitLength (cut source s) := by
  have hget : s.start < source.length := Nat.lt_of_lt_of_le hlt h.stop_le_length
  have hstart := h.start
  rw [Boundary, isBoundary, List.getElem?_eq_getElem hget] at hstart
  have hcut : cut source s = source[s.start] :: cut source ⟨s.start + 1, s.stop⟩ := by
    have hlength : s.stop - s.start = s.stop - (s.start + 1) + 1 := by omega
    rw [cut, Span.length, List.drop_eq_getElem_cons hget, hlength, List.take_succ_cons]
    rfl
  rw [hcut, unitLength, units]
  simp only [Bool.not_eq_true'] at hstart
  rw [hstart]
  simp only [Bool.false_eq_true, if_false]
  split <;> omega

/-- What lies between two boundaries of a text has no more units than bytes. -/
theorem unitLength_cut_le {text : String} {s : Span} (h : Fits (bytes text) s) :
    unitLength (cut (bytes text) s) ≤ (bytes text).length := by
  obtain ⟨before, after, hchars, hstop⟩ := exists_chars_of_boundary h.stop
  have hbytes : bytes text = encode before ++ encode after := by
    rw [bytes, hchars, encode_append]
  have hprefix : (bytes text).take s.stop = encode before := by
    rw [hbytes, hstop, List.take_left]
  have hcut : cut (bytes text) ⟨0, s.start⟩ ++ cut (bytes text) s = encode before := by
    have hjoined : cut (bytes text) ⟨0, s.start⟩ ++ cut (bytes text) ⟨s.start, s.stop⟩ =
        cut (bytes text) ⟨0, s.stop⟩ := cut_append (Nat.zero_le s.start) h.ordered
    rw [← hprefix]
    simpa [cut, Span.length] using hjoined
  have hunits := unitLength_encode_le before
  have hlength : (encode before).length ≤ (bytes text).length := by
    rw [hbytes, List.length_append]
    omega
  rw [← hcut, unitLength_append] at hunits
  rw [← hcut] at hlength
  omega

end Utf8

namespace Lines

open Utf8

/-! ## Starts of lines -/

/-- A line starts right after a newline. -/
theorem newline_of_mem_startsFrom {pos start : Nat} {bytes : List UInt8}
    (h : start ∈ startsFrom pos bytes) :
    ∃ i, start = pos + i + 1 ∧ bytes[i]? = some Byte.newline := by
  induction bytes generalizing pos with
  | nil => cases h
  | cons b rest ih =>
    rw [startsFrom] at h
    have hlater (hrest : start ∈ startsFrom (pos + 1) rest) :
        ∃ i, start = pos + i + 1 ∧ (b :: rest)[i]? = some Byte.newline := by
      obtain ⟨i, hi, hget⟩ := ih hrest
      exact ⟨i + 1, by omega, hget⟩
    split at h
    · next hb =>
      rcases List.mem_cons.1 h with rfl | h
      · exact ⟨0, rfl, by rw [eq_of_beq hb]; rfl⟩
      · exact hlater h
    · exact hlater h

variable {source : List UInt8}

/-- Lines start at boundaries. -/
theorem boundary_of_mem_starts (hclean : Clean source) {start : Nat}
    (h : start ∈ (ofBytes source).starts) : Boundary source start := by
  rcases List.mem_cons.1 h with rfl | h
  · exact hclean.zero
  · obtain ⟨i, rfl, hget⟩ := newline_of_mem_startsFrom h
    rw [Nat.zero_add]
    exact hclean.succ i _ hget (by decide)

private theorem length_startsFrom_le (pos : Nat) (bytes : List UInt8) :
    (startsFrom pos bytes).length ≤ bytes.length := by
  induction bytes generalizing pos with
  | nil => exact Nat.le_refl _
  | cons b rest ih =>
    have := ih (pos + 1)
    rw [startsFrom]
    split <;> simp only [List.length_cons] <;> omega

/-- There are no more lines than bytes, the first one apart. -/
theorem lineOf_le (source : List UInt8) (offset : Nat) :
    (ofBytes source).lineOf offset ≤ source.length := by
  have htake := (List.takeWhile_sublist (fun s => decide (s ≤ offset))
    (l := (ofBytes source).starts)).length_le
  have hstarts := length_startsFrom_le 0 source
  simp only [lineOf, ofBytes, List.length_cons] at htake ⊢
  omega

/-- A later offset lies on no earlier line. -/
theorem lineOf_mono (l : Lines) {a b : Nat} (h : a ≤ b) : l.lineOf a ≤ l.lineOf b := by
  have hmono (starts : List Nat) : (starts.takeWhile fun s => decide (s ≤ a)).length ≤
      (starts.takeWhile fun s => decide (s ≤ b)).length := by
    induction starts with
    | nil => exact Nat.le_refl _
    | cons start rest ih =>
      by_cases hstart : start ≤ a
      · have hstart' : start ≤ b := Nat.le_trans hstart h
        simpa [List.takeWhile_cons, hstart, hstart'] using ih
      · simp [List.takeWhile_cons, hstart]
  have := hmono l.starts
  unfold lineOf
  omega

/-- Where the line of an offset starts. -/
def startOf (l : Lines) (offset : Nat) : Nat := (l.starts[l.lineOf offset]?).getD 0

/-- The line of an offset starts no later than the offset. -/
theorem startOf_spec (source : List UInt8) (offset : Nat) :
    (ofBytes source).startOf offset ∈ (ofBytes source).starts ∧
      (ofBytes source).startOf offset ≤ offset := by
  generalize hbefore : (ofBytes source).starts.takeWhile (fun s => decide (s ≤ offset)) = before
  have hline : (ofBytes source).lineOf offset < before.length := by
    have hcons : before = 0 :: (startsFrom 0 source).takeWhile fun s => decide (s ≤ offset) := by
      rw [← hbefore]
      simp [ofBytes]
    rw [lineOf, hbefore, hcons, List.length_cons]
    omega
  have hget : (ofBytes source).starts[(ofBytes source).lineOf offset]? =
      some before[(ofBytes source).lineOf offset] := by
    have hsplit := List.takeWhile_append_dropWhile (p := fun s => decide (s ≤ offset))
      (l := (ofBytes source).starts)
    rw [hbefore] at hsplit
    rw [← hsplit, List.getElem?_append_left hline, List.getElem?_eq_getElem hline]
  have hbounds : ∀ s ∈ before, s ∈ (ofBytes source).starts ∧ s ≤ offset := by
    intro s hs
    rw [← hbefore] at hs
    exact ⟨(List.takeWhile_sublist _).subset hs,
      of_decide_eq_true (List.all_eq_true.1 List.all_takeWhile s hs)⟩
  rw [startOf, hget, Option.getD_some]
  exact hbounds _ (List.getElem_mem hline)

/-! ## Places of offsets -/

/-- The unit length of a span that fits is that of the bytes it cuts out. -/
theorem unitLength_of_fits {s : Span} (h : Fits source s) :
    (ofBytes source).unitLength s = Utf8.unitLength (cut source s) := by
  have hcut : cut? source s = some (cut source s) :=
    if_pos ⟨h.ordered, h.stop_le_length, h.start, h.stop⟩
  rw [unitLength, ofBytes, hcut]
  rfl

/-- What lies between the start of its line and an offset. -/
theorem fits_startOf (hclean : Clean source) {offset : Nat} (h : Boundary source offset) :
    Fits source ⟨(ofBytes source).startOf offset, offset⟩ := by
  obtain ⟨hmem, hle⟩ := startOf_spec source offset
  exact .of_le hle (boundary_of_mem_starts hclean hmem) h

/-- The place of a boundary: its line, and the units from the start of the line on. -/
theorem position_of_boundary (hclean : Clean source) {offset : Nat} (h : Boundary source offset) :
    (ofBytes source).position offset =
      ⟨(ofBytes source).lineOf offset,
        Utf8.unitLength (cut source ⟨(ofBytes source).startOf offset, offset⟩)⟩ := by
  have hmin : min offset source.length = offset := Nat.min_eq_left h.le_length
  rw [← unitLength_of_fits (fits_startOf hclean h)]
  simp only [position, startOf, ofBytes, hmin]

/-- On one line, a later place is as many units further right as the text between is long. -/
theorem character_add (hclean : Clean source) {s : Span} (h : Fits source s)
    (hline : (ofBytes source).lineOf s.start = (ofBytes source).lineOf s.stop) :
    ((ofBytes source).position s.start).character + (ofBytes source).unitLength s =
      ((ofBytes source).position s.stop).character := by
  have hstart : (ofBytes source).startOf s.stop = (ofBytes source).startOf s.start := by
    rw [startOf, startOf, hline]
  have hle := (startOf_spec source s.start).2
  rw [position_of_boundary hclean h.start, position_of_boundary hclean h.stop,
    unitLength_of_fits h, hstart, ← cut_append hle h.ordered, unitLength_append]

/-- The line of a boundary is that of its place. -/
theorem line_position (hclean : Clean source) {offset : Nat} (h : Boundary source offset) :
    ((ofBytes source).position offset).line = (ofBytes source).lineOf offset := by
  rw [position_of_boundary hclean h]

end Lines

end LexScope
