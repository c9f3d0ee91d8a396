import LexScope.Proofs.Text.Columns

/-!
# Offsets and places

An offset has a place, by line and column, and a place has an offset. Going to the place of a
boundary and back leads to the same offset, except from behind a carriage return that ends a line,
which belongs to no column. A later boundary has a later place, and a place that stands for no
boundary means the least one of its line that is no further left, or the end of the line.

Lines are counted by the newlines before them, so that none of this mentions the table of starts.
-/

namespace LexScope

open Utf8

/-- The place comes first, line by line and from left to right. -/
def Position.Before (p q : Position) : Prop :=
  p.line < q.line ∨ p.line = q.line ∧ p.character < q.character

namespace Utf8

/-! ## Bytes of a span -/

section Cut

variable {source : List UInt8} {a b : Nat}

/-- On the way along a text the units go up from boundary to boundary. -/
theorem unitLength_cut_lt {c : Nat} (hab : a ≤ b) (h : Fits source ⟨b, c⟩) (hlt : b < c) :
    unitLength (cut source ⟨a, b⟩) < unitLength (cut source ⟨a, c⟩) := by
  have hpos := unitLength_cut_pos h hlt
  rw [← cut_append hab (Nat.le_of_lt hlt), unitLength_append]
  omega

end Cut

/-- What `offsetFrom` finds among some bytes is the first boundary whose column is no less than the
target, or their end. -/
theorem offsetFrom_spec (target column : Nat) (bytes : List UInt8) :
    offsetFrom target column bytes ≤ bytes.length ∧
      (offsetFrom target column bytes < bytes.length →
        target ≤ column + unitLength (bytes.take (offsetFrom target column bytes)) ∧
          ∃ b, bytes[offsetFrom target column bytes]? = some b ∧ Byte.isContinuation b = false) ∧
      ∀ k < offsetFrom target column bytes, ∀ b, bytes[k]? = some b →
        Byte.isContinuation b = false → column + unitLength (bytes.take k) < target := by
  induction bytes generalizing column with
  | nil => simp [offsetFrom]
  | cons b rest ih =>
    rw [offsetFrom]
    split
    · next hhere =>
      simp only [Bool.and_eq_true, decide_eq_true_eq, Bool.not_eq_true'] at hhere
      refine ⟨Nat.zero_le _, fun _ => ⟨hhere.1, b, rfl, hhere.2⟩, ?_⟩
      exact fun k hk => absurd hk (Nat.not_lt_zero k)
    · next hlater =>
      obtain ⟨hle, hreaches, hleast⟩ := ih (column + units b)
      rw [Nat.add_comm 1]
      refine ⟨Nat.succ_le_succ hle, fun hlt => ?_, fun k hk d hd hstart => ?_⟩
      · obtain ⟨htarget, hboundary⟩ := hreaches (Nat.lt_of_succ_lt_succ hlt)
        rw [List.take_succ_cons, unitLength, ← Nat.add_assoc]
        exact ⟨htarget, hboundary⟩
      · cases k with
        | zero =>
          cases hd
          simpa [hstart, unitLength] using hlater
        | succ k =>
          rw [List.take_succ_cons, unitLength, ← Nat.add_assoc]
          exact hleast k (Nat.lt_of_succ_lt_succ hk) d hd hstart

end Utf8

namespace Lines

/-! ## Lines by their newlines -/

/-- The line of this number starts at the offset: at the start of the text, or after the newline
that ends the line before. -/
structure StartsLine (source : List UInt8) (line start : Nat) : Prop where
  /-- The line starts in the text, or at its end. -/
  le : start ≤ source.length
  /-- A newline comes right before it, if anything does. -/
  newline : 0 < start → source[start - 1]? = some Byte.newline
  /-- As many newlines come before it as its number says. -/
  count : (source.take start).count Byte.newline = line

/-- A line ends at the offset: a newline stands there, or nothing, or a carriage return in front of
either. -/
def EndsLine (source : List UInt8) (offset : Nat) : Prop :=
  offset = source.length ∨ source[offset]? = some Byte.newline ∨
    source[offset]? = some Byte.carriageReturn ∧
      (offset + 1 = source.length ∨ source[offset + 1]? = some Byte.newline)

/-- The line of this number lies between the two offsets, its end apart. -/
structure IsLine (source : List UInt8) (line start stop : Nat) : Prop extends
    StartsLine source line start where
  /-- The offsets are in order. -/
  start_le : start ≤ stop
  /-- The line ends at the second one, -/
  ends : EndsLine source stop
  /-- and not before. -/
  goesOn : ∀ offset, start ≤ offset → offset < stop → ¬EndsLine source offset

/-- The offset stands behind a carriage return that belongs to the end of a line. -/
def EndsInReturn (source : List UInt8) (offset : Nat) : Prop :=
  0 < offset ∧ source[offset - 1]? = some Byte.carriageReturn ∧
    (offset = source.length ∨ source[offset]? = some Byte.newline)

/-- The offset is what a column of a line stands for: the least boundary of the line that is no
further left, or the end of the line. -/
structure StandsFor (source : List UInt8) (start stop column offset : Nat) : Prop where
  /-- The offset is one of the line, -/
  start_le : start ≤ offset
  /-- or its end. -/
  le_stop : offset ≤ stop
  /-- The text can be cut there. -/
  boundary : Boundary source offset
  /-- Its column is no further left, unless the line ends there. -/
  reaches : offset = stop ∨ column ≤ Utf8.unitLength (cut source ⟨start, offset⟩)
  /-- All boundaries before it are further left. -/
  least : ∀ before, Boundary source before → start ≤ before → before < offset →
    Utf8.unitLength (cut source ⟨start, before⟩) < column

section Starts

variable {source : List UInt8} {line start offset : Nat}

/-- The starts that come no later than an offset are counted by the newlines before it. -/
theorem length_takeWhile_startsFrom (pos offset : Nat) (bytes : List UInt8) :
    ((startsFrom pos bytes).takeWhile fun s => decide (s ≤ offset)).length =
      (bytes.take (offset - pos)).count Byte.newline := by
  induction bytes generalizing pos with
  | nil => simp [startsFrom]
  | cons b rest ih =>
    rw [startsFrom]
    rcases Nat.lt_or_ge pos offset with hlt | hge
    · obtain ⟨k, hk⟩ : ∃ k, offset - pos = k + 1 := ⟨offset - pos - 1, by omega⟩
      have hrest : offset - (pos + 1) = k := by omega
      have hle : pos + 1 ≤ offset := hlt
      rw [hk, List.take_succ_cons, List.count_cons]
      split
      · rw [List.takeWhile_cons_of_pos (by simpa using hle), List.length_cons, ih, hrest]
      · rw [ih, hrest, Nat.add_zero]
    · have hzero : offset - pos = 0 := by omega
      have hrest : offset - (pos + 1) = 0 := by omega
      have hlate : ¬pos + 1 ≤ offset := by omega
      rw [hzero, List.take_zero, List.count_nil]
      split
      · rw [List.takeWhile_cons_of_neg (by simpa using hlate), List.length_nil]
      · rw [ih, hrest, List.take_zero, List.count_nil]

/-- The line of an offset is the number of newlines before it. -/
theorem lineOf_eq (source : List UInt8) (offset : Nat) :
    (ofBytes source).lineOf offset = (source.take offset).count Byte.newline := by
  rw [lineOf, ofBytes, List.takeWhile_cons_of_pos (by simp), List.length_cons,
    length_takeWhile_startsFrom, Nat.sub_zero, Nat.add_sub_cancel]

private theorem count_ofBytes (source : List UInt8) :
    (ofBytes source).count = source.count Byte.newline + 1 := by
  have hlength (pos : Nat) (bytes : List UInt8) :
      (startsFrom pos bytes).length = bytes.count Byte.newline := by
    induction bytes generalizing pos with
    | nil => rfl
    | cons b rest ih =>
      rw [startsFrom, List.count_cons]
      split
      · rw [List.length_cons, ih]
      · rw [ih, Nat.add_zero]
  rw [count, ofBytes, List.length_cons, hlength]

/-- A line starts behind the newline that has as many newlines before it as lines come in
between. -/
theorem getElem?_startsFrom {pos k : Nat} {bytes : List UInt8}
    (h : (startsFrom pos bytes)[k]? = some start) :
    ∃ i, start = pos + i + 1 ∧ bytes[i]? = some Byte.newline ∧
      (bytes.take i).count Byte.newline = k := by
  induction bytes generalizing pos k with
  | nil => simp [startsFrom] at h
  | cons b rest ih =>
    rw [startsFrom] at h
    split at h
    · next hb =>
      cases k with
      | zero =>
        simp only [List.getElem?_cons_zero, Option.some.injEq] at h
        exact ⟨0, h.symm, by rw [List.getElem?_cons_zero, eq_of_beq hb], rfl⟩
      | succ k =>
        obtain ⟨i, hi, hget, hcount⟩ := ih h
        refine ⟨i + 1, by omega, hget, ?_⟩
        rw [List.take_succ_cons, List.count_cons, if_pos hb, hcount]
    · next hb =>
      obtain ⟨i, hi, hget, hcount⟩ := ih h
      refine ⟨i + 1, by omega, hget, ?_⟩
      rw [List.take_succ_cons, List.count_cons, if_neg hb, hcount, Nat.add_zero]

/-- The table of starts says where lines start. -/
theorem startsLine_of_getElem? (h : (ofBytes source).starts[line]? = some start) :
    StartsLine source line start := by
  cases line with
  | zero =>
    simp only [ofBytes, List.getElem?_cons_zero, Option.some.injEq] at h
    subst h
    exact ⟨Nat.zero_le _, fun h => absurd h (Nat.lt_irrefl 0), rfl⟩
  | succ line =>
    obtain ⟨i, rfl, hget, hcount⟩ := getElem?_startsFrom (show (startsFrom 0 source)[line]? =
      some start from h)
    have hlt := (List.getElem?_eq_some_iff.1 hget).1
    simp only [Nat.zero_add]
    refine ⟨hlt, fun _ => hget, ?_⟩
    rw [List.take_add_one, hget, List.count_append, hcount]
    rfl

/-- Every line of the text starts somewhere. -/
theorem exists_startsLine (h : line < (ofBytes source).count) :
    ∃ start, (ofBytes source).starts[line]? = some start ∧ StartsLine source line start :=
  ⟨_, List.getElem?_eq_getElem h, startsLine_of_getElem? (List.getElem?_eq_getElem h)⟩

/-- Between offsets with the same number of newlines before them no newline stands. -/
theorem not_newline_of_count_eq {a b i : Nat}
    (hcount : (source.take a).count Byte.newline = (source.take b).count Byte.newline)
    (hle : a ≤ i) (hlt : i < b) : source[i]? ≠ some Byte.newline := by
  intro hget
  have hmem : Byte.newline ∈ (source.take b).drop a := by
    refine List.mem_of_getElem? (i := i - a) ?_
    rw [List.getElem?_drop, Nat.add_sub_cancel' hle, List.getElem?_take_of_lt hlt, hget]
  have hsplit := congrArg (List.count Byte.newline) (List.take_append_drop a (source.take b))
  rw [List.count_append, List.take_take, Nat.min_eq_left (by omega)] at hsplit
  have := List.count_pos_iff.2 hmem
  omega

/-- No line starts twice. -/
theorem StartsLine.unique {start' : Nat} (h : StartsLine source line start)
    (h' : StartsLine source line start') : start = start' := by
  have hle {a b : Nat} (ha : StartsLine source line a) (hb : StartsLine source line b) : b ≤ a := by
    rw [← Nat.not_lt]
    intro hlt
    exact not_newline_of_count_eq (ha.count.trans hb.count.symm) (by omega : a ≤ b - 1) (by omega)
      (hb.newline (by omega))
  exact Nat.le_antisymm (hle h' h) (hle h h')

/-- A line ends in one place only. -/
theorem IsLine.unique {start' stop stop' : Nat} (h : IsLine source line start stop)
    (h' : IsLine source line start' stop') : start = start' ∧ stop = stop' := by
  obtain rfl := h.toStartsLine.unique h'.toStartsLine
  have hle {a b : Nat} (ha : IsLine source line start a) (hb : IsLine source line start b) :
      b ≤ a := by
    rw [← Nat.not_lt]
    exact fun hlt => hb.goesOn a ha.start_le hlt ha.ends
  exact ⟨rfl, Nat.le_antisymm (hle h' h) (hle h h')⟩

/-- No byte of a line is part of a newline. -/
theorem IsLine.not_newline {stop i : Nat} (h : IsLine source line start stop) (hle : start ≤ i)
    (hlt : i < stop) : source[i]? ≠ some Byte.newline :=
  fun hget => h.goesOn i hle hlt (.inr (.inl hget))

end Starts

/-! ## The bytes of a line -/

section Bytes

variable {source : List UInt8} {line start : Nat}

/-- The bytes of a line are those up to the next newline or the end of the text, without a carriage
return before that. -/
theorem exists_next (h : (ofBytes source).starts[line]? = some start) :
    ∃ next, start ≤ next ∧ (next = source.length ∨ source[next]? = some Byte.newline) ∧
      (∀ i, start ≤ i → i < next → source[i]? ≠ some Byte.newline) ∧
      (ofBytes source).lineBytes line =
        some (if (cut source ⟨start, next⟩).getLast? == some Byte.carriageReturn then
          (cut source ⟨start, next⟩).dropLast else cut source ⟨start, next⟩) := by
  have hstart := startsLine_of_getElem? h
  cases hnext : (ofBytes source).starts[line + 1]? with
  | some next =>
    have hafter := startsLine_of_getElem? hnext
    have hlt : start < next := by
      rw [← Nat.not_le]
      intro hle
      have hmono := lineOf_mono (ofBytes source) hle
      rw [lineOf_eq, lineOf_eq, hstart.count, hafter.count] at hmono
      omega
    have hget := hafter.newline (by omega)
    have hcount : (source.take start).count Byte.newline =
        (source.take (next - 1)).count Byte.newline := by
      have hsplit := hafter.count
      rw [← Nat.sub_add_cancel (by omega : 1 ≤ next), List.take_add_one, hget,
        List.count_append] at hsplit
      have hone : List.count Byte.newline (some Byte.newline).toList = 1 := rfl
      have := hstart.count
      omega
    refine ⟨next - 1, by omega, .inr hget, fun i => not_newline_of_count_eq hcount, ?_⟩
    rw [lineBytes, h, Option.map_some, hnext]
    rfl
  | none =>
    have hlast : (ofBytes source).count ≤ line + 1 := List.getElem?_eq_none_iff.1 hnext
    have hline : line < (ofBytes source).count := (List.getElem?_eq_some_iff.1 h).1
    have hcount : (source.take start).count Byte.newline =
        (source.take source.length).count Byte.newline := by
      rw [List.take_length, hstart.count]
      rw [count_ofBytes] at hlast hline
      omega
    refine ⟨source.length, hstart.le, .inl rfl, fun i => not_newline_of_count_eq hcount, ?_⟩
    rw [lineBytes, h, Option.map_some, hnext]
    rfl

/-- The bytes of a line are those between its start and its end. -/
theorem exists_isLine (h : (ofBytes source).starts[line]? = some start) :
    ∃ stop, IsLine source line start stop ∧
      (ofBytes source).lineBytes line = some (cut source ⟨start, stop⟩) := by
  have hstart := startsLine_of_getElem? h
  obtain ⟨next, hle, hend, hplain, hbytes⟩ := exists_next h
  have hlength : next ≤ source.length := by
    rcases hend with rfl | hget
    · exact Nat.le_refl _
    · exact Nat.le_of_lt (List.getElem?_eq_some_iff.1 hget).1
  have hraw : (cut source ⟨start, next⟩).length = next - start := length_cut hlength
  have hlast : (cut source ⟨start, next⟩).getLast? = if start < next then source[next - 1]?
      else none := by
    rw [List.getLast?_eq_getElem?, hraw]
    split
    · rw [getElem?_cut (by omega)]
      congr 1
      omega
    · exact List.getElem?_eq_none (by omega)
  rw [hbytes, hlast]
  by_cases hreturn : start < next ∧ source[next - 1]? = some Byte.carriageReturn
  · obtain ⟨hlt, hget⟩ := hreturn
    have hprev : next - 1 + 1 = next := by omega
    refine ⟨next - 1, ⟨hstart, by omega, ?_, fun i hi hilt hends => ?_⟩, ?_⟩
    · exact .inr (.inr ⟨hget, hprev ▸ hend⟩)
    · rcases hends with heq | hnewline | ⟨-, heq | hnewline⟩
      · omega
      · exact hplain i hi (by omega) hnewline
      · omega
      · exact hplain (i + 1) (by omega) (by omega) hnewline
    · have hcut : (cut source ⟨start, next⟩).dropLast = cut source ⟨start, next - 1⟩ := by
        rw [List.dropLast_eq_take, hraw, take_cut (by omega)]
        congr 2
        omega
      rw [if_pos hlt, hget, hcut]
      rfl
  · refine ⟨next, ⟨hstart, hle, ?_, fun i hi hilt hends => ?_⟩, ?_⟩
    · exact hend.imp_right .inl
    · rcases hends with heq | hnewline | ⟨hget, heq | hnewline⟩
      · omega
      · exact hplain i hi hilt hnewline
      · exact hreturn ⟨by omega, by rwa [show next - 1 = i by omega]⟩
      · by_cases hlt : i + 1 < next
        · exact hplain (i + 1) (by omega) hlt hnewline
        · exact hreturn ⟨by omega, by rwa [show next - 1 = i by omega]⟩
    · rw [if_neg]
      split
      · next hlt => simpa using fun hget => hreturn ⟨hlt, hget⟩
      · simp

end Bytes

/-! ## There and back -/

section Correspondence

variable {source : List UInt8} {line start stop offset : Nat}

/-- Where a line ends, the text can be cut. -/
theorem EndsLine.boundary (h : EndsLine source offset) : Boundary source offset := by
  rcases h with rfl | hget | ⟨hget, -⟩
  · exact boundary_length source
  · exact boundary_of_isAscii hget (by decide)
  · exact boundary_of_isAscii hget (by decide)

/-- Before a boundary of a line lies a stretch of the text. -/
theorem IsLine.fits (hclean : Clean source) (h : IsLine source line start stop)
    (hoffset : Boundary source offset) (hle : start ≤ offset) : Fits source ⟨start, offset⟩ := by
  refine .of_le hle ?_ hoffset
  rcases Nat.eq_zero_or_pos start with rfl | hpos
  · exact hclean.zero
  · have hboundary := hclean.succ _ _ (h.newline hpos) (by decide)
    rwa [Nat.sub_add_cancel hpos] at hboundary

/-- A column of a line stands for the offset that is found for it. -/
theorem standsFor_offsetOfUnit (h : IsLine source line start stop) (column : Nat) :
    StandsFor source start stop column
      (start + offsetOfUnit (cut source ⟨start, stop⟩) column) := by
  have hstop : stop ≤ source.length := h.ends.boundary.le_length
  obtain ⟨hle, hreaches, hleast⟩ := offsetFrom_spec column 0 (cut source ⟨start, stop⟩)
  have hstart := h.start_le
  rw [offsetOfUnit]
  generalize offsetFrom column 0 (cut source ⟨start, stop⟩) = found at hle hreaches hleast
  rw [length_cut hstop] at hle hreaches
  simp only [Nat.zero_add] at hreaches hleast
  have hbefore : ∀ before, Boundary source before → start ≤ before → before < start + found →
      Utf8.unitLength (cut source ⟨start, before⟩) < column := by
    intro before hboundary hsle hlt
    obtain ⟨k, rfl⟩ := Nat.exists_eq_add_of_le hsle
    have hget : source[start + k]? = some source[start + k] := List.getElem?_eq_getElem (by omega)
    have hcolumn := hleast k (by omega) source[start + k] (by rw [getElem?_cut (by omega), hget])
      (by simpa [Boundary, isBoundary, hget] using hboundary)
    rwa [take_cut (by omega)] at hcolumn
  by_cases hfound : found < stop - start
  · obtain ⟨hcolumn, b, hget, hb⟩ := hreaches hfound
    rw [getElem?_cut (by omega)] at hget
    rw [take_cut (by omega)] at hcolumn
    exact ⟨Nat.le_add_right _ _, by omega, by simp [Boundary, isBoundary, hget, hb],
      .inr hcolumn, hbefore⟩
  · obtain rfl : stop = start + found := by omega
    exact ⟨Nat.le_add_right _ _, Nat.le_refl _, h.ends.boundary, .inl rfl, hbefore⟩

/-- A column at which a boundary stands means that boundary. -/
theorem StandsFor.eq {column found : Nat} (h : StandsFor source start stop column found)
    (hfits : Fits source ⟨start, offset⟩) (hle : offset ≤ stop)
    (hcolumn : Utf8.unitLength (cut source ⟨start, offset⟩) = column) : found = offset := by
  rcases Nat.lt_trichotomy found offset with hlt | heq | hlt
  · have hunits := unitLength_cut_lt h.start_le
      (.of_le (Nat.le_of_lt hlt) h.boundary hfits.stop) hlt
    rcases h.reaches with heq | hreaches <;> omega
  · exact heq
  · have hunits := h.least offset hfits.stop hfits.ordered hlt
    omega

/-- Without a newline in between, two offsets lie on one line. -/
theorem count_eq_of_not_newline {a b : Nat} (hab : a ≤ b)
    (h : ∀ i, a ≤ i → i < b → source[i]? ≠ some Byte.newline) :
    (source.take a).count Byte.newline = (source.take b).count Byte.newline := by
  have hnone : ((source.drop a).take (b - a)).count Byte.newline = 0 := by
    rw [List.count_eq_zero]
    intro hmem
    obtain ⟨i, hlt, hget⟩ := List.mem_take_iff_getElem.1 hmem
    rw [List.getElem_drop] at hget
    exact h (a + i) (Nat.le_add_right _ _) (by omega)
      (List.getElem?_eq_some_iff.2 ⟨by rw [List.length_drop] at hlt; omega, hget⟩)
  have hsplit : source.take b = source.take a ++ (source.drop a).take (b - a) := by
    rw [← List.take_add, Nat.add_sub_cancel' hab]
  rw [hsplit, List.count_append, hnone, Nat.add_zero]

/-- The line of an offset starts where the table says. -/
theorem getElem?_startOf (source : List UInt8) (offset : Nat) :
    (ofBytes source).starts[(ofBytes source).lineOf offset]? =
      some ((ofBytes source).startOf offset) := by
  have hline : (ofBytes source).lineOf offset < (ofBytes source).count := by
    rw [lineOf_eq, count_ofBytes]
    exact Nat.lt_succ_of_le ((List.take_sublist _ _).count_le _)
  rw [startOf, List.getElem?_eq_getElem hline, Option.getD_some]

/-- The place of a boundary of a line. -/
theorem IsLine.position_eq (hclean : Clean source) (h : IsLine source line start stop)
    (hoffset : Boundary source offset) (hle : start ≤ offset) (hstop : offset ≤ stop) :
    (ofBytes source).position offset =
      ⟨line, Utf8.unitLength (cut source ⟨start, offset⟩)⟩ := by
  have hline : (ofBytes source).lineOf offset = line := by
    rw [lineOf_eq, ← count_eq_of_not_newline hle
      fun i hi hlt => h.not_newline hi (Nat.lt_of_lt_of_le hlt hstop), h.count]
  have hstart : (ofBytes source).startOf offset = start := by
    have hthere := startsLine_of_getElem? (getElem?_startOf source offset)
    rw [hline] at hthere
    exact hthere.unique h.toStartsLine
  rw [position_of_boundary hclean hoffset, hline, hstart]

/-- The offset of a place on a line. -/
theorem IsLine.offset_eq (h : IsLine source line start stop) (column : Nat) :
    (ofBytes source).offset ⟨line, column⟩ =
      .ok (start + offsetOfUnit (cut source ⟨start, stop⟩) column) := by
  have hline : line < (ofBytes source).count := by
    rw [count_ofBytes, ← h.count]
    exact Nat.lt_succ_of_le ((List.take_sublist _ _).count_le _)
  obtain ⟨start', hget, -⟩ := exists_startsLine hline
  obtain ⟨stop', hisLine, hbytes⟩ := exists_isLine hget
  obtain ⟨rfl, rfl⟩ := h.unique hisLine
  rw [Lines.offset, hget, hbytes]

/-- A boundary of a line is found at its own place. -/
theorem IsLine.offset_position (hclean : Clean source) (h : IsLine source line start stop)
    (hoffset : Boundary source offset) (hle : start ≤ offset) (hstop : offset ≤ stop) :
    (ofBytes source).offset ⟨line, Utf8.unitLength (cut source ⟨start, offset⟩)⟩ = .ok offset := by
  rw [h.offset_eq]
  exact congrArg _ ((standsFor_offsetOfUnit h _).eq (h.fits hclean hoffset hle) hstop rfl)

/-- The column behind the carriage return that ends a line means the end of the line. -/
theorem IsLine.offset_position_return (hclean : Clean source)
    (h : IsLine source line start stop) (hafter : Boundary source (stop + 1))
    (hline : (ofBytes source).lineOf (stop + 1) = line) :
    (ofBytes source).offset ((ofBytes source).position (stop + 1)) = .ok stop := by
  have hstart : (ofBytes source).startOf (stop + 1) = start := by
    have hthere := startsLine_of_getElem? (getElem?_startOf source (stop + 1))
    rw [hline] at hthere
    exact hthere.unique h.toStartsLine
  rw [position_of_boundary hclean hafter, hline, hstart, h.offset_eq]
  have hfound := standsFor_offsetOfUnit h (Utf8.unitLength (cut source ⟨start, stop + 1⟩))
  have hlt : _ < stop + 1 := Nat.lt_succ_of_le hfound.le_stop
  -- No boundary of the line is that far right.
  have hunits := unitLength_cut_lt hfound.start_le
    (.of_le (Nat.le_of_lt hlt) hfound.boundary hafter) hlt
  rcases hfound.reaches with heq | hreaches
  · rw [heq]
  · omega

/-- An offset belongs to its line, or stands behind the carriage return at its end. -/
theorem exists_isLine_of_boundary (hoffset : Boundary source offset) :
    ∃ start stop, IsLine source ((ofBytes source).lineOf offset) start stop ∧ start ≤ offset ∧
      ((offset ≤ stop ∧ ¬EndsInReturn source offset) ∨
        (offset = stop + 1 ∧ EndsInReturn source offset)) := by
  obtain ⟨stop, h, -⟩ := exists_isLine (getElem?_startOf source offset)
  have hle := (startOf_spec source offset).2
  have hlength := hoffset.le_length
  refine ⟨_, stop, h, hle, ?_⟩
  have hplain : ∀ i, (ofBytes source).startOf offset ≤ i → i < offset →
      source[i]? ≠ some Byte.newline := by
    intro i
    exact not_newline_of_count_eq (h.count.trans (lineOf_eq source offset))
  rcases Nat.lt_or_ge stop offset with hlt | hge
  · right
    -- Only a carriage return ends the line before the offset.
    rcases h.ends with heq | hnewline | ⟨hreturn, hnext⟩
    · omega
    · exact absurd hnewline (hplain stop h.start_le hlt)
    · obtain rfl : offset = stop + 1 := by
        rcases hnext with heq | hnewline
        · omega
        · have hstart := h.start_le
          exact Nat.le_antisymm
            (Nat.not_lt.1 fun hlt' => hplain (stop + 1) (by omega) hlt' hnewline) hlt
      exact ⟨rfl, Nat.succ_pos _, hreturn, hnext⟩
  · left
    refine ⟨hge, fun ⟨hpos, hreturn, hnext⟩ => ?_⟩
    have hprev : offset - 1 + 1 = offset := Nat.sub_add_cancel hpos
    have hinside : (ofBytes source).startOf offset ≤ offset - 1 := by
      rcases Nat.eq_or_lt_of_le hle with heq | hlt
      · have hnewline := h.newline (by omega)
        rw [heq, hreturn] at hnewline
        exact absurd hnewline (by decide)
      · omega
    exact h.goesOn (offset - 1) hinside (by omega) (.inr (.inr ⟨hreturn, by rwa [hprev]⟩))

/-- The place of a boundary leads back to it, unless it stands behind the end of its line. -/
theorem offset_position (hclean : Clean source) (hoffset : Boundary source offset)
    (hreturn : ¬EndsInReturn source offset) :
    (ofBytes source).offset ((ofBytes source).position offset) = .ok offset := by
  obtain ⟨start, stop, h, hle, ⟨hstop, -⟩ | ⟨-, hends⟩⟩ := exists_isLine_of_boundary hoffset
  · rw [h.position_eq hclean hoffset hle hstop]
    exact h.offset_position hclean hoffset hle hstop
  · exact absurd hends hreturn

/-- Lines and columns are no greater than the size of the text. -/
theorem position_le {text : String} (hoffset : Boundary (Utf8.bytes text) offset) :
    ((ofBytes (Utf8.bytes text)).position offset).line ≤ (Utf8.bytes text).length ∧
      ((ofBytes (Utf8.bytes text)).position offset).character ≤ (Utf8.bytes text).length := by
  rw [position_of_boundary (clean_bytes text) hoffset]
  exact ⟨lineOf_le _ _, unitLength_cut_le (fits_startOf (clean_bytes text) hoffset)⟩

/-- A later boundary has a later place. -/
theorem position_before (hclean : Clean source) {a b : Nat} (ha : Boundary source a)
    (hb : Boundary source b) (hlt : a < b) :
    ((ofBytes source).position a).Before ((ofBytes source).position b) := by
  have hfits : Fits source ⟨a, b⟩ := .of_le (Nat.le_of_lt hlt) ha hb
  rcases Nat.eq_or_lt_of_le (lineOf_mono (ofBytes source) (Nat.le_of_lt hlt)) with heq | hline
  · right
    rw [line_position hclean ha, line_position hclean hb]
    have hadd := character_add hclean hfits heq
    have hpos := unitLength_cut_pos hfits hlt
    rw [unitLength_of_fits hfits] at hadd
    exact ⟨heq, by simp only at hadd; omega⟩
  · left
    rwa [line_position hclean ha, line_position hclean hb]

/-- A place on no line of the text has no offset. -/
theorem offset_of_count_le {p : Position} (h : (ofBytes source).count ≤ p.line) :
    (ofBytes source).offset p = .error (.positionOutside p.line p.character) := by
  have hnone : (ofBytes source).starts[p.line]? = none := List.getElem?_eq_none h
  rw [offset, hnone]

end Correspondence

/-- How offsets and places of a text correspond. -/
structure Correspond (source : List UInt8) : Prop where
  /-- The place of a boundary leads back to it. -/
  back : ∀ offset, Boundary source offset → ¬EndsInReturn source offset →
    (ofBytes source).offset ((ofBytes source).position offset) = .ok offset
  /-- From behind a carriage return that ends a line it leads to before that. -/
  backBefore : ∀ offset, Boundary source offset → EndsInReturn source offset →
    (ofBytes source).offset ((ofBytes source).position offset) = .ok (offset - 1)
  /-- A later boundary has a later place. -/
  ordered : ∀ a b, Boundary source a → Boundary source b → a < b →
    ((ofBytes source).position a).Before ((ofBytes source).position b)
  /-- There is one line more than there are newlines. -/
  count : (ofBytes source).count = source.count Byte.newline + 1
  /-- On each line every column stands for an offset. -/
  found : ∀ line < (ofBytes source).count, ∃ start stop, IsLine source line start stop ∧
    ∀ column, ∃ offset, (ofBytes source).offset ⟨line, column⟩ = .ok offset ∧
      StandsFor source start stop column offset
  /-- A column at which a boundary of the line stands means that boundary, whose place it is. -/
  exact : ∀ line start stop offset, IsLine source line start stop → Boundary source offset →
    start ≤ offset → offset ≤ stop → ∀ column,
      Utf8.unitLength (cut source ⟨start, offset⟩) = column →
        (ofBytes source).offset ⟨line, column⟩ = .ok offset ∧
          (ofBytes source).position offset = ⟨line, column⟩
  /-- On no further line there is an offset. -/
  outside : ∀ p : Position, (ofBytes source).count ≤ p.line →
    (ofBytes source).offset p = .error (.positionOutside p.line p.character)
  /-- Lines and columns are no greater than the size of the text, and so need no more bits. -/
  bounded : ∀ offset, Boundary source offset →
    ((ofBytes source).position offset).line ≤ source.length ∧
      ((ofBytes source).position offset).character ≤ source.length

/-- Offsets and places of every text correspond. -/
theorem correspond_bytes (text : String) : Correspond (Utf8.bytes text) where
  back offset := offset_position (clean_bytes text)
  backBefore offset hoffset hreturn := by
    obtain ⟨start, stop, h, hle, ⟨-, hnone⟩ | ⟨rfl, -⟩⟩ := exists_isLine_of_boundary hoffset
    · exact absurd hreturn hnone
    · exact h.offset_position_return (clean_bytes text) hoffset rfl
  ordered a b := position_before (clean_bytes text)
  count := count_ofBytes _
  found line hline := by
    obtain ⟨start, hget, -⟩ := exists_startsLine hline
    obtain ⟨stop, h, -⟩ := exists_isLine hget
    exact ⟨start, stop, h, fun column => ⟨_, h.offset_eq column, standsFor_offsetOfUnit h column⟩⟩
  exact line start stop offset h hoffset hle hstop column hcolumn := by
    subst hcolumn
    exact ⟨h.offset_position (clean_bytes text) hoffset hle hstop,
      h.position_eq (clean_bytes text) hoffset hle hstop⟩
  outside p := offset_of_count_le
  bounded offset := position_le

/-- The place behind the carriage return of a line leads back before it. -/
example : (ofBytes (Utf8.bytes "a\r\nb")).position 2 = ⟨0, 2⟩ ∧
    (ofBytes (Utf8.bytes "a\r\nb")).offset ⟨0, 2⟩ = .ok 1 := ⟨rfl, rfl⟩

end Lines

end LexScope
