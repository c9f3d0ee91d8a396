import LexScope.Form.Node
import LexScope.Proofs.Form.Pieces

/-!
# Reading back what was printed

Reading a printed list finds its items in order, each with its kind, its span and its marks, and the
index of a printed document holds one pair for each list and no other. Groups are passed in one
step, so the reading of a list needs only the pieces of the list to show in the layout; what is
inside the groups is found by going down the datum.
-/

namespace LexScope

open Byte Utf8

namespace Datum

/-! ## Marks and bodies -/

/-- The characters of a datum without its marks. -/
def body : Datum → List Char
  | atom _ a => a.chars
  | string _ contents => literal contents
  | list _ gaps items => '(' :: (charsFrom none gaps items ++ [')'])

/-- A datum is printed as its marks and its body. -/
theorem chars_eq (d : Datum) : d.chars = d.marks.map Mark.char ++ d.body := by
  cases d <;> rw [chars] <;> rfl

/-- The width of a datum is that of its marks and its body. -/
theorem size_eq (d : Datum) : d.size = d.marks.length + (encode d.body).length := by
  rw [size, chars_eq, encode_append, List.length_append, Mark.length_encode]

/-- The bytes do not start with a blank or a mark, and with a number sign only before a
backslash. -/
structure StartsBody (b : UInt8) (tail : List UInt8) : Prop where
  /-- No blank. -/
  blank : isWhitespace b = false
  /-- No quote. -/
  quote : b ≠ Byte.quote
  /-- No backquote. -/
  backquote : b ≠ Byte.backquote
  /-- No comma. -/
  comma : b ≠ Byte.comma
  /-- A number sign is that of a character. -/
  hash : b = Byte.hash → tail.head? = some backslash

/-- The body of a datum starts with a byte that tells what it is. -/
theorem exists_startsBody (d : Datum) :
    ∃ b tail, encode d.body = b :: tail ∧ StartsBody b tail := by
  cases d with
  | atom marks a =>
    obtain ⟨b, tail, hbytes, hdelimiter, hhash⟩ := a.exists_head
    simp only [isDelimiter, Bool.or_eq_false_iff, beq_eq_false_iff_ne] at hdelimiter
    refine ⟨b, tail, hbytes, ?_⟩
    constructor <;> simp_all
  | string marks contents =>
    refine ⟨doubleQuote, _, encode_cons_ascii (by decide) _, ?_⟩
    exact ⟨by decide, by decide, by decide, by decide, fun h => absurd h (by decide)⟩
  | list marks gaps items =>
    refine ⟨opening, _, encode_cons_ascii (by decide) _, ?_⟩
    exact ⟨by decide, by decide, by decide, by decide, fun h => absurd h (by decide)⟩

private theorem StartsBody.append {b : UInt8} {tail : List UInt8} (h : StartsBody b tail)
    (rest : List UInt8) : StartsBody b (tail ++ rest) :=
  { h with hash := fun hb => by simp [List.head?_append, h.hash hb] }

private theorem StartsBody.leadingMarkers {b : UInt8} {tail : List UInt8} (h : StartsBody b tail) :
    leadingMarkers (b :: tail) = (0, false) := by
  cases tail with
  | nil => simp [LexScope.leadingMarkers, h.quote, h.backquote, h.comma]
  | cons c tail =>
    have hsharp : (b == Byte.hash && c == Byte.quote) = false := by
      by_cases hb : b = Byte.hash
      · have hc : c = backslash := by simpa using h.hash hb
        rw [hc]
        simp [show (backslash == Byte.quote) = false by decide]
      · simp [hb]
    simp [LexScope.leadingMarkers, h.quote, h.backquote, h.comma, hsharp]

/-- The marks before a body are found, and whether there is one. -/
theorem leadingMarkers_marks (marks : List Mark) {bytes : List UInt8} (hne : bytes ≠ [])
    (h : leadingMarkers bytes = (0, false)) :
    leadingMarkers (encode (marks.map Mark.char) ++ bytes) = (marks.length, !marks.isEmpty) := by
  induction marks with
  | nil => exact h
  | cons m marks ih =>
    rw [Mark.encode_cons, List.cons_append]
    generalize hrest : encode (marks.map Mark.char) ++ bytes = rest at ih
    cases rest with
    | nil => simp_all
    | cons c rest =>
      have hquotes : (UInt8.ofNat m.char.toNat == quote || UInt8.ofNat m.char.toNat == backquote) =
          true := by
        cases m <;> decide
      simp only [leadingMarkers, hquotes, if_true, ih, List.length_cons, List.isEmpty_cons,
        Bool.not_false, Nat.add_comm]

/-! ## Reading -/

variable {layout : Layout} {stop pos : Nat} {rest : List UInt8}

/-- No comment shows where a datum starts. -/
theorem comments_spanAt (d : Datum) (h : layout.Shows pos (pos + d.size) (d.pieces pos)) :
    layout.comments.spanAt pos = none := by
  obtain ⟨b, tail, hbytes, -⟩ := d.exists_startsBody
  have hsize : pos < pos + d.size := by
    rw [size_eq, hbytes, List.length_cons]
    omega
  cases hcomment : layout.comments.spanAt pos with
  | none => rfl
  | some s =>
    exfalso
    obtain ⟨hmem, hstart, -⟩ := (h.comment pos s (Nat.le_refl _) hsize).1 hcomment
    cases d with
    | atom => simp [pieces] at hmem
    | string => simp [pieces] at hmem
    | list marks gaps items =>
      simp only [pieces, List.mem_cons, reduceCtorEq, false_or] at hmem
      have hlo := (placed_piecesFrom _ none gaps items).lo_le _ hmem
      simp only [Piece.start] at hlo
      omega

private theorem datum_atom (a : Atom) {b : UInt8} {tail : List UInt8}
    (hbytes : encode a.chars = b :: tail)
    (hrest : Ends rest) (width : Nat) (quoted : Bool) :
    Reading.datum layout stop pos width quoted b (tail ++ rest) =
      some (some (.element ⟨.atom, ⟨pos + width, pos + width + tail.length + 1⟩, pos, quoted⟩),
        width + tail.length) := by
  obtain ⟨b', tail', hhead, hdelimiter, hhash⟩ := a.exists_head
  obtain ⟨rfl, rfl⟩ : b' = b ∧ tail' = tail := by simpa [hhead] using hbytes
  have hlength := a.atomLength_bytes hrest
  rw [hhead, List.cons_append, List.length_cons] at hlength
  have hsharp (c : UInt8) (hc : c ≠ backslash) :
      (b' == Byte.hash && (tail' ++ rest).head? == some c) = false := by
    by_cases hb : b' = Byte.hash
    · simp [List.head?_append, hhash hb, hc.symm]
    · simp [hb]
  have hfeature : (b' == Byte.hash && ((tail' ++ rest).head? == some plus ||
      (tail' ++ rest).head? == some minus)) = false := by
    rw [Bool.and_or_distrib_left, hsharp plus (by decide), hsharp minus (by decide), Bool.or_false]
  simp only [isDelimiter, Bool.or_eq_false_iff] at hdelimiter
  simp only [Reading.datum, hfeature, hsharp opening (by decide), hdelimiter, hlength,
    Bool.false_eq_true, if_false]

private theorem datum_string {s : Span} {width : Nat}
    (h : layout.strings.spanAt (pos + width) = some s)
    (hstop : s.stop ≤ stop) (quoted : Bool) :
    Reading.datum layout stop pos width quoted doubleQuote rest =
      some (some (.element ⟨.string, s, pos, quoted⟩), s.stop - (pos + 1)) := by
  have hspan : stringSpan layout stop (pos + width) = s := by
    rw [stringSpan, h]
    simp only [Nat.min_eq_left hstop]
  have hread : Reading.datum layout stop pos width quoted doubleQuote rest =
      some (some (.element ⟨.string, stringSpan layout stop (pos + width), pos, quoted⟩),
        (stringSpan layout stop (pos + width)).stop - (pos + 1)) := rfl
  rw [hread, hspan]

private theorem datum_list {closed width : Nat}
    (h : layout.pairs.closingOf (pos + width) = some closed)
    (hstop : closed < stop) (quoted : Bool) :
    Reading.datum layout stop pos width quoted opening rest =
      some (some (.element ⟨.group ⟨pos + width, closed⟩, ⟨pos + width, closed + 1⟩, pos, quoted⟩),
        closed - pos) := by
  have hread : Reading.datum layout stop pos width quoted opening rest =
      Reading.group layout stop pos (pos + width) quoted := rfl
  rw [hread, Reading.group, h]
  simp only [hstop, if_true]
  rfl

/-- The bracket that closes a list stands at its end. -/
theorem closingOf_list {marks : List Mark} {gaps : Nat → Gap} {items : List Datum}
    (h : layout.Shows pos (pos + (list marks gaps items).size)
      ((list marks gaps items).pieces pos)) :
    layout.pairs.closingOf (pos + marks.length) =
      some (pos + (list marks gaps items).size - 1) := by
  have hsize := size_list marks gaps items
  rw [h.closing _ _ (by omega) (by omega), pieces]
  exact ⟨_, List.mem_cons_self⟩

/-- Reading the body of a datum finds its element. -/
theorem datum_body (d : Datum) (h : layout.Shows pos (pos + d.size) (d.pieces pos))
    (hstop : pos + d.size ≤ stop) (hrest : Ends rest) {b : UInt8} {tail : List UInt8}
    (hbytes : encode d.body = b :: tail) :
    Reading.datum layout stop pos d.marks.length (!d.marks.isEmpty) b (tail ++ rest) =
      some (some (.element (d.element pos)), d.size - 1) := by
  have hsize := d.size_eq
  rw [hbytes, List.length_cons] at hsize
  cases d with
  | atom marks a =>
    refine (datum_atom a hbytes hrest _ _).trans ?_
    have hend : pos + (atom marks a).marks.length + tail.length + 1 =
        pos + (atom marks a).size := by omega
    have hmore : (atom marks a).marks.length + tail.length = (atom marks a).size - 1 := by omega
    rw [hend, hmore]
    rfl
  | string marks contents =>
    have hb : doubleQuote = b := by
      rw [body, literal, encode_cons_ascii (by decide)] at hbytes
      exact (List.cons.inj hbytes).1
    have hspan : layout.strings.spanAt (pos + marks.length) =
        some ⟨pos + marks.length, pos + (string marks contents).size⟩ := by
      have hlt : marks.length < (string marks contents).size := by
        rw [hsize, Datum.marks]
        omega
      rw [h.string _ _ (by omega) (by omega), pieces]
      exact ⟨List.mem_singleton.2 rfl, Nat.le_refl _, by simp only; omega⟩
    subst hb
    refine (datum_string hspan hstop _).trans ?_
    have hmore : pos + (string marks contents).size - (pos + 1) =
        (string marks contents).size - 1 := by omega
    simp only [hmore]
    rfl
  | list marks gaps items =>
    have hb : opening = b := by
      rw [body, encode_cons_ascii (by decide)] at hbytes
      exact (List.cons.inj hbytes).1
    have hlist := size_list marks gaps items
    subst hb
    refine (datum_list (closingOf_list h) (by omega) _).trans ?_
    have hend : pos + (list marks gaps items).size - 1 + 1 =
        pos + (list marks gaps items).size := by
      omega
    have hmore : pos + (list marks gaps items).size - 1 - pos =
        (list marks gaps items).size - 1 := by
      omega
    rw [hend, hmore]
    rfl

/-- Reading a printed datum finds its element and goes on behind it. -/
theorem readings_chars (d : Datum) (h : layout.Shows pos (pos + d.size) (d.pieces pos))
    (hstop : pos + d.size ≤ stop) (hrest : Ends rest) :
    readings layout stop pos (encode d.chars ++ rest) =
      .element (d.element pos) :: readings layout stop (pos + d.size) rest := by
  obtain ⟨b, tail, hbytes, hstarts⟩ := d.exists_startsBody
  have hsize := d.size_eq
  rw [hbytes, List.length_cons] at hsize
  have hmarkers : leadingMarkers (encode (d.marks.map Mark.char) ++ (b :: tail ++ rest)) =
      (d.marks.length, !d.marks.isEmpty) :=
    leadingMarkers_marks d.marks (by simp) (hstarts.append rest).leadingMarkers
  have hdrop : (encode (d.marks.map Mark.char) ++ (b :: tail ++ rest)).drop d.marks.length =
      b :: (tail ++ rest) := by
    rw [← Mark.length_encode d.marks, List.drop_left, List.cons_append]
  have hbehind : (encode (d.marks.map Mark.char) ++ (b :: tail ++ rest)).drop d.size = rest := by
    rw [← List.append_assoc]
    apply List.drop_left'
    rw [List.length_append, Mark.length_encode, List.length_cons, hsize]
  have hdatum := datum_body d h hstop hrest hbytes
  have hblank : ∃ c more, encode (d.marks.map Mark.char) ++ (b :: tail ++ rest) = c :: more ∧
      isWhitespace c = false := by
    cases d.marks with
    | nil => exact ⟨b, tail ++ rest, rfl, hstarts.blank⟩
    | cons m marks =>
      refine ⟨UInt8.ofNat m.char.toNat, _, by rw [Mark.encode_cons, List.cons_append], ?_⟩
      cases m <;> decide
  rw [chars_eq, encode_append, hbytes, List.append_assoc]
  obtain ⟨c, more, hcons, hc⟩ := hblank
  rw [hcons] at hmarkers hdrop hbehind ⊢
  have hstep : Reading.step layout stop pos c more =
      some (some (.element (d.element pos)), d.size - 1) := by
    simp only [Reading.step, hc, comments_spanAt d h, hmarkers, hdrop, hdatum, Bool.false_eq_true,
      if_false]
  have hnext : pos + 1 + (d.size - 1) = pos + d.size := by omega
  have hmore : more.drop (d.size - 1) = rest := by
    rw [← hbehind, hsize]
    rfl
  rw [readings, hstep]
  simp only [hnext, hmore]
  rfl

/-- Reading passes what stands between two neighbours. -/
theorem readings_lead (lead : Option Gap)
    (h : layout.Shows pos (pos + (encode (Gap.lead lead)).length) (Gap.pieces pos lead)) :
    readings layout stop pos (encode (Gap.lead lead) ++ rest) =
      readings layout stop (pos + (encode (Gap.lead lead)).length) rest := by
  have hspace (pos : Nat) (b : UInt8) (rest : List UInt8) (hb : isWhitespace b = true) :
      readings layout stop pos (b :: rest) = readings layout stop (pos + 1) rest := by
    rw [readings, Reading.step, if_pos hb]
    rfl
  rcases lead with _ | _ | ⟨text, oneLine⟩
  · rfl
  · exact hspace pos 32 rest (by decide)
  · have hsize : (encode (Gap.lead (some (.comment text oneLine)))).length =
        (encode text).length + 4 := by
      simp [Gap.encode_comment]
    have hcomment : layout.comments.spanAt (pos + 1) =
        some ⟨pos + 1, pos + 2 + (encode text).length⟩ := by
      rw [h.comment _ _ (by omega) (by omega), Gap.pieces]
      exact ⟨List.mem_singleton.2 rfl, Nat.le_refl _, by simp only; omega⟩
    rw [hsize, Gap.encode_comment]
    generalize encode text = line at hcomment ⊢
    have hskip : readings layout stop (pos + 1) (semicolon :: (line ++ (newline :: 32 :: rest))) =
        readings layout stop (pos + 2 + line.length) (newline :: 32 :: rest) := by
      have hblank : isWhitespace semicolon = false := by decide
      have hmore : pos + 2 + line.length - (pos + 1 + 1) = line.length := by omega
      have hnext : pos + 1 + 1 + line.length = pos + 2 + line.length := by omega
      rw [readings, Reading.step, if_neg (by simp [hblank]), hcomment]
      simp only [hmore, hnext, List.drop_left]
      rfl
    simp only [List.cons_append, List.append_assoc, List.nil_append]
    rw [hspace pos 32 _ (by decide), hskip, hspace _ newline _ (by decide),
      hspace _ 32 _ (by decide)]
    congr 1
    omega

/-- Reading printed neighbours finds their elements. -/
theorem readings_charsFrom (lead : Option Gap) (gaps : Nat → Gap) (items : List Datum)
    (h : layout.Shows pos (pos + sizeFrom lead gaps items) (piecesFrom pos lead gaps items))
    (hstop : pos + sizeFrom lead gaps items ≤ stop) :
    readings layout stop pos (encode (charsFrom lead gaps items)) =
      (elementsFrom pos lead gaps items).map .element := by
  induction items generalizing pos lead gaps with
  | nil =>
    rw [charsFrom, elementsFrom]
    exact readings.eq_1 _ _ _
  | cons d items ih =>
    obtain ⟨hlead, hd, hitems⟩ := shows_cons h rfl
    rw [sizeFrom_cons] at hstop
    have hread := ih (some (gaps 0)) (fun i => gaps (i + 1)) hitems (by omega)
    have hends := ends_charsFrom (gaps 0) (fun i => gaps (i + 1)) items Ends.nil
    rw [List.append_nil] at hends
    rw [charsFrom, encode_append, encode_append, readings_lead lead hlead,
      readings_chars d hd (by omega) hends, hread, elementsFrom]
    rfl

end Datum

private theorem elementsOf_map_element (elements : List Element) :
    elementsOf (elements.map .element) = elements := by
  induction elements with
  | nil => rfl
  | cons e rest ih => rw [List.map_cons, elementsOf, ih]

/-! ## Lists -/

/-- The bytes stand in the source at an offset. -/
def StandsAt (source : List UInt8) (pos : Nat) (bytes : List UInt8) : Prop :=
  ∃ before after, source = before ++ (bytes ++ after) ∧ before.length = pos

namespace StandsAt

variable {source bytes : List UInt8} {pos : Nat}

private theorem window_eq (h : StandsAt source pos bytes) :
    window source pos (pos + bytes.length) = bytes := by
  obtain ⟨before, after, rfl, rfl⟩ := h
  rw [window, ← List.append_assoc, ← List.length_append, List.take_left, List.drop_left]

private theorem le_length (h : StandsAt source pos bytes) : pos + bytes.length ≤ source.length := by
  obtain ⟨before, after, rfl, rfl⟩ := h
  simp only [List.length_append]
  omega

private theorem left {a b : List UInt8} (h : StandsAt source pos (a ++ b)) :
    StandsAt source pos a := by
  obtain ⟨before, after, rfl, rfl⟩ := h
  exact ⟨before, b ++ after, by rw [List.append_assoc], rfl⟩

/-- The second part of what stands at a position stands after the first. -/
theorem right {a b : List UInt8} (h : StandsAt source pos (a ++ b)) :
    StandsAt source (pos + a.length) b := by
  obtain ⟨before, after, rfl, rfl⟩ := h
  exact ⟨before ++ a, after, by simp only [List.append_assoc], List.length_append⟩

end StandsAt

namespace Datum

/-- The datum is printed in the source at an offset, and the layout knows. -/
structure PrintedAt (src : Source) (pos : Nat) (d : Datum) : Prop where
  /-- Its characters stand there. -/
  stands : StandsAt src.bytes pos (encode d.chars)
  /-- Its pieces show. -/
  shows : src.layout.Shows pos (pos + d.size) (d.pieces pos)

/-- Neighbours are printed in the source at an offset, and the layout knows. -/
structure PrintedFrom (src : Source) (pos : Nat) (lead : Option Gap) (gaps : Nat → Gap)
    (items : List Datum) : Prop where
  /-- Their characters stand there. -/
  stands : StandsAt src.bytes pos (encode (charsFrom lead gaps items))
  /-- Their pieces show. -/
  shows : src.layout.Shows pos (pos + sizeFrom lead gaps items) (piecesFrom pos lead gaps items)

variable {src : Source} {pos : Nat}

/-- The items of a printed list are printed after its opening bracket. -/
theorem PrintedAt.items {marks : List Mark} {gaps : Nat → Gap} {items : List Datum}
    (h : PrintedAt src pos (list marks gaps items)) :
    PrintedFrom src (pos + marks.length + 1) none gaps items where
  stands := by
    have hstands := h.stands
    rw [encode_list, ← List.singleton_append] at hstands
    have hinside := hstands.right.right.left
    rwa [Mark.length_encode] at hinside
  shows := shows_list h.shows

/-- Printed items are the first, after its gap, and the rest. -/
theorem PrintedFrom.cons {lead : Option Gap} {gaps : Nat → Gap} {d : Datum} {items : List Datum}
    (h : PrintedFrom src pos lead gaps (d :: items)) :
    PrintedAt src (pos + (encode (Gap.lead lead)).length) d ∧
      PrintedFrom src (pos + (encode (Gap.lead lead)).length + d.size) (some (gaps 0))
        (fun i => gaps (i + 1)) items := by
  obtain ⟨-, hd, hitems⟩ := shows_cons h.shows rfl
  have hstands := h.stands
  rw [charsFrom, encode_append, encode_append] at hstands
  exact ⟨⟨hstands.right.left, hd⟩, hstands.right.right, hitems⟩

/-- Between two offsets the elements are the neighbours printed there. -/
theorem PrintedFrom.elementsBetween {lead : Option Gap} {gaps : Nat → Gap} {items : List Datum}
    (h : PrintedFrom src pos lead gaps items) :
    elementsBetween src.bytes src.layout pos (pos + sizeFrom lead gaps items) =
      elementsFrom pos lead gaps items := by
  have hlength : pos + sizeFrom lead gaps items ≤ src.bytes.length := h.stands.le_length
  have hwindow : window src.bytes pos (pos + sizeFrom lead gaps items) =
      encode (charsFrom lead gaps items) := h.stands.window_eq
  rw [LexScope.elementsBetween, Nat.min_eq_left hlength, hwindow,
    readings_charsFrom lead gaps items h.shows (Nat.le_refl _), elementsOf_map_element]

/-- Reading a printed list finds its items. -/
theorem PrintedAt.elements {marks : List Mark} {gaps : Nat → Gap} {items : List Datum}
    (h : PrintedAt src pos (list marks gaps items)) :
    src.elements ⟨pos + marks.length, pos + (list marks gaps items).size - 1⟩ =
      elementsFrom (pos + marks.length + 1) none gaps items := by
  have hclosing : pos + (list marks gaps items).size - 1 =
      pos + marks.length + 1 + sizeFrom none gaps items := by
    rw [size_list]
    omega
  rw [Source.elements, hclosing]
  exact h.items.elementsBetween

mutual

/-- Reading any list inside a printed datum finds its items. -/
theorem elements_of_form (pos : Nat) {p : Pair} {elements : List Element} : ∀ d : Datum,
    PrintedAt src pos d → .form p elements ∈ d.pieces pos → src.elements p = elements
  | atom .., _, hmem => by simp [pieces] at hmem
  | string .., _, hmem => by simp [pieces] at hmem
  | list marks gaps items, h, hmem => by
    rw [pieces] at hmem
    rcases List.mem_cons.1 hmem with heq | hmem
    · simp only [Piece.form.injEq] at heq
      obtain ⟨rfl, rfl⟩ := heq
      exact h.elements
    · exact elements_of_formFrom _ none gaps items h.items hmem

/-- Reading any list inside printed neighbours finds its items. -/
theorem elements_of_formFrom (pos : Nat) {p : Pair} {elements : List Element} (lead : Option Gap)
    (gaps : Nat → Gap) : ∀ items : List Datum, PrintedFrom src pos lead gaps items →
      .form p elements ∈ piecesFrom pos lead gaps items → src.elements p = elements
  | [], _, hmem => by simp [piecesFrom] at hmem
  | d :: items, h, hmem => by
    obtain ⟨hd, hitems⟩ := h.cons
    rw [piecesFrom] at hmem
    rcases List.mem_append.1 hmem with hmem | hmem
    · match lead with
      | none => cases hmem
      | some .space => cases hmem
      | some (.comment ..) => simp [Gap.pieces] at hmem
    · rcases List.mem_append.1 hmem with hmem | hmem
      · exact elements_of_form _ d hd hmem
      · exact elements_of_formFrom _ _ _ items hitems hmem

end

/-! ## Documents -/

/-- The document that consists of printed neighbours. -/
def document (gaps : Nat → Gap) (items : List Datum) : Source :=
  .ofText (String.ofList (charsFrom none gaps items))

/-- The bytes of a document are those of its items. -/
theorem bytes_document (gaps : Nat → Gap) (items : List Datum) :
    (document gaps items).bytes = encode (charsFrom none gaps items) := by
  simp [document, Source.ofText, bytes]

/-- The layout of a document is made of the pieces of its items. -/
theorem madeOf_document (gaps : Nat → Gap) (items : List Datum) :
    (document gaps items).layout.MadeOf (piecesFrom 0 none gaps items) := by
  have hlayout : (document gaps items).layout =
      Layout.ofBytes (encode (charsFrom none gaps items)) := by
    rw [← bytes_document]
    rfl
  rw [hlayout]
  exact madeOf_layout none gaps items

/-- A document prints what it consists of. -/
theorem printedFrom_document (gaps : Nat → Gap) (items : List Datum) :
    PrintedFrom (document gaps items) 0 none gaps items where
  stands := ⟨[], [], by simp [bytes_document], rfl⟩
  shows := (madeOf_document gaps items).shows (placed_piecesFrom 0 none gaps items) _ _

private theorem map_elements_document (gaps : Nat → Gap) (items : List Datum) :
    (document gaps items).layout.pairs.pairs.map (fun p => (p, (document gaps items).elements p)) =
      (piecesFrom 0 none gaps items).filterMap Piece.form? := by
  have hread : ∀ p elements, .form p elements ∈ piecesFrom 0 none gaps items →
      (document gaps items).elements p = elements := fun p elements hmem =>
    elements_of_formFrom 0 none gaps items (printedFrom_document gaps items) hmem
  rw [(madeOf_document gaps items).pairs]
  generalize piecesFrom 0 none gaps items = pieces at hread
  induction pieces with
  | nil => rfl
  | cons a pieces ih =>
    have htail := ih fun p elements hmem => hread p elements (List.mem_cons_of_mem _ hmem)
    cases a with
    | form p elements =>
      simp only [List.filterMap_cons, Piece.pair?, Piece.form?, List.map_cons, htail,
        hread p elements List.mem_cons_self]
    | comment s => exact htail
    | string s => exact htail

/-- A datum is printed in the document that consists of it. -/
theorem printedAt_ofText (d : Datum) : PrintedAt (.ofText (String.ofList d.chars)) 0 d := by
  have hprinted := (printedFrom_document (fun _ => .space) [d]).cons.1
  have hchars : charsFrom none (fun _ => .space) [d] = d.chars := by
    simp [charsFrom, Gap.lead]
  rwa [document, hchars] at hprinted

/-- Reading gives back what was printed. Nothing is truncated, the index holds one pair for each
list and no other, in order, and the elements of each list are its items: of the right kind, with
the span of the datum, from the first mark on, and quoted if there is a mark. -/
theorem forms_ofText (d : Datum) :
    (Source.ofText (String.ofList d.chars)).layout.truncatedAt = none ∧
      (Source.ofText (String.ofList d.chars)).layout.pairs.pairs.map
        (fun p => (p, (Source.ofText (String.ofList d.chars)).elements p)) = d.forms 0 := by
  have hchars : charsFrom none (fun _ => .space) [d] = d.chars := by
    simp [charsFrom, Gap.lead]
  have hpieces : piecesFrom 0 none (fun _ => .space) [d] = d.pieces 0 := by
    simp [piecesFrom, Gap.lead, Gap.pieces, encode]
  have hmade := madeOf_document (fun _ => .space) [d]
  have hmap := map_elements_document (fun _ => .space) [d]
  rw [hpieces] at hmap
  rw [document, hchars] at hmade hmap
  exact ⟨hmade.truncatedAt, hmap⟩

end Datum

end LexScope
