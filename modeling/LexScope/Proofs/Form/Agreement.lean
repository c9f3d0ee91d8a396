import LexScope.Proofs.Form.Words
import Mathlib

/-!
# Names in forms are symbols

Elements of a form and words of a document are found by two readers that know nothing of each
other. The reader of elements passes markers one by one, looks into no group and counts feature
tests, but it too stands at seams: each step starts after a break, after a sign `#+` or `#-`, where
an atom has ended, inside `#'`, or inside a comment. So atoms among the elements hold no comment and
no string, and those that start after a break are words.
-/

namespace LexScope

open Byte

/-! ## Windows -/

section Window

variable {source bytes : List UInt8} {pos stop : Nat}

/-- A stretch of the text continues with the rest of the text. -/
theorem exists_drop_of_window (hwindow : window source pos stop = bytes) :
    ∃ tail, source.drop pos = bytes ++ tail := by
  refine ⟨(source.drop stop).drop (pos - (source.take stop).length), ?_⟩
  rw [← hwindow, window, ← List.drop_append, List.take_append_drop]

end Window

/-! ## Where elements are read -/

/-- Reading elements may stand at the offset. -/
inductive IsReady (source : List UInt8) (pos : Nat) : Prop where
  /-- A break ends there. -/
  | fresh (hseam : IsSeam source pos) (hfresh : IsFresh source pos)
  /-- The sign of a feature test ends there. -/
  | feature (hseam : IsSeam source pos) (hsign : afterFeatureSign source pos = true)
  /-- An atom ends there. -/
  | ended (hseam : IsSeam source pos) (hends : Ends (source.drop pos))
  /-- It is inside the mark `#'`. -/
  | halfway {l : Lexeme} (hl : l ∈ lexemes source) (hstart : l.span.start + 1 = pos)
      (hmark : l.isFunctionMark source = true)
  /-- It is inside a comment. -/
  | comment {l : Lexeme} (hl : l ∈ lexemes source) (hkind : l.kind.isComment = true)
      (hpos : l.span.contains pos = true)

/-- A datum may start at the offset. -/
structure DatumAt (source : List UInt8) (pos : Nat) : Prop where
  /-- A lexeme ends there. -/
  seam : IsSeam source pos
  /-- It is a break or the sign of a feature test, or the next byte ends atoms. -/
  origin : IsFresh source pos ∨ afterFeatureSign source pos = true ∨ Ends (source.drop pos)
  /-- The datum is no block comment. -/
  comment : ∀ l ∈ lexemes source, l.span.start = pos → l.isBlockComment source = false

section Markers

variable {source bytes rest : List UInt8} {pos stop : Nat} {l : Lexeme}

private theorem isFresh_stop (hl : l ∈ lexemes source) (hbreak : l.isBreak source = true) :
    IsFresh source l.span.stop := by
  intro m hm hstop
  rw [Lexeme.eq_of_stop hm hl hstop]
  exact hbreak

/-- Reading may go on after a break. -/
theorem IsReady.of_break (hl : l ∈ lexemes source) (hbreak : l.isBreak source = true) :
    IsReady source l.span.stop :=
  .fresh (Lexeme.isSeam_stop hl) (isFresh_stop hl hbreak)

/-- Reading may go on after a bracket, a comment or a string. -/
theorem IsReady.of_kind (hl : l ∈ lexemes source)
    (hkind : l.kind.isBracket = true ∨ l.kind.isComment = true ∨ l.kind.isString = true) :
    IsReady source l.span.stop :=
  .of_break hl (Lexeme.isBreak_of_separates (Lexeme.separates_of_kind hkind))

/-- A datum may start after a mark. -/
theorem DatumAt.of_mark (hapart : CommentsApart source) (hl : l ∈ lexemes source)
    (hmark : l.isFunctionMark source = true ∨ l.isMarker = true) : DatumAt source l.span.stop where
  seam := Lexeme.isSeam_stop hl
  origin := .inl (isFresh_stop hl (Lexeme.breaks_of_mark hmark).2)
  comment := hapart.not_isBlockComment hl (Lexeme.breaks_of_mark hmark).1

/-- A datum may start after a mark and the markers that follow it. -/
theorem DatumAt.after_mark (hapart : CommentsApart source) (hl : l ∈ lexemes source)
    (hmark : l.isFunctionMark source = true ∨ l.isMarker = true) {width inner : Nat}
    (hstop : l.span.stop = pos + width)
    (hinner : 0 < inner → DatumAt source (pos + width + inner)) :
    DatumAt source (pos + (width + inner)) := by
  rw [← Nat.add_assoc]
  rcases Nat.eq_zero_or_pos inner with rfl | hpos
  · exact hstop ▸ .of_mark hapart hl hmark
  · exact hinner hpos

/-- Passing the markers from a seam on, if there are any, leads to a datum. -/
theorem datumAt_of_leadingMarkers (hapart : CommentsApart source) {d : UInt8}
    (hdatum : bytes.drop (leadingMarkers bytes).1 = d :: rest)
    (hpos : 0 < (leadingMarkers bytes).1) :
    ∀ {pos : Nat}, IsSeam source pos → window source pos stop = bytes →
      DatumAt source (pos + (leadingMarkers bytes).1) := by
  fun_induction leadingMarkers bytes with
  | case1 => cases hpos
  | case2 => cases hdatum
  | case3 => cases hdatum
  | case4 => cases hpos
  | case5 b c rest hb ih =>
    intro pos hseam hwindow
    obtain ⟨tail, hdrop⟩ := exists_drop_of_window hwindow
    rw [Nat.add_comm 1, List.drop_succ_cons] at hdatum
    obtain ⟨m, target, hread⟩ : ∃ m target, LexemeKind.read b (c :: (rest ++ tail)) =
        (.marker m target, 0) := by
      simp only [Bool.or_eq_true, beq_iff_eq] at hb
      rcases hb with rfl | rfl <;> exact ⟨_, _, rfl⟩
    have hmem := hseam.mem_of_read hdrop hread (Nat.zero_le _)
    exact .after_mark hapart hmem (.inr rfl) rfl fun hpos =>
      ih hdatum hpos (Lexeme.isSeam_stop hmem) (window_add hwindow 1)
  | case6 b c rest _ hb hc inner ih =>
    intro pos hseam hwindow
    obtain ⟨tail, hdrop⟩ := exists_drop_of_window hwindow
    rw [Nat.add_comm 2, List.drop_succ_cons, List.drop_succ_cons] at hdatum
    obtain rfl := eq_of_beq hb
    have hread : LexemeKind.read comma (c :: (rest ++ tail)) =
        (.marker .comma (.after 2 (rest ++ tail)), 1) := by
      rw [LexemeKind.read_comma, if_pos hc]
    have hmem := hseam.mem_of_read hdrop hread (by simp)
    exact .after_mark hapart hmem (.inr rfl) rfl fun hpos =>
      ih hdatum hpos (Lexeme.isSeam_stop hmem) (window_add hwindow 2)
  | case7 b c rest _ hb hc inner ih =>
    intro pos hseam hwindow
    obtain ⟨tail, hdrop⟩ := exists_drop_of_window hwindow
    rw [Nat.add_comm 1, List.drop_succ_cons] at hdatum
    obtain rfl := eq_of_beq hb
    have hread : LexemeKind.read comma (c :: (rest ++ tail)) =
        (.marker .comma (.after 1 (c :: (rest ++ tail))), 0) := by
      rw [LexemeKind.read_comma, if_neg hc]
    have hmem := hseam.mem_of_read hdrop hread (Nat.zero_le _)
    exact .after_mark hapart hmem (.inr rfl) rfl fun hpos =>
      ih hdatum hpos (Lexeme.isSeam_stop hmem) (window_add hwindow 1)
  | case8 b c rest _ _ hsharp inner ih =>
    intro pos hseam hwindow
    obtain ⟨tail, hdrop⟩ := exists_drop_of_window hwindow
    rw [Nat.add_comm 2, List.drop_succ_cons, List.drop_succ_cons] at hdatum
    simp only [Bool.and_eq_true, beq_iff_eq] at hsharp
    obtain ⟨rfl, rfl⟩ := hsharp
    obtain ⟨hmem, hmark⟩ := mem_functionMark hseam hdrop
    exact .after_mark hapart hmem (.inl hmark) rfl fun hpos =>
      ih hdatum hpos (Lexeme.isSeam_stop hmem) (window_add hwindow 2)
  | case9 => cases hpos

/-- No marker is left after the markers. -/
theorem head_drop_leadingMarkers {d : UInt8}
    (hdatum : bytes.drop (leadingMarkers bytes).1 = d :: rest) :
    d ≠ quote ∧ d ≠ backquote ∧ d ≠ comma := by
  fun_induction leadingMarkers bytes with
  | case1 => cases hdatum
  | case2 => cases hdatum
  | case3 => cases hdatum
  | case4 b hquote hcomma =>
    obtain ⟨rfl, -⟩ := List.cons.inj hdatum
    simp_all
  | case5 b c rest hb ih =>
    rw [Nat.add_comm 1, List.drop_succ_cons] at hdatum
    exact ih hdatum
  | case6 b c rest _ hb hc inner ih =>
    rw [Nat.add_comm 2, List.drop_succ_cons, List.drop_succ_cons] at hdatum
    exact ih hdatum
  | case7 b c rest _ hb hc inner ih =>
    rw [Nat.add_comm 1, List.drop_succ_cons] at hdatum
    exact ih hdatum
  | case8 b c rest _ _ hsharp inner ih =>
    rw [Nat.add_comm 2, List.drop_succ_cons, List.drop_succ_cons] at hdatum
    exact ih hdatum
  | case9 b c rest hquote hcomma hsharp =>
    obtain ⟨rfl, -⟩ := List.cons.inj hdatum
    simp_all

end Markers

section Steps

variable {source rest : List UInt8} {pos stop : Nat} {b : UInt8}

/-- The second byte of the mark of a function is an apostrophe. -/
theorem halfway_byte {l : Lexeme} (hstart : l.span.start + 1 = pos)
    (hmark : l.isFunctionMark source = true) (hdrop : source.drop pos = b :: rest) :
    b = quote := by
  have hget : source[pos]? = some b := head_of_drop_cons hdrop
  rw [← hstart] at hget
  simp only [Lexeme.isFunctionMark, hget, Bool.and_eq_true, beq_iff_eq, Option.some.injEq] at hmark
  exact hmark.2

/-- Passing the markers from where reading may stand, outside of comments, leads to a datum. -/
theorem IsReady.datumAt (h : IsReady source pos) (hapart : CommentsApart source)
    (hwindow : window source pos stop = b :: rest)
    (houtside : (Layout.ofBytes source).comments.contains pos = false) {d : UInt8}
    {after : List UInt8}
    (hdatum : (b :: rest).drop (leadingMarkers (b :: rest)).1 = d :: after) :
    DatumAt source (pos + (leadingMarkers (b :: rest)).1) := by
  have hkept : ∀ l ∈ lexemes source, l.span.contains pos = true → l.kind.isComment = false := by
    intro l hl hpos
    rw [Bool.eq_false_iff]
    intro hkind
    rw [((Layout.collects_comments source).contains_iff pos).2 ⟨l, hl, hkind, hpos⟩] at houtside
    cases houtside
  have hcomment : ∀ l ∈ lexemes source, l.span.start = pos → l.isBlockComment source = false := by
    rintro l hl rfl
    simp [Lexeme.isBlockComment, hkept l hl (Lexeme.contains_start hl)]
  have hseam (hseam : IsSeam source pos) (horigin : IsFresh source pos ∨
      afterFeatureSign source pos = true ∨ Ends (source.drop pos)) :
      DatumAt source (pos + (leadingMarkers (b :: rest)).1) := by
    rcases Nat.eq_zero_or_pos (leadingMarkers (b :: rest)).1 with hzero | hpos
    · rw [hzero]
      exact ⟨hseam, horigin, hcomment⟩
    · exact datumAt_of_leadingMarkers hapart hdatum hpos hseam hwindow
  cases h with
  | fresh h hfresh => exact hseam h (.inl hfresh)
  | feature h hsign => exact hseam h (.inr (.inl hsign))
  | ended h hends => exact hseam h (.inr (.inr hends))
  | @halfway l hl hstart hmark =>
    obtain ⟨tail, hdrop⟩ := exists_drop_of_window hwindow
    obtain rfl : b = quote := halfway_byte hstart hmark hdrop
    have hstop : l.span.stop = pos + 1 := by
      rw [Lexeme.stop_of_isFunctionMark hl hmark, ← hstart]
    cases rest with
    | nil => cases hdatum
    | cons c rest =>
      have hwidth : (leadingMarkers (quote :: c :: rest)).1 = 1 + (leadingMarkers (c :: rest)).1 :=
        rfl
      rw [hwidth, Nat.add_comm 1, List.drop_succ_cons] at hdatum
      rw [hwidth]
      exact .after_mark hapart hl (.inl hmark) hstop fun hpos =>
        datumAt_of_leadingMarkers hapart hdatum hpos (hstop ▸ Lexeme.isSeam_stop hl)
          (window_add hwindow 1)
  | comment hl hkind hpos =>
    rw [hkept _ hl hpos] at hkind
    cases hkind

/-- The offset is that of a bracket, where no atom goes on. -/
def IsBracketAt (source : List UInt8) (offset : Nat) : Prop :=
  ∃ l ∈ lexemes source, l.kind.isBracket = true ∧ l.span.start = offset

/-- A bracket stands inside the source. -/
theorem IsBracketAt.lt_length {offset : Nat} (h : IsBracketAt source offset) :
    offset < source.length := by
  obtain ⟨l, hl, -, rfl⟩ := h
  obtain ⟨b, rest, hdrop, -⟩ := Lexeme.exists_read rfl hl
  exact pos_le_of_drop_cons hdrop

/-- An atom that starts before a bracket ends there at the latest. -/
theorem AtomTo.le_of_isBracketAt {next : Nat} (h : AtomTo source pos next)
    (hbracket : IsBracketAt source stop) (hle : pos ≤ stop) : next ≤ stop := by
  obtain ⟨last, hjoins, hnext⟩ := h
  obtain ⟨l, hl, hkind, rfl⟩ := hbracket
  have hlast : last ≤ l.span.start := by
    rw [← Nat.not_lt]
    intro hlt
    have hapart := Lexeme.separates_eq_false (hjoins.parts l hl hle hlt).1
    rw [Lexeme.separates_of_kind (.inl hkind)] at hapart
    cases hapart
  rcases hnext with rfl | ⟨rfl, m, hm, hmstart, hmark⟩
  · exact hlast
  · refine Nat.lt_of_le_of_ne hlast fun heq => ?_
    rw [Lexeme.eq_of_start hm hl (hmstart.trans heq)] at hmark
    have hapart := (Lexeme.breaks_of_mark (.inl hmark)).1
    rw [Lexeme.separates_of_kind (.inl hkind)] at hapart
    cases hapart

/-- A datum that is no block comment is an atom as far as the bytes go. -/
theorem DatumAt.atomTo (h : DatumAt source pos) (hapart : CommentsApart source) :
    AtomTo source pos (pos + atomLength (source.drop pos)) := by
  rw [atomLength_eq]
  exact atomTo_plainAtomLength hapart h.seam h.comment

/-- The stretch up to a bracket does not cut an atom short. -/
theorem DatumAt.atomLength_eq (h : DatumAt source pos) (hapart : CommentsApart source)
    (hbracket : IsBracketAt source stop) (hwindow : window source pos stop = b :: rest) :
    atomLength (source.drop pos) = atomLength (b :: rest) := by
  obtain ⟨tail, hdrop⟩ := exists_drop_of_window hwindow
  have hlt := lt_of_window_cons hwindow
  have hlength : (b :: rest).length = stop - pos := by
    rw [← hwindow, length_window (Nat.le_of_lt hbracket.lt_length)]
  have hend := (h.atomTo hapart).le_of_isBracketAt hbracket (Nat.le_of_lt hlt)
  have hle := atomLength_le (b :: rest)
  have houtlasts := outlasts_atomLength tail (b :: rest)
  rw [← hdrop] at houtlasts
  unfold Outlasts at houtlasts
  omega

/-- After an atom, reading may go on. -/
theorem DatumAt.isReady_atomLength (h : DatumAt source pos) (hapart : CommentsApart source)
    (hle : pos ≤ source.length) : IsReady source (pos + atomLength (source.drop pos)) := by
  have hlength : pos + atomLength (source.drop pos) ≤ source.length := by
    have := atomLength_le (source.drop pos)
    rw [List.length_drop] at this
    omega
  obtain ⟨last, hjoins, hstop | ⟨hstop, l, hl, hstart, hmark⟩⟩ := h.atomTo hapart
  · refine .ended (hstop ▸ hjoins.isSeam h.seam (hstop ▸ hlength)) ?_
    rw [← List.drop_drop]
    exact ends_drop_atomLength _
  · exact .halfway hl (by omega) hmark

/-- An atom among the elements is a datum, and ends where the text says that it does. -/
structure AtomAt (source : List UInt8) (s : Span) : Prop where
  /-- It starts where a datum may start. -/
  datum : DatumAt source s.start
  /-- It is not empty. -/
  proper : s.start < s.stop
  /-- It is as long as the atom that the text starts there. -/
  stop_eq : s.stop = s.start + atomLength (source.drop s.start)

/-- What a step reads, and where it leads. -/
structure Reading.StepReady (source : List UInt8) (stop : Nat) (read : Option Reading)
    (next : Nat) : Prop where
  /-- An atom is a datum. -/
  atom : ∀ e, read = some (.element e) → e.isAtom = true → AtomAt source e.span
  /-- Reading may go on, if anything is left. -/
  next : next < stop → IsReady source next

private theorem Reading.StepReady.skip {next : Nat} (h : next < stop → IsReady source next) :
    StepReady source stop none next :=
  ⟨fun _ he => (by cases he), h⟩

private theorem Reading.stepReady_group {opened more : Nat} {quoted : Bool} {read : Option Reading}
    (hle : pos ≤ opened)
    (h : Reading.group (Layout.ofBytes source) stop pos opened quoted = some (read, more)) :
    StepReady source stop read (pos + 1 + more) := by
  unfold Reading.group at h
  split at h
  · cases h
  · next closed hclosed =>
    split at h
    · simp only [Option.some.injEq, Prod.mk.injEq] at h
      obtain ⟨rfl, rfl⟩ := h
      have hpair := PairIndex.mem_of_closingOf hclosed
      have hlt := (Layout.laminar_ofBytes source).lt _ hpair
      obtain ⟨l, hl, -, hlstop, hbreak⟩ := exists_break_of_mem_pairs hpair (.inr rfl)
      simp only at hlt hlstop
      have hnext : pos + 1 + (closed - pos) = l.span.stop := by omega
      rw [hnext]
      refine ⟨fun e he hatom => ?_, fun _ => .of_break hl hbreak⟩
      simp only [Option.some.injEq, Reading.element.injEq] at he
      subst he
      simp [Element.isAtom] at hatom
    · cases h

/-- Inside a comment or at its end, reading may go on. -/
theorem IsReady.of_comment {l : Lexeme} (hl : l ∈ lexemes source)
    (hkind : l.kind.isComment = true) (hstart : l.span.start ≤ pos) (hstop : pos ≤ l.span.stop) :
    IsReady source pos := by
  rcases Nat.eq_or_lt_of_le hstop with rfl | hlt
  · exact .of_kind hl (.inr (.inl hkind))
  · exact .comment hl hkind (Span.contains_iff.2 ⟨hstart, hlt⟩)

/-- After whitespace, reading may go on. -/
theorem IsReady.succ_of_isWhitespace (h : IsReady source pos) (hdrop : source.drop pos = b :: rest)
    (hb : isWhitespace b = true) : IsReady source (pos + 1) := by
  have hseam (hseam : IsSeam source pos) : IsReady source (pos + 1) := by
    have hmem := hseam.mem_of_read hdrop (LexemeKind.read_plain (.inr hb) rest) (Nat.zero_le _)
    have hbreak := isBreak_of_isDelimiter hdrop (by simp [isDelimiter, hb]) (pos + 1)
    rw [LexemeKind.read_plain (.inr hb)] at hbreak
    exact IsReady.of_break hmem hbreak
  cases h with
  | fresh h => exact hseam h
  | feature h => exact hseam h
  | ended h => exact hseam h
  | halfway hl hstart hmark =>
    rw [halfway_byte hstart hmark hdrop] at hb
    exact absurd hb (by decide)
  | comment hl hkind hpos =>
    rw [Span.contains_iff] at hpos
    exact .of_comment hl hkind (by omega) (by omega)

/-- After the sign of a feature test, reading may go on. -/
theorem isReady_feature (hseam : IsSeam source pos) (hdrop : source.drop pos = hash :: rest)
    (hhead : rest.head? = some plus ∨ rest.head? = some minus) : IsReady source (pos + 2) := by
  obtain ⟨sign, tail, rfl, hsign⟩ : ∃ sign tail, rest = sign :: tail ∧
      (sign = plus ∨ sign = minus) := by
    simp only [List.head?_eq_some_iff] at hhead
    rcases hhead with ⟨tail, rfl⟩ | ⟨tail, rfl⟩
    · exact ⟨_, tail, rfl, .inl rfl⟩
    · exact ⟨_, tail, rfl, .inr rfl⟩
  have hplain : isPlain sign = true := by rcases hsign with rfl | rfl <;> decide
  have hread : LexemeKind.read hash (sign :: tail) = (.plain, 0) := by
    rcases hsign with rfl | rfl <;> rfl
  have hquote : (sign :: tail).head? ≠ some quote := by rcases hsign with rfl | rfl <;> simp +decide
  obtain ⟨-, hnext, -, -⟩ := joins_plain hseam hdrop hread (by decide) (.inr hquote)
  have hafter := drop_succ_of_drop_cons hdrop
  obtain ⟨-, hend, -, -⟩ := joins_plain hnext hafter (LexemeKind.read_plain (.inl hplain) tail)
    (isWhitespace_of_not_isDelimiter (isPlain_iff.1 hplain).1)
    (.inl (isPlain_iff.1 hplain).2.2.2)
  have hfeature : afterFeatureSign source (pos + 1 + [].length + 1) = true :=
    afterFeatureSign_of_drop hdrop (List.forall_mem_nil _) hsign
  exact .feature hend hfeature

/-- Where a string is read, it holds at least one byte. -/
theorem lt_stop_stringSpan (layout : Layout) {datum : Nat} (hlt : datum < stop) :
    datum < (stringSpan layout stop datum).stop := by
  unfold stringSpan
  split
  · next s hs =>
    have := (SpanSet.bounds_of_spanAt hs).2
    simp only
    omega
  · exact hlt

/-- Where a string starts, the layout knows a string. -/
theorem exists_spanAt_of_doubleQuote (hseam : IsSeam source pos)
    (hdrop : source.drop pos = doubleQuote :: rest) :
    ∃ s, (Layout.ofBytes source).strings.spanAt pos = some s := by
  have hmem := hseam.mem hdrop
  have hstring : (LexemeKind.read doubleQuote rest).1.isString = true := by
    rw [LexemeKind.read_doubleQuote]
    cases closing? doubleQuote rest <;> rfl
  exact Option.isSome_iff_exists.1 (((Layout.collects_strings source).contains_iff pos).2
    ⟨_, hmem, hstring, Lexeme.contains_start hmem⟩)

/-- Where a string starts, it is passed up to its end. -/
theorem isReady_stringSpan (hseam : IsSeam source pos)
    (hdrop : source.drop pos = doubleQuote :: rest)
    (hlt : (stringSpan (Layout.ofBytes source) stop pos).stop < stop) :
    IsReady source (stringSpan (Layout.ofBytes source) stop pos).stop := by
  obtain ⟨s, hs⟩ := exists_spanAt_of_doubleQuote hseam hdrop
  have hspan : stringSpan (Layout.ofBytes source) stop pos = ⟨s.start, min s.stop stop⟩ := by
    rw [stringSpan, hs]
  rw [hspan] at hlt ⊢
  simp only at hlt ⊢
  obtain ⟨l, hl, hkind, hstop⟩ := (Layout.collects_strings source).stop s
    (SpanSet.mem_of_spanAt hs)
  have hmin : min s.stop stop = l.span.stop := by omega
  rw [hmin]
  exact .of_kind hl (.inr (.inr hkind))

/-- Where nothing is read, the byte is whitespace or starts a comment. -/
theorem isReady_succ_of_isDelimiter (hseam : IsSeam source pos)
    (hdrop : source.drop pos = b :: rest) (hb : isDelimiter b = true) (hcomma : b ≠ comma)
    (hstring : b ≠ doubleQuote) : IsReady source (pos + 1) := by
  have hmem := hseam.mem hdrop
  rcases read_of_isDelimiter rest hb with h | h | hmore | ⟨rfl, -⟩
  · refine .of_comment hmem h (Nat.le_succ _) ?_
    simp only
    omega
  · exact absurd h.1 hstring
  · rw [hmore, Nat.zero_min, Nat.add_zero] at hmem
    exact IsReady.of_break hmem (isBreak_of_isDelimiter hdrop hb _)
  · exact absurd rfl hcomma

/-- Reading a datum, `width` bytes after the markers before it start. -/
theorem Reading.stepReady_datum (hapart : CommentsApart source)
    (hbracket : IsBracketAt source stop) {width more : Nat} {quoted : Bool} {d : UInt8}
    {read : Option Reading} (hwindow : window source (pos + width) stop = d :: rest)
    (hdatum : DatumAt source (pos + width)) (hmarks : d ≠ quote ∧ d ≠ backquote ∧ d ≠ comma)
    (h : Reading.datum (Layout.ofBytes source) stop pos width quoted d rest = some (read, more)) :
    StepReady source stop read (pos + 1 + more) := by
  obtain ⟨tail, hdrop⟩ := exists_drop_of_window hwindow
  have hlt := lt_of_window_cons hwindow
  have hnext : pos + 1 + width = pos + width + 1 := Nat.add_right_comm _ _ _
  unfold Reading.datum at h
  split at h
  · next hfeature =>
    simp only [Option.some.injEq, Prod.mk.injEq] at h
    obtain ⟨rfl, rfl⟩ := h
    simp only [Bool.and_eq_true, Bool.or_eq_true, beq_iff_eq] at hfeature
    obtain ⟨rfl, hsign⟩ := hfeature
    have hhead : (rest ++ tail).head? = some plus ∨ (rest ++ tail).head? = some minus := by
      rcases hsign with h | h <;> simp [List.head?_append, h]
    have hready := isReady_feature hdatum.seam hdrop hhead
    have hend : pos + 1 + (width + 1) = pos + width + 2 := by omega
    rw [hend]
    exact ⟨fun e he => (by cases he), fun _ => hready⟩
  split at h
  · exact stepReady_group (by omega) h
  split at h
  · exact stepReady_group (by omega) h
  split at h
  · next hclosing =>
    simp only [Option.some.injEq, Prod.mk.injEq] at h
    obtain ⟨rfl, rfl⟩ := h
    obtain rfl := eq_of_beq hclosing
    rw [hnext]
    exact .skip fun _ => isReady_succ_of_isDelimiter hdatum.seam hdrop (by decide) (by decide)
      (by decide)
  split at h
  · next hstring =>
    simp only [Option.some.injEq, Prod.mk.injEq] at h
    obtain ⟨rfl, rfl⟩ := h
    obtain rfl := eq_of_beq hstring
    refine ⟨fun e he hatom => ?_, fun hinside => ?_⟩
    · simp only [Option.some.injEq, Reading.element.injEq] at he
      subst he
      simp [Element.isAtom] at hatom
    · have hbeyond := lt_stop_stringSpan (Layout.ofBytes source) hlt
      have hend : pos + 1 + ((stringSpan (Layout.ofBytes source) stop (pos + width)).stop -
          (pos + 1)) = (stringSpan (Layout.ofBytes source) stop (pos + width)).stop := by
        omega
      rw [hend] at hinside ⊢
      exact isReady_stringSpan hdatum.seam hdrop hinside
  next hstring =>
  split at h
  · next hnone =>
    simp only [Option.some.injEq, Prod.mk.injEq] at h
    obtain ⟨rfl, rfl⟩ := h
    have hd : isDelimiter d = true := by
      rw [← Bool.not_eq_false]
      intro hd
      have hone : 1 ≤ atomLength (d :: rest) := one_le_atomLength hd
      omega
    rw [hnext]
    exact .skip fun _ => isReady_succ_of_isDelimiter hdatum.seam hdrop hd hmarks.2.2
      (by simpa using hstring)
  · next n hlength =>
    simp only [Option.some.injEq, Prod.mk.injEq] at h
    obtain ⟨rfl, rfl⟩ := h
    have hwhole := hdatum.atomLength_eq hapart hbracket hwindow
    rw [hlength] at hwhole
    have hready := hdatum.isReady_atomLength hapart (by have := hbracket.lt_length; omega)
    rw [hwhole] at hready
    have hend : pos + 1 + (width + n) = pos + width + (n + 1) := by omega
    rw [hend]
    refine ⟨fun e he _ => ?_, fun _ => hready⟩
    simp only [Option.some.injEq, Reading.element.injEq] at he
    subst he
    exact ⟨hdatum, by simp only; omega, by simp only [hwhole]; omega⟩

/-- A step from where reading may stand reads an atom that is a datum, if any, and leads to where
reading may stand. -/
theorem Reading.stepReady (hapart : CommentsApart source) (hbracket : IsBracketAt source stop)
    (hready : IsReady source pos) (hwindow : window source pos stop = b :: rest)
    {read : Option Reading} {more : Nat}
    (h : Reading.step (Layout.ofBytes source) stop pos b rest = some (read, more)) :
    StepReady source stop read (pos + 1 + more) := by
  obtain ⟨tail, hdrop⟩ := exists_drop_of_window hwindow
  unfold Reading.step at h
  split at h
  · next hblank =>
    simp only [Option.some.injEq, Prod.mk.injEq] at h
    obtain ⟨rfl, rfl⟩ := h
    exact .skip fun _ => hready.succ_of_isWhitespace hdrop hblank
  split at h
  · next c hcomment =>
    simp only [Option.some.injEq, Prod.mk.injEq] at h
    obtain ⟨rfl, rfl⟩ := h
    have hbounds := SpanSet.bounds_of_spanAt hcomment
    obtain ⟨l, hl, hkind, hstop⟩ := (Layout.collects_comments source).stop c
      (SpanSet.mem_of_spanAt hcomment)
    have hnext : pos + 1 + (c.stop - (pos + 1)) = l.span.stop := by omega
    rw [hnext]
    exact .skip fun _ => .of_kind hl (.inr (.inl hkind))
  split at h
  · cases h
  · next hcomment _ d after hdatum =>
    have houtside : (Layout.ofBytes source).comments.contains pos = false := by
      simp [SpanSet.contains, hcomment]
    have hwindow' : window source (pos + (leadingMarkers (b :: rest)).1) stop = d :: after := by
      rw [window_add hwindow, hdatum]
    exact stepReady_datum hapart hbracket hwindow'
      (hready.datumAt hapart hwindow houtside hdatum) (head_drop_leadingMarkers hdatum) h

/-- Every atom that is read up to a bracket is a datum. -/
theorem atomAt_of_mem_readings (hapart : CommentsApart source) (hbracket : IsBracketAt source stop)
    {bytes : List UInt8} (hwindow : window source pos stop = bytes)
    (hready : pos < stop → IsReady source pos) {e : Element}
    (h : .element e ∈ readings (Layout.ofBytes source) stop pos bytes) (hatom : e.isAtom = true) :
    AtomAt source e.span := by
  fun_induction readings (Layout.ofBytes source) stop pos bytes with
  | case1 => cases h
  | case2 => cases h
  | case3 pos b rest read more hstep ih =>
    have hstep := Reading.stepReady hapart hbracket (hready (lt_of_window_cons hwindow)) hwindow
      hstep
    rcases List.mem_append.1 h with hread | hrest
    · exact hstep.atom e (Option.mem_toList.1 hread) hatom
    · have hnext : window source (pos + 1 + more) stop = rest.drop more := by
        rw [Nat.add_assoc, window_add hwindow, Nat.add_comm 1 more, List.drop_succ_cons]
      exact ih hnext hstep.next hrest

end Steps

/-! ## Atoms of a form -/

namespace AtomAt

variable {source : List UInt8} {s : Span}

/-- An atom starts with a byte that ends no atom. -/
theorem exists_drop (h : AtomAt source s) :
    ∃ b rest, source.drop s.start = b :: rest ∧ isDelimiter b = false := by
  cases hdrop : source.drop s.start with
  | nil =>
    have hstop := h.stop_eq
    have hproper := h.proper
    rw [hdrop] at hstop
    change s.stop = s.start + 0 at hstop
    omega
  | cons b rest =>
    refine ⟨b, rest, rfl, ?_⟩
    rw [Bool.eq_false_iff]
    intro hb
    have hstop := h.stop_eq
    have hproper := h.proper
    rw [hdrop, atomLength_eq, plainAtomLength_of_ends (.cons hb)] at hstop
    omega

/-- An atom runs to where the scanner ends it when the comments stand apart. -/
theorem atomTo (h : AtomAt source s) (hapart : CommentsApart source) :
    AtomTo source s.start s.stop := by
  rw [h.stop_eq]
  exact h.datum.atomTo hapart

/-- The atom holds nothing of a comment or a string. -/
theorem not_contains (h : AtomAt source s) (hapart : CommentsApart source) {offset : Nat}
    (hoffset : s.contains offset = true) :
    (Layout.ofBytes source).commentsAndStrings.contains offset = false := by
  rw [Span.contains_iff] at hoffset
  refine (h.atomTo hapart).not_contains_skip h.datum.seam hoffset.1 hoffset.2 ?_
  have hle := atomLength_le (source.drop s.start)
  have hstop := h.stop_eq
  rw [List.length_drop] at hle
  omega

/-- Where neither a feature test nor a splicing comma is in the way, a word starts. -/
theorem startsWord (h : AtomAt source s) (hapart : CommentsApart source)
    (hhash : source[s.start]? ≠ some hash) (hfeature : afterFeatureSign source s.start = false)
    (hsplice : afterSplice source s.start = false)
    (hgroup : ∀ p ∈ (Layout.ofBytes source).pairs.pairs,
      afterFeatureSign source p.opening = true → ¬(p.opening < s.start ∧ s.start < p.closing)) :
    StartsWord source s.start where
  seam := h.datum.seam
  fresh := by
    obtain ⟨b, rest, hdrop, hb⟩ := h.exists_drop
    rcases h.datum.origin with hfresh | hsign | hends
    · exact hfresh
    · rw [hfeature] at hsign
      cases hsign
    · rw [hends b (by rw [hdrop]; rfl)] at hb
      cases hb
  part := by
    intro l hl hstart
    obtain ⟨last, hjoins, hstop⟩ := h.atomTo hapart
    rcases Nat.eq_or_lt_of_le hjoins.le with heq | hlt
    · rcases hstop with hstop | ⟨-, m, -, hmstart, hmark⟩
      · have := h.proper
        omega
      · simp only [Lexeme.isFunctionMark, hmstart, ← heq, Bool.and_eq_true, beq_iff_eq] at hmark
        exact absurd hmark.1.2 hhash
    · exact (hjoins.parts l hl (Nat.le_of_eq hstart.symm) (hstart ▸ hlt)).1
  splice := hsplice
  feature := hgroup

end AtomAt

namespace Source

/-- The atom is written like a symbol: it starts with no number sign, and is no keyword, dot or
number. -/
def isName (src : Source) (e : Element) : Bool :=
  e.isAtom && (src.textOf e).toList.head? != some '#' && isSymbolText (src.textOf e)

/-- The offset lies in the test of a feature expression: right after its sign, or in the group that
stands there. -/
def inFeatureTest (src : Source) (offset : Nat) : Bool :=
  afterFeatureSign src.bytes offset ||
    src.layout.pairs.pairs.any fun p => afterFeatureSign src.bytes p.opening &&
      decide (p.opening < offset) && decide (offset < p.closing)

/-- The element is one of the symbols, under the name that it writes. -/
def Reports (src : Source) (e : Element) : Prop :=
  ⟨lowerCase (src.textOf e), e.span⟩ ∈ src.symbols

/-- Nothing is read out of comments and strings. -/
structure ReadsOutside (src : Source) : Prop where
  /-- No symbol shares an offset with a comment or a string. -/
  symbols : ∀ s ∈ src.symbols, src.layout.commentsAndStrings.meets s.span = false
  /-- No atom of a form does. -/
  atoms : ∀ p ∈ src.layout.pairs.pairs, ∀ e ∈ src.elements p, e.isAtom = true →
    src.layout.commentsAndStrings.meets e.span = false

variable {text : String}

/-- Behind the opening bracket of a form, reading may start. -/
theorem isReady_inside {p : Pair} (hp : p ∈ (ofText text).layout.pairs.pairs) :
    IsReady (Utf8.bytes text) (p.opening + 1) := by
  obtain ⟨l, hl, -, hstop, hbreak⟩ := exists_break_of_mem_pairs hp (.inl rfl)
  exact hstop ▸ .of_break hl hbreak

/-- An element read as an atom is an atom of the source. -/
theorem atomAt_of_mem_elements (hapart : CommentsApart (Utf8.bytes text)) {p : Pair}
    (hp : p ∈ (ofText text).layout.pairs.pairs) {e : Element} (he : e ∈ (ofText text).elements p)
    (hatom : e.isAtom = true) : AtomAt (Utf8.bytes text) e.span := by
  have hbracket : IsBracketAt (Utf8.bytes text) p.closing :=
    Layout.exists_bracket_of_mem_pairs hp (.inr rfl)
  have hread := mem_readings_of_mem_elementsOf he
  rw [show (ofText text).bytes = Utf8.bytes text from rfl,
    Nat.min_eq_left (Nat.le_of_lt hbracket.lt_length)] at hread
  exact atomAt_of_mem_readings hapart hbracket rfl (fun _ => isReady_inside hp) hread hatom

/-- Where block comments stand apart, nothing is read out of comments and strings. -/
theorem readsOutside_ofText (text : String) (hapart : CommentsApart (Utf8.bytes text)) :
    (ofText text).ReadsOutside where
  symbols := by
    intro s hs
    have hproper := start_lt_stop_of_mem_symbols hs
    obtain ⟨word, hword, hsymbol⟩ := List.mem_filterMap.1 hs
    refine SpanSet.meets_eq_false (Layout.collects_commentsAndStrings _).separated hproper
      fun offset hoffset => ?_
    rw [Symbol.span_of_ofWord hsymbol] at hoffset
    exact (wordAt_of_mem_wordsFrom hapart (.inl (.zero _)) rfl hword).not_contains hapart hoffset
  atoms := by
    intro p hp e he hatom
    have h := atomAt_of_mem_elements hapart hp he hatom
    exact SpanSet.meets_eq_false (Layout.collects_commentsAndStrings _).separated h.proper
      fun offset hoffset => h.not_contains hapart hoffset

/-- A form with a quoted name, a comment and a string: the comment stands apart. -/
theorem readsOutside_ofText_notes :
    CommentsApart (Utf8.bytes "(f 'x #| y |# \"z\")") ∧
      (ofText "(f 'x #| y |# \"z\")").ReadsOutside := by
  have hapart : CommentsApart (Utf8.bytes "(f 'x #| y |# \"z\")") := by decide +kernel
  exact ⟨hapart, readsOutside_ofText _ hapart⟩

/-- A block comment right after a name is taken for a part of it. -/
theorem not_readsOutside_glued : ¬(ofText "a#| b |#").ReadsOutside := by
  intro h
  have hsymbols : (ofText "a#| b |#").symbols = [⟨"a#| b |#", ⟨0, 8⟩⟩] := by cbv
  have hmeets : (ofText "a#| b |#").layout.commentsAndStrings.meets ⟨0, 8⟩ = true := by cbv
  have hapart := h.symbols ⟨"a#| b |#", ⟨0, 8⟩⟩ (by rw [hsymbols]; exact List.mem_singleton_self _)
  rw [hmeets] at hapart
  cases hapart

/-- An atom that starts with a number sign says so in its text. -/
theorem head?_textOf {src : Source} {e : Element} {rest : List UInt8}
    (hdrop : src.bytes.drop e.span.start = hash :: rest) (hproper : e.span.start < e.span.stop) :
    (src.textOf e).toList.head? = some '#' := by
  obtain ⟨n, hn⟩ : ∃ n, e.span.length = n + 1 := ⟨e.span.length - 1, by
    simp only [Span.length]
    omega⟩
  rw [textOf, slice, Utf8.slice, String.toList_ofList, Utf8.cut, hdrop, hn, List.take_succ_cons,
    decode_cons_ascii (by decide)]
  rfl

/-- Where block comments stand apart, an atom of a form that is written like a symbol is one of the
symbols, at the same place and under the same name, unless it lies in a feature test or a splicing
comma stands right before it. -/
theorem reports_of_isName (hapart : CommentsApart (Utf8.bytes text)) {p : Pair}
    (hp : p ∈ (ofText text).layout.pairs.pairs) {e : Element} (he : e ∈ (ofText text).elements p)
    (hname : (ofText text).isName e = true)
    (hfeature : (ofText text).inFeatureTest e.span.start = false)
    (hsplice : afterSplice (ofText text).bytes e.span.start = false) :
    (ofText text).Reports e := by
  simp only [isName, Bool.and_eq_true, bne_iff_ne, ne_eq] at hname
  obtain ⟨⟨hatom, hsign⟩, hsymbol⟩ := hname
  simp only [inFeatureTest, Bool.or_eq_false_iff, List.any_eq_false, Bool.and_eq_true,
    decide_eq_true_eq, not_and] at hfeature
  have h := atomAt_of_mem_elements hapart hp he hatom
  obtain ⟨b, rest, hdrop, -⟩ := h.exists_drop
  have hhash : b ≠ hash := by
    rintro rfl
    exact hsign (head?_textOf hdrop h.proper)
  have hword : StartsWord (Utf8.bytes text) e.span.start := by
    refine h.startsWord hapart ?_ hfeature.1 hsplice ?_
    · have hget : (Utf8.bytes text)[e.span.start]? = some b :=
        head_of_drop_cons hdrop
      rw [hget]
      exact fun h => hhash (Option.some.inj h)
    · intro q hq hopening hinside
      exact hfeature.2 q hq ⟨hopening, hinside.1⟩ hinside.2
  have hmem := mem_wordsFrom_of_startsWord hapart (.inl (.zero _)) rfl hword (Nat.zero_le _) hdrop
    hhash
  have hstop := h.stop_eq
  rw [hdrop] at hstop
  have hlength : e.span.length = atomLength (b :: rest) := by
    rw [Span.length, hstop, Nat.add_sub_cancel_left]
  have htext : (ofText text).textOf e =
      String.ofList (Utf8.decode ((b :: rest).take (atomLength (b :: rest)))) := by
    have hbytes : (ofText text).bytes.drop e.span.start = b :: rest := hdrop
    rw [textOf, slice, Utf8.slice, Utf8.cut, hlength, hbytes]
  rw [← hstop] at hmem
  refine List.mem_filterMap.2 ⟨_, hmem, ?_⟩
  rw [Symbol.ofWord, ← htext, if_pos hsymbol]

/-- A name behind a comma is one of the symbols, with a comment after it. -/
theorem reports_of_isName_marked :
    CommentsApart (Utf8.bytes "(f ,x #| y |#)") ∧
      (ofText "(f ,x #| y |#)").Reports ⟨.atom, ⟨4, 5⟩, 3, false⟩ := by
  have hapart : CommentsApart (Utf8.bytes "(f ,x #| y |#)") := by decide +kernel
  have hpairs : (ofText "(f ,x #| y |#)").layout.pairs.pairs = [⟨0, 13⟩] := by cbv
  have helements : (ofText "(f ,x #| y |#)").elements ⟨0, 13⟩ =
      [⟨.atom, ⟨1, 2⟩, 1, false⟩, ⟨.atom, ⟨4, 5⟩, 3, false⟩] := by cbv
  have hpair : ⟨0, 13⟩ ∈ (ofText "(f ,x #| y |#)").layout.pairs.pairs := by simp [hpairs]
  refine ⟨hapart, reports_of_isName hapart hpair ?_ ?_ ?_ ?_⟩
  · simp [helements]
  · cbv
  · cbv
  · cbv

/-- The names in the test of a feature expression are atoms of a form and no symbols. -/
theorem not_reports_in_feature_test :
    ¬∀ text : String, ∀ p ∈ (ofText text).layout.pairs.pairs, ∀ e ∈ (ofText text).elements p,
      (ofText text).isName e = true → ∃ s ∈ (ofText text).symbols, s.span = e.span := by
  intro h
  have hpairs : (ofText "(a #-(or x y) c)").layout.pairs.pairs = [⟨0, 15⟩, ⟨5, 12⟩] := by cbv
  have helements : (ofText "(a #-(or x y) c)").elements ⟨5, 12⟩ =
      [⟨.atom, ⟨6, 8⟩, 6, false⟩, ⟨.atom, ⟨9, 10⟩, 9, false⟩,
        ⟨.atom, ⟨11, 12⟩, 11, false⟩] := by cbv
  have hsymbols : (ofText "(a #-(or x y) c)").symbols = [⟨"a", ⟨1, 2⟩⟩, ⟨"c", ⟨14, 15⟩⟩] := by cbv
  have hname : (ofText "(a #-(or x y) c)").isName ⟨.atom, ⟨9, 10⟩, 9, false⟩ = true := by cbv
  obtain ⟨s, hs, hspan⟩ := h "(a #-(or x y) c)" ⟨5, 12⟩ (by simp [hpairs])
    ⟨.atom, ⟨9, 10⟩, 9, false⟩ (by simp [helements]) hname
  simp only [hsymbols, List.mem_cons, List.not_mem_nil, or_false] at hs
  rcases hs with rfl | rfl <;> simp at hspan

/-- After a splicing comma the word starts with the second byte of the comma. -/
example : (ofText "(f ,@x)").symbols = [⟨"f", ⟨1, 2⟩⟩, ⟨"@x", ⟨4, 6⟩⟩] := by cbv

end Source

end LexScope
