import LexScope.Proofs.Form.Children
import LexScope.Proofs.Text.Columns

/-!
# Strings among elements are literals

A string literal is what stands between two quotes, where a backslash takes the byte after it as it
is. Strings that touch are one stretch of the layout, and so one element: it consists of literals
written one right after the other, and is a single one as long as nothing but its first quote
starts a string in it.
-/

namespace LexScope

open Byte Utf8

/-! ## Literals -/

/-- What may stand between the quotes of a literal: no quote that is not escaped. -/
inductive LiteralBody : List UInt8 → Prop where
  /-- Nothing. -/
  | nil : LiteralBody []
  /-- A byte that neither ends the literal nor escapes another one. -/
  | plain {b : UInt8} {rest : List UInt8} (hquote : b ≠ doubleQuote) (hescape : b ≠ backslash)
      (h : LiteralBody rest) : LiteralBody (b :: rest)
  /-- Any byte after a backslash. -/
  | escaped (b : UInt8) {rest : List UInt8} (h : LiteralBody rest) :
      LiteralBody (backslash :: b :: rest)

/-- The bytes are one string literal with its quotes. -/
def IsLiteral (bytes : List UInt8) : Prop :=
  ∃ body, LiteralBody body ∧ bytes = doubleQuote :: (body ++ [doubleQuote])

/-- The closing quote is the first one that is not escaped. -/
theorem closing?_doubleQuote_iff {bytes : List UInt8} {n : Nat} :
    closing? doubleQuote bytes = some n ↔
      ∃ body rest, LiteralBody body ∧ bytes = body ++ doubleQuote :: rest ∧
        n = body.length + 1 := by
  constructor
  · intro h
    fun_induction closing? doubleQuote bytes generalizing n with
    | case1 => cases h
    | case2 b hb =>
      exact ⟨[], [], .nil, by rw [eq_of_beq hb]; rfl, (Option.some.inj h).symm⟩
    | case3 => cases h
    | case4 b c rest hb =>
      exact ⟨[], c :: rest, .nil, by rw [eq_of_beq hb]; rfl, (Option.some.inj h).symm⟩
    | case5 b c rest hb hescape ih =>
      obtain ⟨m, hm, rfl⟩ := Option.map_eq_some_iff.1 h
      obtain ⟨body, after, hbody, rfl, rfl⟩ := ih hm
      exact ⟨backslash :: c :: body, after, .escaped c hbody, by rw [eq_of_beq hescape]; rfl, rfl⟩
    | case6 b c rest hb hescape ih =>
      obtain ⟨m, hm, rfl⟩ := Option.map_eq_some_iff.1 h
      obtain ⟨body, after, hbody, hrest, rfl⟩ := ih hm
      exact ⟨b :: body, after, .plain (by simpa using hb) (by simpa using hescape) hbody,
        by rw [hrest]; rfl, rfl⟩
  · rintro ⟨body, rest, hbody, rfl, rfl⟩
    induction hbody with
    | nil => cases rest <;> rfl
    | @plain b body hquote hescape hbody ih =>
      obtain ⟨c, tail, hcons⟩ : ∃ c tail, body ++ doubleQuote :: rest = c :: tail :=
        List.exists_cons_of_ne_nil (by simp)
      rw [List.cons_append, hcons, closing?, if_neg (by simpa using hquote),
        if_neg (by simpa using hescape), ← hcons, ih]
      rfl
    | escaped b hbody ih =>
      rw [List.cons_append, List.cons_append, closing?, if_neg (by decide), if_pos (by decide), ih]
      rfl

/-- A literal ends where the first quote that is not escaped stands. -/
theorem isLiteral_iff_closing? {rest : List UInt8} :
    IsLiteral (doubleQuote :: rest) ↔ closing? doubleQuote rest = some rest.length := by
  rw [closing?_doubleQuote_iff, IsLiteral]
  refine exists_congr fun body => ?_
  constructor
  · rintro ⟨hbody, h⟩
    obtain rfl := (List.cons.inj h).2
    exact ⟨[], hbody, rfl, by simp⟩
  · rintro ⟨after, hbody, rfl, hlength⟩
    obtain rfl : after = [] := List.eq_nil_of_length_eq_zero (by simpa using hlength)
    exact ⟨hbody, rfl⟩

/-! ## Strings of the text -/

section Strings

variable {source : List UInt8} {l : Lexeme}

/-- What is never closed ends with the text. -/
theorem Lexeme.stop_of_isUnclosed (hl : l ∈ lexemes source) (hkind : l.kind.isUnclosed = true) :
    l.span.stop = source.length := by
  obtain ⟨b, rest, hdrop, hread, hstop⟩ := Lexeme.exists_read rfl hl
  have hlength := length_of_drop hdrop
  rw [hread] at hkind
  rw [hstop, LexemeKind.read_of_isUnclosed hkind]
  simp only [List.length_cons] at hlength
  omega

/-- A string that ends before the text does is a literal. -/
theorem Lexeme.isLiteral (hl : l ∈ lexemes source) (hkind : l.kind.isString = true)
    (hend : l.span.stop < source.length) : IsLiteral (cut source l.span) := by
  have hclosed : l.kind = .string := by
    cases hstring : l.kind <;> simp [hstring, LexemeKind.isString] at hkind ⊢
    have := Lexeme.stop_of_isUnclosed hl (by rw [hstring]; rfl)
    omega
  obtain ⟨b, rest, hdrop, hread, hstop⟩ := Lexeme.exists_read rfl hl
  obtain rfl : b = doubleQuote := by
    by_contra hb
    rw [hread, LexemeKind.isString_read hb rest] at hkind
    cases hkind
  rw [LexemeKind.read_doubleQuote] at hread hstop
  cases hclosing : closing? doubleQuote rest with
  | none =>
    rw [hclosing, hclosed] at hread
    cases hread
  | some n =>
    rw [hclosing] at hstop
    obtain ⟨body, after, hbody, rfl, rfl⟩ := closing?_doubleQuote_iff.1 hclosing
    refine ⟨body, hbody, ?_⟩
    have hlength : l.span.length = (body ++ [doubleQuote]).length + 1 := by
      simp only [LexemeKind.upTo, id, List.length_append, List.length_cons,
        List.length_nil] at hstop ⊢
      rw [Span.length, hstop]
      omega
    have hsplit : body ++ doubleQuote :: after = (body ++ [doubleQuote]) ++ after :=
      List.append_cons body _ after
    rw [cut, hdrop, hlength, List.take_succ_cons, hsplit, List.take_left]

/-- A string that starts a literal ends with it. -/
theorem Lexeme.stop_eq_of_isLiteral (hl : l ∈ lexemes source) {stop : Nat}
    (hstop : stop ≤ source.length) (hliteral : IsLiteral (cut source ⟨l.span.start, stop⟩)) :
    l.span.stop = stop := by
  obtain ⟨b, rest, hdrop, -, hread⟩ := Lexeme.exists_read rfl hl
  obtain ⟨body, hbody, hcut⟩ := hliteral
  have hlength := length_cut (a := l.span.start) hstop
  have hsplit := List.take_append_drop (stop - l.span.start) (b :: rest)
  rw [hcut, List.length_cons, List.length_append, List.length_singleton] at hlength
  rw [cut, hdrop, Span.length] at hcut
  rw [hcut, List.cons_append, List.cons.injEq, List.append_assoc] at hsplit
  obtain ⟨rfl, hrest⟩ := hsplit
  have hclosing : closing? doubleQuote rest = some (body.length + 1) :=
    closing?_doubleQuote_iff.2 ⟨body, _, hbody, hrest.symm, rfl⟩
  have hle : body.length + 1 ≤ rest.length := by
    rw [← hrest, List.length_append, List.length_append, List.length_singleton]
    omega
  rw [LexemeKind.read_doubleQuote, hclosing] at hread
  simp only [LexemeKind.upTo, id] at hread
  omega

variable {s : Span} (hs : s ∈ (Layout.ofBytes source).strings.spans)

include hs

/-- A string lies in one stretch. -/
theorem Layout.stop_le_of_mem_strings (hl : l ∈ lexemes source) (hkind : l.kind.isString = true)
    (hstart : s.contains l.span.start = true) : l.span.stop ≤ s.stop := by
  rw [Span.contains_iff] at hstart
  rw [← Nat.not_lt]
  intro hlt
  obtain ⟨t, ht, hcontains⟩ := strings_contains_iff.1 (((collects_strings source).contains_iff
    s.stop).2 ⟨l, hl, hkind, Span.contains_iff.2 ⟨Nat.le_of_lt hstart.2, hlt⟩⟩)
  rw [Span.contains_iff] at hcontains
  rcases eq_or_rel_of_pairwise (separated_ofBytes source).2.apart hs ht with rfl | h | h
  all_goals omega

/-- At each seam of a stretch a string starts. -/
theorem Layout.exists_string_of_isSeam {offset : Nat} (hseam : IsSeam source offset)
    (hoffset : s.contains offset = true) :
    ∃ l ∈ lexemes source, l.kind.isString = true ∧ l.span.start = offset := by
  obtain ⟨l, hl, hkind, hcontains⟩ := ((collects_strings source).contains_iff offset).1
    (strings_contains_iff.2 ⟨s, hs, hoffset⟩)
  rw [Span.contains_iff] at hcontains
  have := hseam.2 l hl
  exact ⟨l, hl, hkind, by omega⟩

/-- A stretch that ends before the text does consists of literals. -/
theorem Layout.exists_literals (hend : s.stop < source.length) {offset : Nat}
    (hseam : IsSeam source offset) (hoffset : s.contains offset = true) :
    ∃ literals : List (List UInt8), literals ≠ [] ∧ (∀ l ∈ literals, IsLiteral l) ∧
      cut source ⟨offset, s.stop⟩ = literals.flatten := by
  induction hsize : s.stop - offset using Nat.strongRecOn generalizing offset with
  | ind size ih =>
    obtain ⟨l, hl, hkind, rfl⟩ := exists_string_of_isSeam hs hseam hoffset
    have hstop := stop_le_of_mem_strings hs hl hkind hoffset
    have hproper := (Lexeme.inOrder_lexemes source).proper l hl
    have hliteral := Lexeme.isLiteral hl hkind (Nat.lt_of_le_of_lt hstop hend)
    rw [Span.contains_iff] at hoffset
    rcases Nat.eq_or_lt_of_le hstop with heq | hlt
    · exact ⟨[cut source l.span], by simp, by simpa using hliteral, by simp [← heq]⟩
    · obtain ⟨literals, -, hliterals, hcut⟩ := ih (s.stop - l.span.stop) (by omega)
        (Lexeme.isSeam_stop hl) (Span.contains_iff.2 ⟨by omega, hlt⟩) rfl
      refine ⟨cut source l.span :: literals, by simp, List.forall_mem_cons.2 ⟨hliteral, hliterals⟩,
        ?_⟩
      rw [List.flatten_cons, ← hcut]
      exact (cut_append (Nat.le_of_lt hproper) hstop).symm

/-- A stretch that ends before the text does is one literal, unless two strings touch in it. -/
theorem Layout.isLiteral_or_touches (hend : s.stop < source.length) :
    IsLiteral (cut source s) ∨ ∃ l ∈ lexemes source, ∃ m ∈ lexemes source,
      l.kind.isString = true ∧ m.kind.isString = true ∧ m.span.start = l.span.stop ∧
        s.contains m.span.start = true ∧ s.start < m.span.start := by
  obtain ⟨first, hfirst, hkind, hstart⟩ := exists_lexeme_of_mem_strings hs
  have hproper := (separated_ofBytes source).2.proper s hs
  have hcontains : s.contains first.span.start = true :=
    Span.contains_iff.2 ⟨Nat.le_of_eq hstart.symm, by omega⟩
  rcases Nat.eq_or_lt_of_le (stop_le_of_mem_strings hs hfirst hkind hcontains) with hstop | hlt
  · left
    have hliteral := Lexeme.isLiteral hfirst hkind (by omega)
    rwa [show first.span = s from congr (congrArg Span.mk hstart) hstop] at hliteral
  · right
    have hproper := (Lexeme.inOrder_lexemes source).proper first hfirst
    have hinside : s.contains first.span.stop = true := Span.contains_iff.2 ⟨by omega, hlt⟩
    obtain ⟨m, hm, hstring, hnext⟩ :=
      exists_string_of_isSeam hs (Lexeme.isSeam_stop hfirst) hinside
    exact ⟨first, hfirst, m, hm, hkind, hstring, hnext, hnext ▸ hinside, by omega⟩

/-- A stretch that ends before the text does is one literal if no second string starts in it. -/
theorem Layout.isLiteral_iff (hend : s.stop < source.length) :
    IsLiteral (cut source s) ↔ ∀ l ∈ lexemes source, l.kind.isString = true →
      s.contains l.span.start = true → l.span.start = s.start := by
  constructor
  · intro hliteral l hl _ hinside
    obtain ⟨first, hfirst, -, hstart⟩ := exists_lexeme_of_mem_strings hs
    have hproper := (separated_ofBytes source).2.proper s hs
    have hstop : first.span.stop = s.stop :=
      Lexeme.stop_eq_of_isLiteral hfirst (Nat.le_of_lt hend) (by rw [hstart]; exact hliteral)
    rw [Span.contains_iff] at hinside
    have heq := (Lexeme.inOrder_lexemes source).eq_of_contains hl hfirst
      (Lexeme.contains_start hl) (Span.contains_iff.2 ⟨by omega, by omega⟩)
    rw [heq, hstart]
  · intro hnone
    refine (isLiteral_or_touches hs hend).resolve_right ?_
    rintro ⟨-, -, m, hm, -, hstring, -, hinside, hlt⟩
    have := hnone m hm hstring hinside
    omega

end Strings

/-! ## Strings that are read -/

section Steps

variable {source rest : List UInt8} {pos stop : Nat} {b : UInt8}

/-- A string is read where a quote stands. -/
theorem Reading.string_of_datum {layout : Layout} {width more : Nat} {quoted : Bool} {e : Element}
    (h : Reading.datum layout stop pos width quoted b rest = some (some (.element e), more))
    (hstring : e.isString = true) :
    b = doubleQuote ∧ e.span = stringSpan layout stop (pos + width) := by
  have hgroup : ∀ opened, Reading.group layout stop pos opened quoted ≠
      some (some (.element e), more) := by
    intro opened hread
    unfold Reading.group at hread
    split at hread
    · cases hread
    · split at hread
      · simp only [Option.some.injEq, Prod.mk.injEq, Reading.element.injEq] at hread
        rw [← hread.1] at hstring
        cases hstring
      · cases hread
  unfold Reading.datum at h
  split at h
  · simp at h
  split at h
  · exact absurd h (hgroup _)
  split at h
  · exact absurd h (hgroup _)
  split at h
  · simp at h
  split at h
  · next hb =>
    simp only [Option.some.injEq, Prod.mk.injEq, Reading.element.injEq] at h
    rw [← h.1]
    exact ⟨eq_of_beq hb, rfl⟩
  · split at h
    · simp at h
    · simp only [Option.some.injEq, Prod.mk.injEq, Reading.element.injEq] at h
      rw [← h.1] at hstring
      cases hstring

/-- A string that is read starts where a quote stands at a seam. -/
def StringAt (source : List UInt8) (stop : Nat) (s : Span) : Prop :=
  ∃ datum < stop, IsSeam source datum ∧ source[datum]? = some doubleQuote ∧
    s = stringSpan (Layout.ofBytes source) stop datum

private theorem Reading.stringAt_of_step (hapart : CommentsApart source)
    (hready : IsReady source pos)
    (hwindow : window source pos stop = b :: rest) {more : Nat} {e : Element}
    (h : Reading.step (Layout.ofBytes source) stop pos b rest = some (some (.element e), more))
    (hstring : e.isString = true) : StringAt source stop e.span := by
  unfold Reading.step at h
  split at h
  · simp at h
  split at h
  · simp at h
  split at h
  · cases h
  · next hcomment _ d after hdatum =>
    have houtside : (Layout.ofBytes source).comments.contains pos = false := by
      simp [SpanSet.contains, hcomment]
    have hwindow' : window source (pos + (leadingMarkers (b :: rest)).1) stop = d :: after := by
      rw [window_add hwindow, hdatum]
    obtain ⟨tail, hdrop⟩ := exists_drop_of_window hwindow'
    obtain ⟨rfl, hspan⟩ := string_of_datum h hstring
    exact ⟨_, lt_of_window_cons hwindow', (hready.datumAt hapart hwindow houtside hdatum).seam,
      head_of_drop_cons hdrop, hspan⟩

/-- So does every string that is read up to a bracket. -/
theorem stringAt_of_mem_readings (hapart : CommentsApart source)
    (hbracket : IsBracketAt source stop) {bytes : List UInt8}
    (hwindow : window source pos stop = bytes) (hready : pos < stop → IsReady source pos)
    {e : Element} (h : .element e ∈ readings (Layout.ofBytes source) stop pos bytes)
    (hstring : e.isString = true) : StringAt source stop e.span := by
  fun_induction readings (Layout.ofBytes source) stop pos bytes with
  | case1 => cases h
  | case2 => cases h
  | case3 pos b rest read more hstep ih =>
    have hready := hready (lt_of_window_cons hwindow)
    rcases List.mem_append.1 h with hread | hrest
    · rw [Option.mem_toList.1 hread] at hstep
      exact Reading.stringAt_of_step hapart hready hwindow hstep hstring
    · have hnext : window source (pos + 1 + more) stop = rest.drop more := by
        rw [Nat.add_assoc, window_add hwindow, Nat.add_comm 1 more, List.drop_succ_cons]
      exact ih hnext (Reading.stepReady hapart hbracket hready hwindow hstep).next hrest

end Steps

/-! ## Strings of a form -/

namespace Source

/-- Each string among the elements of a form is one literal. -/
def ReadsLiterals (src : Source) : Prop :=
  ∀ p ∈ src.layout.pairs.pairs, ∀ e ∈ src.elements p, e.isString = true →
    IsLiteral (cut src.bytes e.span)

/-- What the strings among the elements of forms consist of. -/
structure ReadsRuns (src : Source) : Prop where
  /-- A string consists of literals, one right after the other. -/
  runs : ∀ p ∈ src.layout.pairs.pairs, ∀ e ∈ src.elements p, e.isString = true →
    ∃ literals : List (List UInt8), literals ≠ [] ∧ (∀ l ∈ literals, IsLiteral l) ∧
      cut src.bytes e.span = literals.flatten
  /-- It is one literal exactly if no second string starts in it. -/
  single : ∀ p ∈ src.layout.pairs.pairs, ∀ e ∈ src.elements p, e.isString = true →
    (IsLiteral (cut src.bytes e.span) ↔ ∀ l ∈ lexemes src.bytes, l.kind.isString = true →
      e.span.contains l.span.start = true → l.span.start = e.span.start)
  /-- Each is one literal if no string of the text starts where another one ends. -/
  apart : (∀ l ∈ lexemes src.bytes, ∀ m ∈ lexemes src.bytes, l.kind.isString = true →
    m.kind.isString = true → m.span.start ≠ l.span.stop) → src.ReadsLiterals

variable {text : String}

/-- A string among the elements of a form is a stretch of the layout that ends in the form. -/
theorem mem_strings_of_mem_elements (hapart : CommentsApart (Utf8.bytes text)) {p : Pair}
    (hp : p ∈ (ofText text).layout.pairs.pairs) {e : Element} (he : e ∈ (ofText text).elements p)
    (hstring : e.isString = true) :
    e.span ∈ (ofText text).layout.strings.spans ∧ e.span.stop < (Utf8.bytes text).length := by
  have hbracket : IsBracketAt (Utf8.bytes text) p.closing :=
    Layout.exists_bracket_of_mem_pairs hp (.inr rfl)
  have hread := mem_readings_of_mem_elementsOf he
  rw [show (ofText text).bytes = Utf8.bytes text from rfl,
    Nat.min_eq_left (Nat.le_of_lt hbracket.lt_length)] at hread
  obtain ⟨datum, hlt, hseam, hquote, hspan⟩ := stringAt_of_mem_readings hapart hbracket rfl
    (fun _ => isReady_inside hp) hread hstring
  obtain ⟨hlength, hget⟩ := List.getElem?_eq_some_iff.1 hquote
  have hdrop := List.drop_eq_getElem_cons hlength
  rw [hget] at hdrop
  obtain ⟨s, hs⟩ := exists_spanAt_of_doubleQuote hseam hdrop
  have hmem := SpanSet.mem_of_spanAt hs
  obtain ⟨hstart, -⟩ := SpanSet.bounds_of_spanAt hs
  have hle := Layout.stop_le_of_string hp hmem (by omega)
  rw [stringSpan, hs] at hspan
  simp only [Nat.min_eq_left hle] at hspan
  rw [hspan]
  exact ⟨hmem, Nat.lt_of_le_of_lt hle hbracket.lt_length⟩

/-- Where block comments stand apart, each string among the elements of a form consists of
literals, and of one only unless strings touch. -/
theorem readsRuns_ofText (text : String) (hapart : CommentsApart (Utf8.bytes text)) :
    (ofText text).ReadsRuns := by
  have hread : ∀ p ∈ (ofText text).layout.pairs.pairs, ∀ e ∈ (ofText text).elements p,
      e.isString = true → e.span ∈ (ofText text).layout.strings.spans ∧
        e.span.stop < (Utf8.bytes text).length :=
    fun p hp e he => mem_strings_of_mem_elements hapart hp he
  constructor
  case runs =>
    intro p hp e he hstring
    obtain ⟨hmem, hend⟩ := hread p hp e he hstring
    obtain ⟨l, hl, -, hstart⟩ := Layout.exists_lexeme_of_mem_strings hmem
    have hproper := (Layout.separated_ofBytes _).2.proper _ hmem
    exact Layout.exists_literals hmem hend (hstart ▸ Lexeme.isSeam_start hl)
      (Span.contains_iff.2 ⟨Nat.le_refl _, hproper⟩)
  case single =>
    intro p hp e he hstring
    obtain ⟨hmem, hend⟩ := hread p hp e he hstring
    exact Layout.isLiteral_iff hmem hend
  case apart =>
    intro htouch p hp e he hstring
    obtain ⟨hmem, hend⟩ := hread p hp e he hstring
    refine (Layout.isLiteral_or_touches hmem hend).resolve_right ?_
    rintro ⟨l, hl, m, hm, hstring, hstring', hnext, -⟩
    exact htouch l hl m hm hstring hstring' hnext

/-- The law applies to a form with two strings, one of them with an escaped quote. -/
theorem readsRuns_ofText_escaped :
    CommentsApart (Utf8.bytes "(f \"a\" \"b\\\"c\")") ∧
      (ofText "(f \"a\" \"b\\\"c\")").ReadsRuns := by
  have hapart : CommentsApart (Utf8.bytes "(f \"a\" \"b\\\"c\")") := by decide +kernel
  exact ⟨hapart, readsRuns_ofText _ hapart⟩

/-- Two strings that touch are read as one, which is no literal. -/
theorem not_readsLiterals_touching : ¬(ofText "(f \"a\"\"b\")").ReadsLiterals := by
  intro h
  have hpairs : (ofText "(f \"a\"\"b\")").layout.pairs.pairs = [⟨0, 9⟩] := by cbv
  have helements : (ofText "(f \"a\"\"b\")").elements ⟨0, 9⟩ =
      [⟨.atom, ⟨1, 2⟩, 1, false⟩, ⟨.string, ⟨3, 9⟩, 3, false⟩] := by cbv
  have hcut : cut (ofText "(f \"a\"\"b\")").bytes ⟨3, 9⟩ =
      [doubleQuote, 97, doubleQuote, doubleQuote, 98, doubleQuote] := by cbv
  have hliteral := h ⟨0, 9⟩ (by simp [hpairs]) ⟨.string, ⟨3, 9⟩, 3, false⟩ (by simp [helements]) rfl
  rw [hcut, isLiteral_iff_closing?] at hliteral
  cases hliteral

end Source

end LexScope
