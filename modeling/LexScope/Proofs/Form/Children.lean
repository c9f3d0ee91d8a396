import LexScope.Proofs.Form.Agreement
import LexScope.Proofs.Form.Markers
import LexScope.Proofs.Form.Nesting
import LexScope.Proofs.Form.Pieces

/-!
# The groups of a form are its children

The pairs directly inside a pair are found in two ways that share no code: the index steps from one
opening bracket to the next one behind its partner, and the reader of elements walks over the text.
Both walks stop at the same brackets. Whatever the reader passes without reading a group holds no
bracket of the index, a bracket that it finds has a partner before the end of the form, and it comes
to each string at its start, as otherwise it would read a part of a string as a string. In the text
stand neither block comments, which a name swallows, nor feature tests, which take groups away.
-/

namespace LexScope

open Byte

/-! ## Walks over the index -/

namespace PairIndex

/-- No pair opens from the first offset up to the second. -/
def NoneOpens (index : PairIndex) (lo hi : Nat) : Prop :=
  ∀ q ∈ index.pairs, lo ≤ q.opening → hi ≤ q.opening

private theorem NoneOpens.trans {index : PairIndex} {lo mid hi : Nat} (h : index.NoneOpens lo mid)
    (h' : index.NoneOpens mid hi) : index.NoneOpens lo hi :=
  fun q hq hlo => h' q hq (h q hq hlo)

/-- The pairs that open at an offset or behind it. -/
def onward (index : PairIndex) (offset : Nat) : List Pair :=
  index.pairs.dropWhile fun q => decide (q.opening < offset)

section Onward

variable {index : PairIndex} (hordered : index.pairs.Pairwise fun p q => p.opening < q.opening)
  {p q : Pair} {lo hi : Nat}

include hordered

private theorem onward_eq_filter (offset : Nat) :
    index.onward offset = index.pairs.filter fun q => decide (offset ≤ q.opening) := by
  have hmono : index.pairs.Pairwise fun a b =>
      decide (b.opening < offset) = true → decide (a.opening < offset) = true := by
    refine hordered.imp fun {a b} hab hb => ?_
    rw [decide_eq_true_eq] at hb ⊢
    exact Nat.lt_trans hab hb
  rw [onward, (takeWhile_dropWhile_eq_filter hmono).2]
  refine List.filter_congr fun q _ => ?_
  rw [← decide_not, decide_eq_decide]
  exact Nat.not_lt

/-- Where no pair opens, the walk does not go on. -/
theorem onward_eq_of_noneOpens (h : index.NoneOpens lo hi) (hle : lo ≤ hi) :
    index.onward lo = index.onward hi := by
  rw [onward_eq_filter hordered, onward_eq_filter hordered]
  exact List.filter_congr fun q hq => decide_eq_decide.2 ⟨h q hq, Nat.le_trans hle⟩

/-- At an opening bracket stands its pair. -/
theorem onward_opening (hp : p ∈ index.pairs) :
    index.onward p.opening = p :: index.onward (p.opening + 1) := by
  rw [onward_eq_filter hordered, onward_eq_filter hordered]
  obtain ⟨before, rest, hindex⟩ := List.append_of_mem hp
  rw [hindex, List.pairwise_append] at hordered
  have hbefore (q : Pair) (hq : q ∈ before) := hordered.2.2 q hq p List.mem_cons_self
  have hbehind := (List.pairwise_cons.1 hordered.2.1).1
  have hnone (offset : Nat) (hle : p.opening ≤ offset) :
      before.filter (fun q => decide (offset ≤ q.opening)) = [] := by
    refine List.filter_eq_nil_iff.2 fun q hq => ?_
    have := hbefore q hq
    simpa using by omega
  have hall (offset : Nat) (hle : offset ≤ p.opening + 1) :
      rest.filter (fun q => decide (offset ≤ q.opening)) = rest := by
    refine List.filter_eq_self.2 fun q hq => ?_
    have := hbehind q hq
    simpa using by omega
  rw [hindex, List.filter_append, List.filter_append, hnone _ (Nat.le_refl _),
    hnone _ (Nat.le_succ _), List.filter_cons_of_pos (by simp), List.filter_cons_of_neg (by simp),
    hall _ (Nat.le_succ _), hall _ (Nat.le_refl _), List.nil_append, List.nil_append]

/-- The walk over siblings takes a pair and goes on behind it. -/
theorem siblings_onward (hq : q ∈ index.pairs) (hlt : q.opening < q.closing) {closing : Nat}
    (hopening : q.opening < closing) : siblings closing (index.onward q.opening) =
      q :: siblings closing (index.onward (q.closing + 1)) := by
  have hskip : (index.onward (q.opening + 1)).dropWhile (fun r => decide (r.opening ≤ q.closing)) =
      index.onward (q.closing + 1) := by
    have hmono : (index.onward (q.opening + 1)).Pairwise fun a b =>
        decide (b.opening ≤ q.closing) = true → decide (a.opening ≤ q.closing) = true := by
      refine (hordered.sublist (List.dropWhile_sublist _)).imp fun {a b} hab hb => ?_
      rw [decide_eq_true_eq] at hb ⊢
      omega
    rw [(takeWhile_dropWhile_eq_filter hmono).2, onward_eq_filter hordered,
      onward_eq_filter hordered, List.filter_filter]
    refine List.filter_congr fun r _ => ?_
    rw [← decide_not, ← Bool.decide_and, decide_eq_decide]
    omega
  rw [onward_opening hordered hq, siblings, if_pos hopening, hskip]

private theorem siblings_onward_eq_nil {closing : Nat} (h : index.NoneOpens lo closing) :
    siblings closing (index.onward lo) = [] := by
  cases hwalk : index.onward lo with
  | nil => rw [siblings]
  | cons first rest =>
    have hfirst : first ∈ index.onward lo := hwalk ▸ List.mem_cons_self
    rw [onward_eq_filter hordered, List.mem_filter, decide_eq_true_eq] at hfirst
    rw [siblings, if_neg (Nat.not_lt.2 (h first hfirst.1 hfirst.2))]

private theorem children_eq_siblings (hp : p ∈ index.pairs) :
    index.children p = siblings p.closing (index.onward (p.opening + 1)) := by
  have hwalk := onward_opening hordered hp
  rw [onward] at hwalk
  rw [children, hwalk]
  simp

end Onward

end PairIndex

/-! ## Strings are met at their start -/

/-- Only a double quote starts a string. -/
theorem LexemeKind.isString_read {b : UInt8} (hb : b ≠ doubleQuote) (rest : List UInt8) :
    (LexemeKind.read b rest).1.isString = false := by
  fun_cases LexemeKind.read b rest
  all_goals simp_all [isString]

/-- No string reaches over the offset. -/
def Layout.IsClear (layout : Layout) (offset : Nat) : Prop :=
  ∀ s ∈ layout.strings.spans, s.start < offset → s.stop ≤ offset

namespace Layout

variable {source : List UInt8} {pos : Nat}

/-- An offset is in a string when a string span holds it. -/
theorem strings_contains_iff {offset : Nat} : (ofBytes source).strings.contains offset = true ↔
    ∃ s ∈ (ofBytes source).strings.spans, s.contains offset = true :=
  SpanSet.contains_iff_of_separated (separated_ofBytes source).2

/-- A stretch of strings starts where a string starts. -/
theorem exists_lexeme_of_mem_strings {s : Span} (hs : s ∈ (ofBytes source).strings.spans) :
    ∃ l ∈ lexemes source, l.kind.isString = true ∧ l.span.start = s.start := by
  have hproper := (separated_ofBytes source).2.proper s hs
  have hcollects := (collects_strings source).contains_iff
  obtain ⟨l, hl, hkind, hcontains⟩ := (hcollects s.start).1
    (strings_contains_iff.2 ⟨s, hs, Span.contains_iff.2 ⟨Nat.le_refl _, hproper⟩⟩)
  rw [Span.contains_iff] at hcontains
  refine ⟨l, hl, hkind, Nat.le_antisymm hcontains.1 (Nat.not_lt.1 fun hlt => ?_)⟩
  -- If the lexeme started earlier, the byte before the stretch would be part of it.
  obtain ⟨t, ht, hbefore⟩ := strings_contains_iff.1 ((hcollects (s.start - 1)).2
    ⟨l, hl, hkind, Span.contains_iff.2 ⟨by omega, by omega⟩⟩)
  rw [Span.contains_iff] at hbefore
  rcases eq_or_rel_of_pairwise (separated_ofBytes source).2.apart hs ht with rfl | h | h
  all_goals omega

/-- Strings start with a double quote. -/
theorem doubleQuote_of_mem_strings {s : Span} (hs : s ∈ (ofBytes source).strings.spans) :
    source[s.start]? = some doubleQuote := by
  obtain ⟨l, hl, hkind, hstart⟩ := exists_lexeme_of_mem_strings hs
  obtain ⟨b, rest, hdrop, hread, -⟩ := Lexeme.exists_read rfl hl
  rw [← hstart, head_of_drop_cons hdrop]
  by_contra hb
  rw [hread, LexemeKind.isString_read (by simpa using hb) rest] at hkind
  cases hkind

private theorem IsClear.of_bytes {lo hi : Nat} (h : (ofBytes source).IsClear lo) (hle : lo ≤ hi)
    (hbytes : ∀ offset, lo ≤ offset → offset < hi → source[offset]? ≠ some doubleQuote) :
    (ofBytes source).IsClear hi := by
  intro s hs hstart
  by_cases hlo : s.start < lo
  · exact Nat.le_trans (h s hs hlo) hle
  · exact absurd (doubleQuote_of_mem_strings hs) (hbytes _ (Nat.not_lt.1 hlo) hstart)

/-- After what is not part of a string no string goes on. -/
theorem isClear_succ (h : (ofBytes source).strings.contains pos = false) :
    (ofBytes source).IsClear (pos + 1) := by
  intro s hs hstart
  rw [← Nat.not_lt]
  intro hstop
  rw [strings_contains_iff.2 ⟨s, hs, Span.contains_iff.2 ⟨by omega, by omega⟩⟩] at h
  cases h

private theorem isClear_stop {s : Span} (hs : s ∈ (ofBytes source).strings.spans) :
    (ofBytes source).IsClear s.stop := by
  intro t ht hstart
  have hproper := (separated_ofBytes source).2.proper s hs
  have hproper' := (separated_ofBytes source).2.proper t ht
  rcases eq_or_rel_of_pairwise (separated_ofBytes source).2.apart hs ht with rfl | h | h
  · exact Nat.le_refl _
  all_goals omega

end Layout

/-! ## One step -/

/-- The element is what a step reads: it starts there with its markers, and the next step starts
where it ends. -/
structure Reading.Fits (pos next : Nat) (e : Element) : Prop where
  /-- Markers before it, if any, start with the step. -/
  start : e.start = pos
  /-- The datum starts no earlier. -/
  le : pos ≤ e.span.start
  /-- The next step starts at its end. -/
  stop : e.stop = next

/-- What reading passes on the way to the next step. -/
inductive Reading.Advances (layout : Layout) (stop pos : Nat) : Option Reading → Nat → Prop where
  /-- Nothing is read. -/
  | skip {next : Nat} (hnone : layout.pairs.NoneOpens pos next) :
      Advances layout stop pos none next
  /-- An atom or a string is read. -/
  | leaf {e : Element} {next : Nat} (hgroup : e.group = none) (hfits : Reading.Fits pos next e)
      (hnone : layout.pairs.NoneOpens pos next) :
      Advances layout stop pos (some (.element e)) next
  /-- The sign of a feature test is read. -/
  | feature {next : Nat} (hnone : layout.pairs.NoneOpens pos next) :
      Advances layout stop pos (some .feature) next
  /-- A group is read whose pair is the next one to open. -/
  | group {e : Element} {q : Pair} (hgroup : e.group = some q)
      (hfits : Reading.Fits pos (q.closing + 1) e) (hq : q ∈ layout.pairs.pairs)
      (hle : pos ≤ q.opening) (hnone : layout.pairs.NoneOpens pos q.opening)
      (hclosing : q.closing < stop) :
      Advances layout stop pos (some (.element e)) (q.closing + 1)

/-- What a step does to the walk: it ends the walk where no further pair opens, or it advances to an
offset over which no string reaches. -/
def Reading.Walks (layout : Layout) (stop pos : Nat) : Option (Option Reading × Nat) → Prop
  | none => layout.pairs.NoneOpens pos stop
  | some (read, more) =>
    Reading.Advances layout stop pos read (pos + 1 + more) ∧ layout.IsClear (pos + 1 + more)

section Steps

variable {source rest : List UInt8} {p : Pair} {pos stop lo hi : Nat} {b : UInt8}

private theorem Layout.noneOpens_of_bytes
    (h : ∀ offset, lo ≤ offset → offset < hi → source[offset]? ≠ some opening) :
    (ofBytes source).pairs.NoneOpens lo hi := by
  intro q hq hlo
  rw [← Nat.not_lt]
  exact fun hlt => h q.opening hlo hlt (opening_of_mem_pairs hq)

/-- The byte at an offset is the only one up to the next offset. -/
theorem getElem?_ne_of_drop (hdrop : source.drop pos = b :: rest) {c : UInt8} (hb : b ≠ c)
    (offset : Nat) (hle : pos ≤ offset) (hlt : offset < pos + 1) : source[offset]? ≠ some c := by
  obtain rfl : offset = pos := by omega
  rw [head_of_drop_cons hdrop]
  exact fun h => hb (Option.some.inj h)

/-- Neither brackets nor strings start among markers. -/
theorem getElem?_ne_of_leadingMarkers {bytes : List UInt8}
    (hwindow : window source pos stop = bytes) {c : UInt8} (hc : isMarker c = false) (offset : Nat)
    (hle : pos ≤ offset) (hlt : offset < pos + (leadingMarkers bytes).1) :
    source[offset]? ≠ some c := by
  obtain ⟨m, hm, hmarker⟩ := leadingMarkers_spec bytes (offset - pos) (by omega)
  have hget := getElem?_of_window hwindow hm
  rw [Nat.add_sub_cancel' hle] at hget
  rw [hget]
  rintro h
  rw [Option.some.inj h, hc] at hmarker
  cases hmarker

variable (hp : p ∈ (Layout.ofBytes source).pairs.pairs)

include hp

/-- An opening bracket between those of a pair has a partner there. -/
theorem Layout.exists_partner {l : Lexeme} (hl : l ∈ lexemes source) (hkind : l.kind = .opening)
    (hlo : p.opening < l.span.start) (hhi : l.span.start < p.closing) :
    ∃ q ∈ (ofBytes source).pairs.pairs, q.opening = l.span.start ∧ q.closing < p.closing := by
  have hlaminar := laminar_ofBytes source
  have hsome : ∃ q ∈ (ofBytes source).pairs.pairs, q.HasBracketAt l.span.start := by
    by_contra hnone
    simp only [not_exists, not_and] at hnone
    exact not_between_of_unmatched hl (by rw [hkind]; rfl) hnone hp ⟨hlo, hhi⟩
  obtain ⟨q, hq, hopening | hclosing⟩ := hsome
  · have hlt := hlaminar.lt q hq
    refine ⟨q, hq, hopening, ?_⟩
    rcases hlaminar.laminar p hp q hq with rfl | h | h | h | h
    all_goals omega
  · obtain ⟨c, hc, hckind, hcstart⟩ := (startsAt_of_mem_pairs hq).2
    rw [Lexeme.eq_of_start hc hl (hcstart.trans hclosing), hkind] at hckind
    cases hckind

/-- At an opening bracket a group is read. -/
theorem Reading.walks_group {l : Lexeme} (hl : l ∈ lexemes source) (hkind : l.kind = .opening)
    (hlo : p.opening < pos) (hpos : pos ≤ l.span.start) (hhi : l.span.start < p.closing)
    (hnone : (Layout.ofBytes source).pairs.NoneOpens pos l.span.start) (quoted : Bool) :
    Reading.Walks (Layout.ofBytes source) p.closing pos
      (Reading.group (Layout.ofBytes source) p.closing pos l.span.start quoted) := by
  obtain ⟨q, hq, hopening, hclosing⟩ := Layout.exists_partner hp hl hkind (by omega) hhi
  have hlt := (Layout.laminar_ofBytes source).lt q hq
  have hpartner := (Layout.laminar_ofBytes source).closingOf_iff.2 hq
  rw [← hopening] at hnone hpos ⊢
  rw [Reading.group, hpartner]
  have hnext : pos + 1 + (q.closing - pos) = q.closing + 1 := by omega
  simp only [if_pos hclosing, Reading.Walks, hnext]
  refine ⟨.group rfl ⟨rfl, hpos, rfl⟩ hq hpos hnone hclosing, Layout.isClear_succ ?_⟩
  exact (Layout.not_contains_of_hasBracketAt hq (.inr rfl)).2

/-- A string that starts before the end of a form ends there too. -/
theorem Layout.stop_le_of_string {s : Span} (hs : s ∈ (ofBytes source).strings.spans)
    (hstart : s.start ≤ p.closing) : s.stop ≤ p.closing := by
  have hclosing := (not_contains_of_hasBracketAt hp (.inr rfl)).2
  rw [← Nat.not_lt]
  intro hlt
  rw [strings_contains_iff.2 ⟨s, hs, Span.contains_iff.2 ⟨hstart, hlt⟩⟩] at hclosing
  cases hclosing

variable {width : Nat} {quoted : Bool} {d : UInt8}
  (hwindow : window source (pos + width) p.closing = d :: rest)
  (hnone : (Layout.ofBytes source).pairs.NoneOpens pos (pos + width))

include hwindow hnone

omit hp in
/-- A byte is passed that starts neither a group nor a string. -/
theorem Reading.walks_byte (hclear : (Layout.ofBytes source).IsClear (pos + width))
    (hopening : d ≠ opening) (hstring : d ≠ doubleQuote) :
    Reading.Walks (Layout.ofBytes source) p.closing pos (some (none, width)) := by
  obtain ⟨tail, hdrop⟩ := exists_drop_of_window hwindow
  have hnext : pos + 1 + width = pos + width + 1 := by omega
  simp only [Reading.Walks, hnext]
  exact ⟨.skip (hnone.trans (Layout.noneOpens_of_bytes (getElem?_ne_of_drop hdrop hopening))),
    hclear.of_bytes (Nat.le_succ _) (getElem?_ne_of_drop hdrop hstring)⟩

/-- A string is passed as a whole. -/
theorem Reading.walks_string (hclear : (Layout.ofBytes source).IsClear (pos + width))
    (hseam : IsSeam source (pos + width)) (hstring : d = doubleQuote) :
    Reading.Walks (Layout.ofBytes source) p.closing pos (some (some (.element
      ⟨.string, stringSpan (Layout.ofBytes source) p.closing (pos + width), pos, quoted⟩),
        (stringSpan (Layout.ofBytes source) p.closing (pos + width)).stop - (pos + 1))) := by
  obtain ⟨tail, hdrop⟩ := exists_drop_of_window hwindow
  have hlt := lt_of_window_cons hwindow
  subst hstring
  obtain ⟨s, hs⟩ := exists_spanAt_of_doubleQuote hseam hdrop
  have hmem := SpanSet.mem_of_spanAt hs
  obtain ⟨hstart, hstop⟩ := SpanSet.bounds_of_spanAt hs
  have hle := Layout.stop_le_of_string hp hmem (by omega)
  have hspan : stringSpan (Layout.ofBytes source) p.closing (pos + width) = s := by
    rw [stringSpan, hs]
    simp only [Nat.min_eq_left hle]
  have hnext : pos + 1 + (s.stop - (pos + 1)) = s.stop := by omega
  simp only [Reading.Walks, hspan, hnext]
  have hwhole : pos + width ≤ s.start := Nat.not_lt.1 fun hbefore =>
    absurd hstop (Nat.not_lt.2 (hclear s hmem hbefore))
  refine ⟨.leaf rfl ⟨rfl, by simp only; omega, rfl⟩ (hnone.trans fun q hq hopening => ?_),
    Layout.isClear_stop hmem⟩
  have houtside := (Layout.not_contains_of_hasBracketAt hq (.inl rfl)).2
  rw [← Nat.not_lt]
  intro hinside
  rw [Layout.strings_contains_iff.2 ⟨s, hmem, Span.contains_iff.2 ⟨by omega, hinside⟩⟩] at houtside
  cases houtside

/-- An atom holds no bracket of the index. -/
theorem Reading.walks_atom (hapart : CommentsApart source) (hdatum : DatumAt source (pos + width))
    {n : Nat} (hlength : atomLength (d :: rest) = n + 1) :
    Reading.Walks (Layout.ofBytes source) p.closing pos (some (some (.element
      ⟨.atom, ⟨pos + width, pos + width + n + 1⟩, pos, quoted⟩), width + n)) := by
  have hbracket : IsBracketAt source p.closing := Layout.exists_bracket_of_mem_pairs hp (.inr rfl)
  have hatom := hdatum.atomTo hapart
  have hend := hatom.le_of_isBracketAt hbracket (Nat.le_of_lt (lt_of_window_cons hwindow))
  rw [hdatum.atomLength_eq hapart hbracket hwindow, hlength, ← Nat.add_assoc] at hatom hend
  have hnext : pos + 1 + (width + n) = pos + width + n + 1 := by omega
  simp only [Reading.Walks, hnext]
  refine ⟨.leaf rfl ⟨rfl, Nat.le_add_right _ _, rfl⟩ (hnone.trans fun q hq hopening => ?_),
    Layout.isClear_succ ?_⟩
  · obtain ⟨l, hl, hkind, hstart⟩ := (Layout.startsAt_of_mem_pairs hq).1
    rw [← Nat.not_lt]
    intro hinside
    have := (hatom.isBreak_eq_false hl (by omega) (by omega)).1
    rw [hkind] at this
    cases this
  · have hlast := hatom.not_contains_skip hdatum.seam (Nat.le_add_right _ n) (Nat.lt_succ_self _)
      (Nat.lt_of_lt_of_le hend (Nat.le_of_lt hbracket.lt_length))
    rw [Bool.eq_false_iff] at hlast ⊢
    intro hstring
    obtain ⟨l, hl, hkind, hcontains⟩ := ((Layout.collects_strings source).contains_iff _).1 hstring
    exact hlast (contains_skip_iff.2 ⟨l, hl, .inr hkind, hcontains⟩)

omit hp in
/-- The sign of a feature test is passed. -/
theorem Reading.walks_feature (hclear : (Layout.ofBytes source).IsClear (pos + width))
    (hfeature : (d == hash && (rest.head? == some plus || rest.head? == some minus)) = true) :
    Reading.Walks (Layout.ofBytes source) p.closing pos (some (some .feature, width + 1)) := by
  obtain ⟨tail, hdrop⟩ := exists_drop_of_window hwindow
  simp only [Bool.and_eq_true, Bool.or_eq_true, beq_iff_eq] at hfeature
  obtain ⟨rfl, hsign⟩ := hfeature
  have hbytes {c : UInt8} (hc : c ≠ hash ∧ c ≠ plus ∧ c ≠ minus) (offset : Nat)
      (hle : pos + width ≤ offset) (hlt : offset < pos + width + 2) :
      source[offset]? ≠ some c := by
    have hsecond {sign : UInt8} (h : rest.head? = some sign) :
        source[pos + width + 1]? = some sign :=
      getElem?_of_window hwindow (by rwa [List.getElem?_cons_succ, ← List.head?_eq_getElem?])
    rcases (by omega : offset = pos + width ∨ offset = pos + width + 1) with rfl | rfl
    · rw [head_of_drop_cons hdrop]
      exact fun h => hc.1 (Option.some.inj h).symm
    · rcases hsign with h | h <;> rw [hsecond h]
      · exact fun h => hc.2.1 (Option.some.inj h).symm
      · exact fun h => hc.2.2 (Option.some.inj h).symm
  have hnext : pos + 1 + (width + 1) = pos + width + 2 := by omega
  simp only [Reading.Walks, hnext]
  exact ⟨.feature (hnone.trans (Layout.noneOpens_of_bytes (hbytes (by decide)))),
    hclear.of_bytes (Nat.le_add_right _ _) (hbytes (by decide))⟩

/-- At a datum there is a step, and it passes what it should. -/
theorem Reading.walks_datum (hapart : CommentsApart source) (hdatum : DatumAt source (pos + width))
    (hclear : (Layout.ofBytes source).IsClear (pos + width)) (hlo : p.opening < pos) :
    Reading.Walks (Layout.ofBytes source) p.closing pos
      (Reading.datum (Layout.ofBytes source) p.closing pos width quoted d rest) := by
  obtain ⟨tail, hdrop⟩ := exists_drop_of_window hwindow
  have hlt := lt_of_window_cons hwindow
  unfold Reading.datum
  split
  · next hfeature => exact walks_feature hwindow hnone hclear hfeature
  split
  · next hvector =>
    simp only [Bool.and_eq_true, beq_iff_eq] at hvector
    obtain ⟨rfl, hhead⟩ := hvector
    obtain ⟨rest, rfl⟩ := List.head?_eq_some_iff.1 hhead
    have hread : LexemeKind.read hash (opening :: (rest ++ tail)) = (.plain, 0) := rfl
    have hbracket := (Lexeme.isSeam_stop
      (hdatum.seam.mem_of_read hdrop hread (Nat.zero_le _))).mem_of_read
        (drop_succ_of_drop_cons hdrop) LexemeKind.read_opening (Nat.zero_le _)
    have hnext := window_add hwindow 1
    exact Reading.walks_group hp hbracket rfl hlo (by simp only; omega) (lt_of_window_cons hnext)
      (hnone.trans (Layout.noneOpens_of_bytes (getElem?_ne_of_drop hdrop (by decide)))) quoted
  split
  · next hopening =>
    obtain rfl := eq_of_beq hopening
    have hbracket := hdatum.seam.mem_of_read hdrop LexemeKind.read_opening (Nat.zero_le _)
    exact Reading.walks_group hp hbracket rfl hlo (Nat.le_add_right _ _) hlt hnone quoted
  next hopening =>
  have hopening : d ≠ opening := by simpa using hopening
  split
  · next hclosing =>
    obtain rfl := eq_of_beq hclosing
    exact walks_byte hwindow hnone hclear (by decide) (by decide)
  split
  · next hstring => exact walks_string hp hwindow hnone hclear hdatum.seam (eq_of_beq hstring)
  next hstring =>
  split
  · exact walks_byte hwindow hnone hclear hopening (by simpa using hstring)
  · next n hlength => exact walks_atom hp hwindow hnone hapart hdatum hlength

omit hwindow hnone in
/-- Each step passes what it should. -/
theorem Reading.walks_step (hapart : CommentsApart source) (hready : IsReady source pos)
    (hclear : (Layout.ofBytes source).IsClear pos) (hlo : p.opening < pos)
    (hwindow : window source pos p.closing = b :: rest) :
    Reading.Walks (Layout.ofBytes source) p.closing pos
      (Reading.step (Layout.ofBytes source) p.closing pos b rest) := by
  obtain ⟨tail, hdrop⟩ := exists_drop_of_window hwindow
  have hmarkers :
      (Layout.ofBytes source).pairs.NoneOpens pos (pos + (leadingMarkers (b :: rest)).1) :=
    Layout.noneOpens_of_bytes (getElem?_ne_of_leadingMarkers hwindow (by decide))
  unfold Reading.step
  split
  · next hblank =>
    have hne {c : UInt8} (hc : isWhitespace c = false) : b ≠ c := by
      rintro rfl
      rw [hblank] at hc
      cases hc
    have hnone : (Layout.ofBytes source).pairs.NoneOpens pos (pos + 0) := fun q _ hle => hle
    exact walks_byte hwindow hnone hclear (hne (by decide)) (hne (by decide))
  split
  · next c hcomment =>
    have hmem := SpanSet.mem_of_spanAt hcomment
    obtain ⟨hstart, hstop⟩ := SpanSet.bounds_of_spanAt hcomment
    have hcontains (offset : Nat) (hle : pos ≤ offset) (hlt : offset < c.stop) :
        (Layout.ofBytes source).comments.contains offset = true :=
      (SpanSet.contains_iff_of_separated (Layout.separated_ofBytes source).1).2
        ⟨c, hmem, Span.contains_iff.2 ⟨by omega, hlt⟩⟩
    have hnext : pos + 1 + (c.stop - (pos + 1)) = c.stop - 1 + 1 := by omega
    simp only [Reading.Walks, hnext]
    refine ⟨.skip fun q hq hle => ?_, Layout.isClear_succ ?_⟩
    · have houtside := (Layout.not_contains_of_hasBracketAt hq (.inl rfl)).1
      rw [← Nat.not_lt]
      intro hlt
      rw [hcontains q.opening hle (by omega)] at houtside
      cases houtside
    · rw [Bool.eq_false_iff]
      intro hstring
      exact Layout.not_contains_both source _ ⟨hcontains _ (by omega) (by omega), hstring⟩
  split
  · next hnone =>
    -- All that is left consists of markers.
    have hall := List.drop_eq_nil_iff.1 hnone
    have hbracket := Layout.exists_bracket_of_mem_pairs hp (.inr rfl)
    have hlength : (window source pos p.closing).length = p.closing - pos :=
      length_window (Nat.le_of_lt (IsBracketAt.lt_length hbracket))
    rw [hwindow] at hlength
    intro q hq hle
    have := hmarkers q hq hle
    omega
  · next hcomment _ d after hdatum =>
    have houtside : (Layout.ofBytes source).comments.contains pos = false := by
      simp [SpanSet.contains, hcomment]
    have hwindow' :
        window source (pos + (leadingMarkers (b :: rest)).1) p.closing = d :: after := by
      rw [window_add hwindow, hdatum]
    exact walks_datum hp hwindow' hmarkers hapart
      (hready.datumAt hapart hwindow houtside hdatum)
      (hclear.of_bytes (Nat.le_add_right _ _) (getElem?_ne_of_leadingMarkers hwindow (by decide)))
      hlo

end Steps

/-! ## What is passed -/

/-- What is read from an offset on stands behind all pairs that open from there on and before it. -/
theorem closing_lt_of_mem_readings {source : List UInt8} {p : Pair} {pos : Nat} {e : Element}
    (hapart : CommentsApart source) (hp : p ∈ (Layout.ofBytes source).pairs.pairs)
    {bytes : List UInt8} (hwindow : window source pos p.closing = bytes)
    (hready : pos < p.closing → IsReady source pos) (hclear : (Layout.ofBytes source).IsClear pos)
    (hlo : p.opening < pos) (hproper : e.span.start < e.span.stop)
    (hgroup : ∀ r, e.group = some r → e.span = r.span)
    (h : .element e ∈ readings (Layout.ofBytes source) p.closing pos bytes) :
    pos ≤ e.span.start ∧ ∀ q ∈ (Layout.ofBytes source).pairs.pairs, pos ≤ q.opening →
      q.opening < e.span.start → q.closing < e.span.start := by
  have hbracket : IsBracketAt source p.closing := Layout.exists_bracket_of_mem_pairs hp (.inr rfl)
  fun_induction readings (Layout.ofBytes source) p.closing pos bytes with
  | case1 | case2 => cases h
  | case3 pos b rest read more hstep ih =>
    have hready := hready (lt_of_window_cons hwindow)
    have hwalks := Reading.walks_step hp hapart hready hclear hlo hwindow
    have hnext := Reading.stepReady hapart hbracket hready hwindow hstep
    rw [hstep] at hwalks
    obtain ⟨hadvances, hclear⟩ := hwalks
    have hle : pos ≤ pos + 1 + more := by omega
    rcases List.mem_append.1 h with hread | hrest
    · obtain rfl := Option.mem_toList.1 hread
      generalize pos + 1 + more = next at hadvances
      cases hadvances with
      | leaf _ hfits hnone =>
        refine ⟨hfits.le, fun q hq hopening hlt => ?_⟩
        have := hnone q hq hopening
        have := hfits.stop
        simp only [Element.stop] at this
        omega
      | group hr hfits _ _ hnone =>
        refine ⟨hfits.le, fun q hq hopening hlt => ?_⟩
        have := hnone q hq hopening
        rw [hgroup _ hr] at hlt
        exact absurd hlt (Nat.not_lt.2 this)
    · obtain ⟨hstart, hbehind⟩ := ih (by
        rw [Nat.add_assoc, window_add hwindow, Nat.add_comm 1 more, List.drop_succ_cons])
        hnext.next hclear (by omega) hrest
      refine ⟨Nat.le_trans hle hstart, fun q hq hopening hlt => ?_⟩
      by_cases hpassed : pos + 1 + more ≤ q.opening
      · exact hbehind q hq hpassed hlt
      generalize pos + 1 + more = next at hadvances hstart hpassed
      -- The pair opens where the step passes, so it is the group of the step or lies in it.
      cases hadvances with
      | skip hnone | leaf _ _ hnone | feature hnone => exact absurd (hnone q hq hopening) hpassed
      | @group d r _ _ hr _ hnone =>
        have hfirst := hnone q hq hopening
        have hrlt := (Layout.laminar_ofBytes source).lt r hr
        rcases (Layout.laminar_ofBytes source).laminar r hr q hq with rfl | h | h | h | h
        all_goals omega

/-! ## All steps -/

/-- Neither block comments nor feature tests stand in the text. -/
structure IsBare (source : List UInt8) : Prop where
  /-- The bytes `#|` occur nowhere. -/
  bar : ¬[hash, Byte.bar] <:+: source
  /-- The bytes `#+` occur nowhere. -/
  plus : ¬[hash, Byte.plus] <:+: source
  /-- The bytes `#-` occur nowhere. -/
  minus : ¬[hash, Byte.minus] <:+: source

/-- Without feature tests in the text none is read. -/
theorem Reading.step_ne_feature {source rest : List UInt8} (layout : Layout) {pos stop : Nat}
    {b : UInt8} (hbare : IsBare source) (hwindow : window source pos stop = b :: rest)
    (more : Nat) :
    Reading.step layout stop pos b rest ≠ some (some .feature, more) := by
  have hgroup (opened : Nat) (quoted : Bool) :
      Reading.group layout stop pos opened quoted ≠ some (some .feature, more) := by
    unfold Reading.group
    split
    · simp
    · split <;> simp
  unfold Reading.step
  split
  · simp
  split
  · simp
  split
  · simp
  next d after hdatum =>
  have hwindow' : window source (pos + (leadingMarkers (b :: rest)).1) stop = d :: after := by
    rw [window_add hwindow, hdatum]
  unfold Reading.datum
  split
  · next hfeature =>
    simp only [Bool.and_eq_true, Bool.or_eq_true, beq_iff_eq] at hfeature
    obtain ⟨rfl, hsign⟩ := hfeature
    have hhash := getElem?_of_window hwindow' (i := 0) rfl
    have hsecond {c : UInt8} (hc : after.head? = some c) :=
      getElem?_of_window hwindow' (i := 1)
        (by rwa [List.getElem?_cons_succ, ← List.head?_eq_getElem?])
    rcases hsign with hsign | hsign
    · exact absurd (hsecond hsign) (ne_of_not_isInfix hbare.plus hhash)
    · exact absurd (hsecond hsign) (ne_of_not_isInfix hbare.minus hhash)
  split
  · exact hgroup _ _
  split
  · exact hgroup _ _
  split
  · simp
  split
  · simp
  split <;> simp

/-- The elements that are read from an offset up to the end of a form. -/
structure ReadsOnward (layout : Layout) (stop pos : Nat) (found : List Element) : Prop where
  /-- Their groups are those of the walk over the index. -/
  groups : found.filterMap Element.group = PairIndex.siblings stop (layout.pairs.onward pos)
  /-- None starts before the offset, with its markers or without them. -/
  start : ∀ e ∈ found, pos ≤ e.start ∧ e.start ≤ e.span.start
  /-- Each one ends before the next one starts. -/
  ordered : found.Pairwise fun d e => d.stop ≤ e.start

namespace ReadsOnward

variable {layout : Layout} {stop pos next : Nat} {found : List Element} {e : Element} {q : Pair}
  (hordered : layout.pairs.pairs.Pairwise fun p q => p.opening < q.opening)

include hordered

private theorem nil (hnone : layout.pairs.NoneOpens pos stop) : ReadsOnward layout stop pos [] where
  groups := (PairIndex.siblings_onward_eq_nil hordered hnone).symm
  start := List.forall_mem_nil _
  ordered := List.Pairwise.nil

private theorem skip (h : ReadsOnward layout stop next found) (hle : pos ≤ next)
    (hnone : layout.pairs.NoneOpens pos next) : ReadsOnward layout stop pos found where
  groups := by rw [PairIndex.onward_eq_of_noneOpens hordered hnone hle, h.groups]
  start e he := (h.start e he).imp_left (Nat.le_trans hle)
  ordered := h.ordered

omit hordered in
/-- An element stands before those that are read after it. -/
theorem ordered_cons (h : ReadsOnward layout stop next found) (hfits : Reading.Fits pos next e)
    (hle : pos ≤ next) : (∀ d ∈ e :: found, pos ≤ d.start ∧ d.start ≤ d.span.start) ∧
      (e :: found).Pairwise fun d e => d.stop ≤ e.start := by
  refine ⟨List.forall_mem_cons.2 ⟨?_, fun d hd => (h.start d hd).imp_left (Nat.le_trans hle)⟩,
    List.pairwise_cons.2 ⟨fun d hd => ?_, h.ordered⟩⟩
  · rw [hfits.start]
    exact ⟨Nat.le_refl _, hfits.le⟩
  · rw [hfits.stop]
    exact (h.start d hd).1

private theorem leaf (h : ReadsOnward layout stop next found) (hfits : Reading.Fits pos next e)
    (hgroup : e.group = none) (hle : pos ≤ next) (hnone : layout.pairs.NoneOpens pos next) :
    ReadsOnward layout stop pos (e :: found) where
  groups := by
    rw [List.filterMap_cons_none hgroup]
    exact (h.skip hordered hle hnone).groups
  start := (h.ordered_cons hfits hle).1
  ordered := (h.ordered_cons hfits hle).2

private theorem group (h : ReadsOnward layout stop (q.closing + 1) found)
    (hfits : Reading.Fits pos (q.closing + 1) e) (hgroup : e.group = some q)
    (hq : q ∈ layout.pairs.pairs) (hlt : q.opening < q.closing) (hle : pos ≤ q.opening)
    (hnone : layout.pairs.NoneOpens pos q.opening) (hclosing : q.closing < stop) :
    ReadsOnward layout stop pos (e :: found) where
  groups := by
    rw [List.filterMap_cons_some hgroup, PairIndex.onward_eq_of_noneOpens hordered hnone hle,
      PairIndex.siblings_onward hordered hq hlt (Nat.lt_trans hlt hclosing), h.groups]
  start := (h.ordered_cons hfits (by omega)).1
  ordered := (h.ordered_cons hfits (by omega)).2

end ReadsOnward

section Run

variable {source : List UInt8} {p : Pair} {pos : Nat}

/-- Reading takes the same groups as the walk over the index. -/
theorem readsOnward_readings (hbare : IsBare source)
    (hp : p ∈ (Layout.ofBytes source).pairs.pairs) {bytes : List UInt8}
    (hwindow : window source pos p.closing = bytes)
    (hready : pos < p.closing → IsReady source pos) (hclear : (Layout.ofBytes source).IsClear pos)
    (hlo : p.opening < pos) :
    ReadsOnward (Layout.ofBytes source) p.closing pos
      (elementsOf (readings (Layout.ofBytes source) p.closing pos bytes)) := by
  have hapart := commentsApart_of_not_isInfix hbare.bar
  have hbracket : IsBracketAt source p.closing := Layout.exists_bracket_of_mem_pairs hp (.inr rfl)
  have hordered := Layout.pairwise_pairs_ofBytes source
  fun_induction readings (Layout.ofBytes source) p.closing pos bytes with
  | case1 pos =>
    refine .nil hordered fun q _ hle => ?_
    have hlength : (window source pos p.closing).length = p.closing - pos :=
      length_window (Nat.le_of_lt hbracket.lt_length)
    rw [hwindow, List.length_nil] at hlength
    omega
  | case2 pos b rest hstep =>
    have hwalks := Reading.walks_step hp hapart (hready (lt_of_window_cons hwindow)) hclear hlo
      hwindow
    rw [hstep] at hwalks
    exact .nil hordered hwalks
  | case3 pos b rest read more hstep ih =>
    have hready := hready (lt_of_window_cons hwindow)
    have hwalks := Reading.walks_step hp hapart hready hclear hlo hwindow
    have hnext := Reading.stepReady hapart hbracket hready hwindow hstep
    have hfeature := Reading.step_ne_feature (Layout.ofBytes source) hbare hwindow more
    rw [hstep] at hwalks hfeature
    obtain ⟨hadvances, hclear⟩ := hwalks
    have hrest := ih (by
      rw [Nat.add_assoc, window_add hwindow, Nat.add_comm 1 more, List.drop_succ_cons])
      hnext.next hclear (by omega)
    have hle : pos ≤ pos + 1 + more := by omega
    generalize pos + 1 + more = next at hadvances hrest hle
    cases hadvances with
    | skip hnone => exact hrest.skip hordered hle hnone
    | leaf hgroup hfits hnone => exact hrest.leaf hordered hfits hgroup hle hnone
    | feature => exact absurd rfl hfeature
    | group hgroup hfits hq hopening hnone hclosing =>
      exact hrest.group hordered hfits hgroup hq ((Layout.laminar_ofBytes source).lt _ hq) hopening
        hnone hclosing

end Run

/-! ## Elements of a form -/

namespace Source

/-- The elements of a form, as the index knows them. -/
structure ReadsChildren (src : Source) (p : Pair) : Prop where
  /-- The groups are the pairs directly inside the form, in order. -/
  groups : (src.elements p).filterMap Element.group = src.layout.pairs.children p
  /-- No atom holds a bracket of the index. -/
  atoms : ∀ e ∈ src.elements p, e.isAtom = true → ∀ q ∈ src.layout.pairs.pairs, ∀ offset,
    q.HasBracketAt offset → e.span.contains offset = false
  /-- Each element ends before the next one starts with its markers. -/
  ordered : (src.elements p).Pairwise fun d e => d.stop ≤ e.start
  /-- No element is empty, and each one lies between the brackets, behind its markers. -/
  inside : ∀ e ∈ src.elements p, p.inner.start ≤ e.start ∧ e.start ≤ e.span.start ∧
    e.span.start < e.span.stop ∧ e.span.stop ≤ p.inner.stop

variable {text : String} {p : Pair}

/-- Without block comments and feature tests, the elements of each form are read as the index knows
them. -/
theorem readsChildren_ofText (hbare : IsBare (Utf8.bytes text))
    (hp : p ∈ (ofText text).layout.pairs.pairs) : (ofText text).ReadsChildren p := by
  have hapart := commentsApart_of_not_isInfix hbare.bar
  have hbracket : IsBracketAt (Utf8.bytes text) p.closing :=
    Layout.exists_bracket_of_mem_pairs hp (.inr rfl)
  have hordered := Layout.pairwise_pairs_ofBytes (Utf8.bytes text)
  have hclear := Layout.isClear_succ (Layout.not_contains_of_hasBracketAt hp (.inl rfl)).2
  have hreads := readsOnward_readings hbare hp rfl (fun _ => isReady_inside hp) hclear
    (Nat.lt_succ_self _)
  have helements : (ofText text).elements p = elementsOf (readings (ofText text).layout p.closing
      (p.opening + 1) (window (Utf8.bytes text) (p.opening + 1) p.closing)) := by
    rw [elements, elementsBetween, show (ofText text).bytes = Utf8.bytes text from rfl,
      Nat.min_eq_left (Nat.le_of_lt hbracket.lt_length)]
  constructor
  · rw [helements]
    exact hreads.groups.trans (PairIndex.children_eq_siblings hordered hp).symm
  · intro e he hatom q hq offset hoffset
    obtain ⟨l, hl, hkind, rfl⟩ := Layout.exists_bracket_of_mem_pairs hq hoffset
    rw [Bool.eq_false_iff]
    intro hcontains
    rw [Span.contains_iff] at hcontains
    have hpart := (((atomAt_of_mem_elements hapart hp he hatom).atomTo hapart).isBreak_eq_false hl
      hcontains.1 hcontains.2).1
    rw [hkind] at hpart
    cases hpart
  · rw [helements]
    exact hreads.ordered
  · intro e he
    obtain ⟨hproper, hinside⟩ := (nests_ofText text).element hp he
    rw [helements] at he
    obtain ⟨hopening, hstart⟩ := hreads.start e he
    exact ⟨hopening, hstart, hproper, (Span.covers_iff.1 hinside).2⟩

/-- A quoted list, an escaped bracket and a stray one stand between the groups. -/
theorem readsChildren_ofText_stray :
    IsBare (Utf8.bytes "(f '(a) #\\( \"(\" #(b (c)))) (") ∧
      (ofText "(f '(a) #\\( \"(\" #(b (c)))) (").ReadsChildren ⟨0, 24⟩ := by
  have hbare : IsBare (Utf8.bytes "(f '(a) #\\( \"(\" #(b (c)))) (") :=
    ⟨by decide +kernel, by decide +kernel, by decide +kernel⟩
  have hpairs : (ofText "(f '(a) #\\( \"(\" #(b (c)))) (").layout.pairs.pairs =
      [⟨0, 24⟩, ⟨4, 6⟩, ⟨17, 23⟩, ⟨20, 22⟩] := by cbv
  exact ⟨hbare, readsChildren_ofText hbare (by simp [hpairs])⟩

end Source

end LexScope
