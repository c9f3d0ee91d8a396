import LexScope.Form.Node
import LexScope.Proofs.Span.Membership

/-!
# How brackets are paired

Lexemes come in order and do not overlap, and nothing follows one that is never closed. The layout
takes them in one after the other with a stack of open brackets, and what it has found keeps an
invariant: pairs are nested or disjoint, an open bracket lies in no pair, and a closing bracket
without a partner stands outside of every pair, the ones found later included.

From the invariant at the end follows what an index of brackets is used for: the two directions of
looking up a partner undo each other, no bracket without a partner hides inside a form, and no two
brackets that could be partners are left without one.
-/

namespace LexScope

open Byte Utf8

/-! ## Lexemes in order -/

namespace LexemeKind

/-- A string, comment or name that is never closed. -/
def isUnclosed : LexemeKind → Bool
  | unclosedComment | unclosedString | unclosedName => true
  | _ => false

/-- A bracket that gives the document structure. -/
def isBracket : LexemeKind → Bool
  | opening | closing => true
  | _ => false

/-- A comment, whether it is closed or not. -/
def isComment : LexemeKind → Bool
  | comment | unclosedComment => true
  | _ => false

/-- A string, whether it is closed or not. -/
def isString : LexemeKind → Bool
  | string | unclosedString => true
  | _ => false

/-- What is never closed takes all that is left. -/
theorem read_of_isUnclosed {b : UInt8} {rest : List UInt8}
    (h : (LexemeKind.read b rest).1.isUnclosed = true) :
    (LexemeKind.read b rest).2 = rest.length := by
  revert h
  fun_cases LexemeKind.read b rest <;> simp [isUnclosed]

end LexemeKind

/-- The lexemes come one after the other, and only the last may be one that is never closed. -/
structure Lexeme.InOrder (ls : List Lexeme) : Prop where
  /-- None is empty. -/
  proper : ∀ l ∈ ls, l.span.start < l.span.stop
  /-- Each ends before the next one starts, and what is never closed has no next one. -/
  ordered : ls.Pairwise fun a b => a.span.stop ≤ b.span.start ∧ a.kind.isUnclosed = false

/-- The lexemes read at a position follow each other and start no earlier than it. -/
theorem Lexeme.inOrder_lexemesFrom (pos : Nat) (bytes : List UInt8) :
    Lexeme.InOrder (lexemesFrom pos bytes) ∧ ∀ l ∈ lexemesFrom pos bytes, pos ≤ l.span.start := by
  fun_induction lexemesFrom pos bytes with
  | case1 => exact ⟨⟨by simp, by simp⟩, by simp⟩
  | case2 pos b rest kind more hread width ih =>
    obtain ⟨⟨hproper, hordered⟩, hstart⟩ := ih
    refine ⟨⟨?_, ?_⟩, ?_⟩
    · exact List.forall_mem_cons.2 ⟨by simp only; omega, hproper⟩
    · refine List.pairwise_cons.2 ⟨fun l hl => ⟨hstart l hl, ?_⟩, hordered⟩
      cases hunclosed : kind.isUnclosed with
      | false => rfl
      | true =>
        have hmore : more = rest.length := by
          have hkind : (LexemeKind.read b rest).1.isUnclosed = true := by rw [hread, hunclosed]
          rw [← LexemeKind.read_of_isUnclosed hkind, hread]
        rw [hmore, List.drop_length, lexemesFrom] at hl
        cases hl
    · refine List.forall_mem_cons.2 ⟨Nat.le_refl _, fun l hl => ?_⟩
      have := hstart l hl
      omega

/-- The lexemes of a source follow each other. -/
theorem Lexeme.inOrder_lexemes (bytes : List UInt8) : Lexeme.InOrder (lexemes bytes) :=
  (Lexeme.inOrder_lexemesFrom 0 bytes).1

/-- Two lexemes that share an offset are the same. -/
theorem Lexeme.InOrder.eq_of_contains {ls : List Lexeme} (h : Lexeme.InOrder ls) {a b : Lexeme}
    (ha : a ∈ ls) (hb : b ∈ ls) {offset : Nat} (haoffset : a.span.contains offset = true)
    (hboffset : b.span.contains offset = true) : a = b := by
  have hordered := h.ordered
  rw [Span.contains_iff] at haoffset hboffset
  obtain ⟨before, after, rfl⟩ := List.append_of_mem ha
  rw [List.pairwise_append, List.pairwise_cons] at hordered
  rcases List.mem_append.1 hb with hb | hb
  · have := (hordered.2.2 b hb a List.mem_cons_self).1
    omega
  · rcases List.mem_cons.1 hb with rfl | hb
    · rfl
    · have := (hordered.2.1.1 b hb).1
      omega

/-- What is never closed comes last. -/
theorem Lexeme.InOrder.lt_of_isUnclosed {ls : List Lexeme} (h : Lexeme.InOrder ls) {a b : Lexeme}
    (ha : a ∈ ls) (hb : b ∈ ls) (hclosed : a.kind.isUnclosed = false)
    (hunclosed : b.kind.isUnclosed = true) : a.span.start < b.span.start := by
  have hproper := h.proper a ha
  have hordered := h.ordered
  obtain ⟨before, after, rfl⟩ := List.append_of_mem hb
  rw [List.pairwise_append, List.pairwise_cons] at hordered
  rcases List.mem_append.1 ha with ha | ha
  · have := (hordered.2.2 a ha b List.mem_cons_self).1
    omega
  · rcases List.mem_cons.1 ha with rfl | ha
    · rw [hclosed] at hunclosed
      cases hunclosed
    · have := (hordered.2.1.1 a ha).2
      rw [hunclosed] at this
      cases this

/-! ## What is recorded has been read -/

/-- A lexeme of some kind starts at the offset. -/
def Lexeme.StartsAt (ls : List Lexeme) (kind : LexemeKind) (offset : Nat) : Prop :=
  ∃ l ∈ ls, l.kind = kind ∧ l.span.start = offset

/-- Everything that has been found goes back to one of the lexemes. -/
structure LayoutState.Recorded (ls : List Lexeme) (st : LayoutState) : Prop where
  /-- Open brackets are opening brackets. -/
  stack : ∀ o ∈ st.stack, Lexeme.StartsAt ls .opening o
  /-- Pairs are an opening and a closing bracket. -/
  pairs : ∀ p ∈ st.pairs, Lexeme.StartsAt ls .opening p.opening ∧
    Lexeme.StartsAt ls .closing p.closing
  /-- Comments are comments. -/
  comments : ∀ s ∈ st.comments, ∃ l ∈ ls, l.span = s ∧ l.kind.isComment = true
  /-- Strings are strings. -/
  strings : ∀ s ∈ st.strings, ∃ l ∈ ls, l.span = s ∧ l.kind.isString = true
  /-- The text is cut off where something starts that is never closed. -/
  truncated : ∀ k ∈ st.truncatedAt, ∃ l ∈ ls, l.kind.isUnclosed = true ∧ l.span.start = k

namespace LayoutState

variable {ls : List Lexeme} {st : LayoutState} {l : Lexeme}

/-- The empty layout records nothing. -/
theorem Recorded.empty (ls : List Lexeme) : Recorded ls {} := by
  constructor <;> simp

private theorem Recorded.close (h : st.Recorded ls) {offset : Nat}
    (hclosing : Lexeme.StartsAt ls .closing offset) : (st.close offset).Recorded ls := by
  unfold LayoutState.close
  split
  · exact h
  · next opened stack hstack =>
    obtain ⟨hopened, hrest⟩ := List.forall_mem_cons.1 (hstack ▸ h.stack)
    exact
      { h with
        stack := hrest
        pairs := List.forall_mem_cons.2 ⟨⟨hopened, hclosing⟩, h.pairs⟩ }

private theorem Recorded.step (h : st.Recorded ls) (hl : l ∈ ls) : (st.step l).Recorded ls := by
  unfold LayoutState.step
  split
  case h_1 hkind =>
    exact
      { h with
        comments := List.forall_mem_cons.2 ⟨⟨l, hl, rfl, by rw [hkind]; rfl⟩, h.comments⟩ }
  case h_2 hkind =>
    exact
      { h with
        strings := List.forall_mem_cons.2 ⟨⟨l, hl, rfl, by rw [hkind]; rfl⟩, h.strings⟩ }
  case h_3 hkind =>
    exact { h with stack := List.forall_mem_cons.2 ⟨⟨l, hl, hkind, rfl⟩, h.stack⟩ }
  case h_4 hkind => exact h.close ⟨l, hl, hkind, rfl⟩
  case h_5 | h_6 => exact { h with }
  case h_7 | h_8 => exact h
  case h_9 hkind =>
    exact
      { h with
        comments := List.forall_mem_cons.2 ⟨⟨l, hl, rfl, by rw [hkind]; rfl⟩, h.comments⟩
        truncated := by simpa using ⟨l, hl, by rw [hkind]; rfl, rfl⟩ }
  case h_10 hkind =>
    exact
      { h with
        strings := List.forall_mem_cons.2 ⟨⟨l, hl, rfl, by rw [hkind]; rfl⟩, h.strings⟩
        truncated := by simpa using ⟨l, hl, by rw [hkind]; rfl, rfl⟩ }
  case h_11 hkind =>
    exact
      { h with
        truncated := by simpa using ⟨l, hl, by rw [hkind]; rfl, rfl⟩ }

/-- Reading on keeps what is recorded among the lexemes. -/
theorem Recorded.foldl (h : st.Recorded ls) {rest : List Lexeme} (hrest : ∀ l ∈ rest, l ∈ ls) :
    (rest.foldl LayoutState.step st).Recorded ls := by
  induction rest generalizing st with
  | nil => exact h
  | cons l rest ih =>
    obtain ⟨hl, hrest⟩ := List.forall_mem_cons.1 hrest
    exact ih (h.step hl) hrest

end LayoutState

/-! ## The invariant of the stack -/

/-- The two pairs are the same, one lies between the brackets of the other, or one comes before the
other. -/
def Pair.Laminar (p q : Pair) : Prop :=
  p = q ∨ (p.opening < q.opening ∧ q.closing < p.closing) ∨
    (q.opening < p.opening ∧ p.closing < q.closing) ∨ p.closing < q.opening ∨
    q.closing < p.opening

private theorem Pair.Laminar.symm {p q : Pair} (h : p.Laminar q) : q.Laminar p := by
  rcases h with rfl | h | h | h | h
  · exact Or.inl rfl
  · exact Or.inr (Or.inr (Or.inl h))
  · exact Or.inr (Or.inl h)
  · exact Or.inr (Or.inr (Or.inr (Or.inr h)))
  · exact Or.inr (Or.inr (Or.inr (Or.inl h)))

/-- The offset is one of the two brackets. -/
def Pair.HasBracketAt (p : Pair) (offset : Nat) : Prop :=
  p.opening = offset ∨ p.closing = offset

/-- Pairs that are nested or disjoint share no bracket. -/
theorem Pair.Laminar.eq_of_shared {p q : Pair} (h : p.Laminar q) (hp : p.opening < p.closing)
    (hq : q.opening < q.closing) {offset : Nat} (hpo : p.HasBracketAt offset)
    (hqo : q.HasBracketAt offset) : p = q := by
  unfold Pair.HasBracketAt at hpo hqo
  rcases h with rfl | hcase | hcase | hcase | hcase
  · rfl
  all_goals omega

/-- The offset lies neither between the brackets of the pair nor at one of them. -/
def Pair.Misses (p : Pair) (offset : Nat) : Prop := offset < p.opening ∨ p.closing < offset

/-- What has become of a bracket that was read. -/
inductive LayoutState.Fate (st : LayoutState) (l : Lexeme) : Prop where
  /-- It opens and waits for its partner. -/
  | waits (hkind : l.kind = .opening) (h : l.span.start ∈ st.stack)
  /-- It has a partner. -/
  | paired (p : Pair) (hp : p ∈ st.pairs) (h : p.HasBracketAt l.span.start)
  /-- It closes nothing, and stands outside of every pair and before every open bracket. -/
  | alone (hkind : l.kind = .closing) (hpairs : ∀ p ∈ st.pairs, p.Misses l.span.start)
      (hstack : ∀ o ∈ st.stack, l.span.start < o)

/-- What holds of pairs and open brackets after the given lexemes, which end at an offset. -/
structure LayoutState.Matched (pos : Nat) (read : List Lexeme) (st : LayoutState) : Prop where
  /-- Open brackets stand before the offset. -/
  stack_lt : ∀ o ∈ st.stack, o < pos
  /-- An open bracket comes after those it lies in. -/
  descending : st.stack.Pairwise (· > ·)
  /-- Pairs are in order and before the offset. -/
  pairs_lt : ∀ p ∈ st.pairs, p.opening < p.closing ∧ p.closing < pos
  /-- Pairs are nested or disjoint. -/
  laminar : ∀ p ∈ st.pairs, ∀ q ∈ st.pairs, p.Laminar q
  /-- An open bracket lies in no pair. -/
  misses : ∀ p ∈ st.pairs, ∀ o ∈ st.stack, p.Misses o
  /-- Every bracket that was read is accounted for. -/
  fate : ∀ l ∈ read, l.kind.isBracket = true → l.span.start < pos ∧ st.Fate l

namespace LayoutState

variable {pos : Nat} {read : List Lexeme} {st st' : LayoutState} {l : Lexeme}

/-- Nothing is open or matched at the start. -/
theorem Matched.empty (pos : Nat) : Matched pos [] {} := by
  constructor <;> simp

/-- A lexeme that is no bracket touches neither pairs nor open brackets. -/
theorem step_of_not_isBracket (st : LayoutState) (h : l.kind.isBracket = false) :
    (st.step l).stack = st.stack ∧ (st.step l).pairs = st.pairs := by
  unfold LayoutState.step
  split <;> simp_all [LexemeKind.isBracket]

private theorem Matched.other (h : st.Matched pos read) (hstack : st'.stack = st.stack)
    (hpairs : st'.pairs = st.pairs) (hl : l.kind.isBracket = false) {pos' : Nat}
    (hle : pos ≤ pos') : st'.Matched pos' (read ++ [l]) where
  stack_lt o ho := Nat.lt_of_lt_of_le (h.stack_lt o (hstack ▸ ho)) hle
  descending := hstack ▸ h.descending
  pairs_lt p hp := (h.pairs_lt p (hpairs ▸ hp)).imp_right fun hlt => Nat.lt_of_lt_of_le hlt hle
  laminar := hpairs ▸ h.laminar
  misses := hstack ▸ hpairs ▸ h.misses
  fate d hd hbracket := by
    rcases List.mem_append.1 hd with hd | hd
    · obtain ⟨hlt, hfate⟩ := h.fate d hd hbracket
      refine ⟨Nat.lt_of_lt_of_le hlt hle, ?_⟩
      cases hfate with
      | waits hkind hmem => exact .waits hkind (hstack ▸ hmem)
      | paired p hp hat => exact .paired p (hpairs ▸ hp) hat
      | alone hkind halone hbefore => exact .alone hkind (hpairs ▸ halone) (hstack ▸ hbefore)
    · rw [List.mem_singleton.1 hd, hl] at hbracket
      cases hbracket

/-- An opening bracket waits for its partner. -/
theorem Matched.push (h : st.Matched pos read) (hkind : l.kind = .opening)
    (hstart : pos ≤ l.span.start) (hproper : l.span.start < l.span.stop) :
    Matched l.span.stop (read ++ [l]) { st with stack := l.span.start :: st.stack } where
  stack_lt := List.forall_mem_cons.2 ⟨hproper, fun o ho => by have := h.stack_lt o ho; omega⟩
  descending := List.pairwise_cons.2
    ⟨fun o ho => Nat.lt_of_lt_of_le (h.stack_lt o ho) hstart, h.descending⟩
  pairs_lt p hp := (h.pairs_lt p hp).imp_right fun hlt => by omega
  laminar := h.laminar
  misses p hp := List.forall_mem_cons.2
    ⟨.inr (Nat.lt_of_lt_of_le (h.pairs_lt p hp).2 hstart), h.misses p hp⟩
  fate d hd hbracket := by
    rcases List.mem_append.1 hd with hd | hd
    · obtain ⟨hlt, hfate⟩ := h.fate d hd hbracket
      refine ⟨by omega, ?_⟩
      cases hfate with
      | waits hopens hmem => exact .waits hopens (List.mem_cons_of_mem _ hmem)
      | paired p hp hat => exact .paired p hp hat
      | alone hcloses hpairs hstack =>
        exact .alone hcloses hpairs
          (List.forall_mem_cons.2 ⟨Nat.lt_of_lt_of_le hlt hstart, hstack⟩)
    · rw [List.mem_singleton.1 hd]
      exact ⟨hproper, .waits hkind List.mem_cons_self⟩

/-- A closing bracket makes a pair with the innermost open one, or stands alone. -/
theorem Matched.close (h : st.Matched pos read) (hkind : l.kind = .closing)
    (hstart : pos ≤ l.span.start) (hproper : l.span.start < l.span.stop) :
    (st.close l.span.start).Matched l.span.stop (read ++ [l]) := by
  unfold LayoutState.close
  split
  · next hstack =>
    refine ⟨?_, h.descending, ?_, h.laminar, h.misses, ?_⟩
    · simp [hstack]
    · exact fun p hp => (h.pairs_lt p hp).imp_right fun hlt => by omega
    · intro d hd hbracket
      rcases List.mem_append.1 hd with hd | hd
      · exact (h.fate d hd hbracket).imp_left fun hlt => by omega
      · rw [List.mem_singleton.1 hd]
        refine ⟨hproper, .alone hkind (fun p hp => .inr ?_) (by simp [hstack])⟩
        exact Nat.lt_of_lt_of_le (h.pairs_lt p hp).2 hstart
  · next opened stack hstack =>
    obtain ⟨hopened, hrest⟩ := List.forall_mem_cons.1 (hstack ▸ h.stack_lt)
    obtain ⟨hbelow, hdescending⟩ := List.pairwise_cons.1 (hstack ▸ h.descending)
    -- No pair holds the bracket that is closed now, so each lies in the new one or before it.
    have hnew : ∀ q ∈ st.pairs, Pair.Laminar ⟨opened, l.span.start⟩ q := by
      intro q hq
      have hlt := (h.pairs_lt q hq).2
      rcases h.misses q hq opened (by simp [hstack]) with hbefore | hafter
      · exact .inr (.inl ⟨hbefore, by simp only; omega⟩)
      · exact .inr (.inr (.inr (.inr hafter)))
    refine ⟨fun o ho => ?_, hdescending, ?_, ?_, ?_, ?_⟩
    · have := hrest o ho
      omega
    · refine List.forall_mem_cons.2 ⟨⟨by simp only; omega, hproper⟩, fun p hp => ?_⟩
      exact (h.pairs_lt p hp).imp_right fun hlt => by omega
    · refine List.forall_mem_cons.2 ⟨List.forall_mem_cons.2 ⟨.inl rfl, hnew⟩, fun p hp => ?_⟩
      exact List.forall_mem_cons.2 ⟨(hnew p hp).symm, h.laminar p hp⟩
    · refine List.forall_mem_cons.2 ⟨fun o ho => .inl (hbelow o ho), fun p hp o ho => ?_⟩
      exact h.misses p hp o (by simp [hstack, ho])
    · intro d hd hbracket
      rcases List.mem_append.1 hd with hd | hd
      · obtain ⟨hlt, hfate⟩ := h.fate d hd hbracket
        refine ⟨by omega, ?_⟩
        cases hfate with
        | waits hopens hmem =>
          rcases List.mem_cons.1 (hstack ▸ hmem) with heq | hmem
          · exact .paired _ List.mem_cons_self (.inl heq.symm)
          · exact .waits hopens hmem
        | paired p hp hat => exact .paired p (List.mem_cons_of_mem _ hp) hat
        | alone hcloses hpairs hbefore =>
          have hfirst := hbefore opened (by simp [hstack])
          exact .alone hcloses (List.forall_mem_cons.2 ⟨.inl hfirst, hpairs⟩)
            fun o ho => hbefore o (by simp [hstack, ho])
      · rw [List.mem_singleton.1 hd]
        exact ⟨hproper, .paired _ List.mem_cons_self (.inr rfl)⟩

/-- One lexeme keeps brackets matched. -/
theorem Matched.step (h : st.Matched pos read) (hstart : pos ≤ l.span.start)
    (hproper : l.span.start < l.span.stop) : (st.step l).Matched l.span.stop (read ++ [l]) := by
  cases hbracket : l.kind.isBracket with
  | false =>
    obtain ⟨hstack, hpairs⟩ := step_of_not_isBracket st hbracket
    exact h.other hstack hpairs hbracket (by omega)
  | true =>
    cases hkind : l.kind <;> simp only [hkind, LexemeKind.isBracket, Bool.false_eq_true] at hbracket
    case opening =>
      simp only [LayoutState.step, hkind]
      exact h.push hkind hstart hproper
    case closing =>
      simp only [LayoutState.step, hkind]
      exact h.close hkind hstart hproper

/-- Lexemes in order keep brackets matched. -/
theorem Matched.foldl {rest : List Lexeme} (h : st.Matched pos read)
    (hrest : Lexeme.InOrder rest) (hstart : ∀ l ∈ rest, pos ≤ l.span.start) :
    ∃ pos', (rest.foldl LayoutState.step st).Matched pos' (read ++ rest) := by
  induction rest generalizing pos read st with
  | nil => exact ⟨pos, by simpa using h⟩
  | cons l rest ih =>
    obtain ⟨hl, hproper⟩ := List.forall_mem_cons.1 hrest.proper
    obtain ⟨hnext, hordered⟩ := List.pairwise_cons.1 hrest.ordered
    have hstep := h.step (hstart l List.mem_cons_self) hl
    obtain ⟨pos', hmatched⟩ := ih hstep ⟨hproper, hordered⟩ fun d hd => (hnext d hd).1
    exact ⟨pos', by simpa using hmatched⟩

end LayoutState

/-! ## Looking up a partner -/

namespace PairIndex

private theorem find?_of_unique {α : Type} (key : α → Nat) {l : List α} {a : α} (ha : a ∈ l)
    (hunique : ∀ b ∈ l, key b = key a → b = a) :
    l.find? (fun b => key b == key a) = some a := by
  cases hfind : l.find? (fun b => key b == key a) with
  | none =>
    have := List.find?_eq_none.1 hfind a ha
    simp at this
  | some b =>
    have hkey : key b = key a := by simpa using List.find?_some hfind
    rw [hunique b (List.mem_of_find?_eq_some hfind) hkey]

variable {index : PairIndex} {opening closing : Nat}

/-- Pairs are in order, and nested or disjoint. -/
structure Laminar (index : PairIndex) : Prop where
  /-- Brackets are in order. -/
  lt : ∀ p ∈ index.pairs, p.opening < p.closing
  /-- Any two pairs are nested or disjoint. -/
  laminar : ∀ p ∈ index.pairs, ∀ q ∈ index.pairs, p.Laminar q

/-- Two pairs of a laminar index that share a bracket are one. -/
theorem Laminar.eq_of_shared (h : index.Laminar) {p q : Pair} (hp : p ∈ index.pairs)
    (hq : q ∈ index.pairs) {offset : Nat} (hpo : p.HasBracketAt offset)
    (hqo : q.HasBracketAt offset) : p = q :=
  (h.laminar p hp q hq).eq_of_shared (h.lt p hp) (h.lt q hq) hpo hqo

/-- A closing bracket is found exactly for the listed pairs. -/
theorem Laminar.closingOf_iff (h : index.Laminar) :
    index.closingOf opening = some closing ↔ ⟨opening, closing⟩ ∈ index.pairs := by
  refine ⟨mem_of_closingOf, fun hmem => ?_⟩
  have hfind := find?_of_unique Pair.opening hmem fun q hq heq =>
    h.eq_of_shared hq hmem (.inl heq) (.inl rfl)
  rw [pairs, List.find?_map] at hfind
  have hget : index.get? opening = some ⟨opening, closing⟩ := hfind
  rw [closingOf, hget, Option.map_some]

private theorem Laminar.openingOf_iff (h : index.Laminar) :
    index.openingOf closing = some opening ↔ ⟨opening, closing⟩ ∈ index.pairs := by
  have hopening : index.openingOf closing =
      (index.pairs.find? fun p => p.closing == closing).map (·.opening) := by
    rw [pairs, List.find?_map, Option.map_map]
    rfl
  rw [hopening]
  constructor
  · intro hsome
    obtain ⟨p, hfind, rfl⟩ := Option.map_eq_some_iff.1 hsome
    have hclosing : p.closing = closing := by simpa using List.find?_some hfind
    rw [← hclosing]
    exact List.mem_of_find?_eq_some hfind
  · intro hmem
    have hfind := find?_of_unique Pair.closing hmem fun q hq heq =>
      h.eq_of_shared hq hmem (.inr heq) (.inr rfl)
    rw [hfind, Option.map_some]

end PairIndex

/-! ## The pairs of a document -/

/-- What the layout of some bytes says about their brackets. -/
structure Layout.WellPaired (bytes : List UInt8) (layout : Layout) : Prop where
  /-- A pair is an opening bracket and a later closing one. -/
  brackets : ∀ p ∈ layout.pairs.pairs, p.opening < p.closing ∧
    bytes[p.opening]? = some Byte.opening ∧ bytes[p.closing]? = some Byte.closing
  /-- The pairs are what is found at their brackets. -/
  lookup : ∀ p, p ∈ layout.pairs.pairs ↔ layout.pairs.closingOf p.opening = some p.closing
  /-- Looking up the partner of a partner leads back. -/
  inverse : ∀ opened closed, layout.pairs.closingOf opened = some closed ↔
    layout.pairs.openingOf closed = some opened
  /-- No offset belongs to two pairs. -/
  unshared : ∀ p ∈ layout.pairs.pairs, ∀ q ∈ layout.pairs.pairs, ∀ offset,
    p.HasBracketAt offset → q.HasBracketAt offset → p = q
  /-- Any two pairs are nested or disjoint. -/
  nested : ∀ p ∈ layout.pairs.pairs, ∀ q ∈ layout.pairs.pairs,
    p.encloses q = true ∨ q.encloses p = true ∨ p.closing < q.opening ∨ q.closing < p.opening
  /-- No bracket of a pair lies in a comment or in a string. -/
  outside : ∀ p ∈ layout.pairs.pairs, ∀ offset, p.HasBracketAt offset →
    layout.comments.contains offset = false ∧ layout.strings.contains offset = false
  /-- No offset lies both in a comment and in a string. -/
  apart : ∀ offset, ¬(layout.comments.contains offset = true ∧
    layout.strings.contains offset = true)
  /-- Brackets of pairs are read as brackets. -/
  structural : ∀ p ∈ layout.pairs.pairs, ∀ offset, p.HasBracketAt offset →
    ∃ l ∈ lexemes bytes, l.kind.isBracket = true ∧ l.span.start = offset
  /-- What is read as a bracket and belongs to no pair lies between the brackets of none. -/
  unmatched : ∀ l ∈ lexemes bytes, l.kind.isBracket = true →
    (∀ p ∈ layout.pairs.pairs, ¬p.HasBracketAt l.span.start) →
      ∀ p ∈ layout.pairs.pairs, ¬(p.opening < l.span.start ∧ l.span.start < p.closing)
  /-- No two brackets that could be partners are left without one: of an opening and a closing
  bracket that belong to no pair, the closing one comes first. -/
  maximal : ∀ o ∈ lexemes bytes, ∀ c ∈ lexemes bytes, o.kind = .opening → c.kind = .closing →
    (∀ p ∈ layout.pairs.pairs, ¬p.HasBracketAt o.span.start) →
      (∀ p ∈ layout.pairs.pairs, ¬p.HasBracketAt c.span.start) → c.span.start < o.span.start
  /-- Pairs close before the start of what is never closed. -/
  truncated : ∀ k, layout.truncatedAt = some k → ∀ p ∈ layout.pairs.pairs, p.closing < k

namespace Layout

variable {bytes : List UInt8}

/-- The state after all lexemes of some bytes. -/
private def finalState (bytes : List UInt8) : LayoutState :=
  (lexemes bytes).foldl LayoutState.step {}

private theorem mem_pairs_ofBytes {p : Pair} :
    p ∈ (ofBytes bytes).pairs.pairs ↔ p ∈ (finalState bytes).pairs := by
  simp [ofBytes, finalState, LayoutState.finish]

private theorem recorded_finalState (bytes : List UInt8) :
    (finalState bytes).Recorded (lexemes bytes) :=
  (LayoutState.Recorded.empty _).foldl fun _ hl => hl

private theorem matched_finalState (bytes : List UInt8) :
    ∃ pos, (finalState bytes).Matched pos (lexemes bytes) :=
  (LayoutState.Matched.empty 0).foldl (Lexeme.inOrder_lexemes bytes) fun _ _ => Nat.zero_le _

/-- The pairs of a source nest. -/
theorem laminar_ofBytes (bytes : List UInt8) : (ofBytes bytes).pairs.Laminar := by
  obtain ⟨pos, hmatched⟩ := matched_finalState bytes
  constructor
  · exact fun p hp => (hmatched.pairs_lt p (mem_pairs_ofBytes.1 hp)).1
  · exact fun p hp q hq =>
      hmatched.laminar p (mem_pairs_ofBytes.1 hp) q (mem_pairs_ofBytes.1 hq)

/-- An offset of a set that is made from lexemes lies in one of them. -/
private theorem exists_lexeme_of_contains {spans : List Span} {P : LexemeKind → Prop}
    (hspans : ∀ s ∈ spans, ∃ l ∈ lexemes bytes, l.span = s ∧ P l.kind) {offset : Nat}
    (h : (SpanSet.ofList spans).contains offset = true) :
    ∃ l ∈ lexemes bytes, l.span.contains offset = true ∧ P l.kind := by
  have hcontains : ∃ s ∈ spans, s.contains offset = true := by
    refine (SpanSet.contains_ofList fun s hs => ?_).1 h
    obtain ⟨l, hl, rfl, -⟩ := hspans s hs
    exact Nat.le_of_lt ((Lexeme.inOrder_lexemes bytes).proper l hl)
  obtain ⟨s, hs, hoffset⟩ := hcontains
  obtain ⟨l, hl, rfl, hkind⟩ := hspans s hs
  exact ⟨l, hl, hoffset, hkind⟩

private theorem exists_comment_of_contains {offset : Nat}
    (h : (ofBytes bytes).comments.contains offset = true) :
    ∃ l ∈ lexemes bytes, l.span.contains offset = true ∧ l.kind.isComment = true :=
  exists_lexeme_of_contains (P := fun kind => kind.isComment = true)
    (recorded_finalState bytes).comments h

private theorem exists_string_of_contains {offset : Nat}
    (h : (ofBytes bytes).strings.contains offset = true) :
    ∃ l ∈ lexemes bytes, l.span.contains offset = true ∧ l.kind.isString = true :=
  exists_lexeme_of_contains (P := fun kind => kind.isString = true)
    (recorded_finalState bytes).strings h

/-- A pair is read as an opening and a closing bracket. -/
theorem startsAt_of_mem_pairs {p : Pair} (hp : p ∈ (ofBytes bytes).pairs.pairs) :
    Lexeme.StartsAt (lexemes bytes) .opening p.opening ∧
      Lexeme.StartsAt (lexemes bytes) .closing p.closing :=
  (recorded_finalState bytes).pairs p (mem_pairs_ofBytes.1 hp)

/-- Brackets of pairs are read as brackets. -/
theorem exists_bracket_of_mem_pairs {p : Pair} (hp : p ∈ (ofBytes bytes).pairs.pairs)
    {offset : Nat} (hoffset : p.HasBracketAt offset) :
    ∃ l ∈ lexemes bytes, l.kind.isBracket = true ∧ l.span.start = offset := by
  obtain ⟨⟨o, ho, hokind, hostart⟩, ⟨c, hc, hckind, hcstart⟩⟩ := startsAt_of_mem_pairs hp
  rcases hoffset with rfl | rfl
  · exact ⟨o, ho, by simp [hokind, LexemeKind.isBracket], hostart⟩
  · exact ⟨c, hc, by simp [hckind, LexemeKind.isBracket], hcstart⟩

/-- A lexeme that holds a bracket of a pair is that bracket. -/
private theorem isBracket_of_contains {p : Pair} (hp : p ∈ (ofBytes bytes).pairs.pairs)
    {offset : Nat} (hoffset : p.HasBracketAt offset) {l : Lexeme} (hl : l ∈ lexemes bytes)
    (hcontains : l.span.contains offset = true) : l.kind.isBracket = true := by
  obtain ⟨d, hd, hbracket, rfl⟩ := exists_bracket_of_mem_pairs hp hoffset
  have horder := Lexeme.inOrder_lexemes bytes
  have hself : d.span.contains d.span.start = true :=
    Span.contains_iff.2 ⟨Nat.le_refl _, horder.proper d hd⟩
  rw [horder.eq_of_contains hl hd hcontains hself]
  exact hbracket

/-- No bracket of a pair lies in a comment or in a string. -/
theorem not_contains_of_hasBracketAt {p : Pair} (hp : p ∈ (ofBytes bytes).pairs.pairs)
    {offset : Nat} (hoffset : p.HasBracketAt offset) :
    (ofBytes bytes).comments.contains offset = false ∧
      (ofBytes bytes).strings.contains offset = false := by
  constructor <;> rw [Bool.eq_false_iff] <;> intro hcontains
  · obtain ⟨l, hl, hspan, hkind⟩ := exists_comment_of_contains hcontains
    have hbracket := isBracket_of_contains hp hoffset hl hspan
    cases h : l.kind <;> simp [h, LexemeKind.isComment, LexemeKind.isBracket] at hkind hbracket
  · obtain ⟨l, hl, hspan, hkind⟩ := exists_string_of_contains hcontains
    have hbracket := isBracket_of_contains hp hoffset hl hspan
    cases h : l.kind <;> simp [h, LexemeKind.isString, LexemeKind.isBracket] at hkind hbracket

/-- No offset lies both in a comment and in a string. -/
theorem not_contains_both (bytes : List UInt8) (offset : Nat) :
    ¬((ofBytes bytes).comments.contains offset = true ∧
      (ofBytes bytes).strings.contains offset = true) := by
  rintro ⟨hcomment, hstring⟩
  obtain ⟨c, hc, hcspan, hckind⟩ := exists_comment_of_contains hcomment
  obtain ⟨s, hs, hsspan, hskind⟩ := exists_string_of_contains hstring
  rw [(Lexeme.inOrder_lexemes _).eq_of_contains hc hs hcspan hsspan] at hckind
  cases h : s.kind <;> simp [h, LexemeKind.isComment, LexemeKind.isString] at hckind hskind

/-- A bracket without a partner lies between the brackets of no pair. -/
theorem not_between_of_unmatched {l : Lexeme} (hl : l ∈ lexemes bytes)
    (hbracket : l.kind.isBracket = true)
    (hnone : ∀ p ∈ (ofBytes bytes).pairs.pairs, ¬p.HasBracketAt l.span.start) {p : Pair}
    (hp : p ∈ (ofBytes bytes).pairs.pairs) :
    ¬(p.opening < l.span.start ∧ l.span.start < p.closing) := by
  obtain ⟨pos, hmatched⟩ := matched_finalState bytes
  have hp' := mem_pairs_ofBytes.1 hp
  have hmisses : p.Misses l.span.start := by
    cases (hmatched.fate l hl hbracket).2 with
    | waits _ hmem => exact hmatched.misses p hp' _ hmem
    | paired q hq hat => exact absurd hat (hnone q (mem_pairs_ofBytes.2 hq))
    | alone _ hpairs _ => exact hpairs p hp'
  unfold Pair.Misses at hmisses
  omega

/-- Of two brackets without a partner, a closing one comes before an opening one. -/
theorem closing_lt_opening_of_unmatched {o c : Lexeme} (ho : o ∈ lexemes bytes)
    (hc : c ∈ lexemes bytes) (hokind : o.kind = .opening) (hckind : c.kind = .closing)
    (honone : ∀ p ∈ (ofBytes bytes).pairs.pairs, ¬p.HasBracketAt o.span.start)
    (hcnone : ∀ p ∈ (ofBytes bytes).pairs.pairs, ¬p.HasBracketAt c.span.start) :
    c.span.start < o.span.start := by
  obtain ⟨pos, hmatched⟩ := matched_finalState bytes
  have hwaits : o.span.start ∈ (finalState bytes).stack := by
    cases (hmatched.fate o ho (by rw [hokind]; rfl)).2 with
    | waits _ hmem => exact hmem
    | paired q hq hat => exact absurd hat (honone q (mem_pairs_ofBytes.2 hq))
    | alone hkind => exact absurd (hokind.symm.trans hkind) nofun
  cases (hmatched.fate c hc (by rw [hckind]; rfl)).2 with
  | waits hkind => exact absurd (hckind.symm.trans hkind) nofun
  | paired q hq hat => exact absurd hat (hcnone q (mem_pairs_ofBytes.2 hq))
  | alone _ _ hstack => exact hstack _ hwaits

/-- Pairs close before the start of what is never closed. -/
theorem closing_lt_of_truncatedAt {k : Nat} (hk : (ofBytes bytes).truncatedAt = some k) {p : Pair}
    (hp : p ∈ (ofBytes bytes).pairs.pairs) : p.closing < k := by
  have hrecorded := recorded_finalState bytes
  obtain ⟨u, hu, hunclosed, rfl⟩ := hrecorded.truncated k hk
  obtain ⟨-, d, hd, hkind, hclosing⟩ := hrecorded.pairs p (mem_pairs_ofBytes.1 hp)
  rw [← hclosing]
  exact (Lexeme.inOrder_lexemes bytes).lt_of_isUnclosed hd hu
    (by simp [hkind, LexemeKind.isUnclosed]) hunclosed

/-- The brackets of every text are paired soundly. -/
theorem wellPaired_ofText (text : String) :
    (Source.ofText text).layout.WellPaired (Utf8.bytes text) := by
  have hsits := (sound_ofBytes (clean_bytes text)).pairs
  have hlaminar := laminar_ofBytes (Utf8.bytes text)
  exact
    { brackets := fun p hp => ⟨(hsits p hp).lt, (hsits p hp).opening, (hsits p hp).closing⟩
      lookup := fun p => hlaminar.closingOf_iff.symm
      inverse := fun opened closed => hlaminar.closingOf_iff.trans hlaminar.openingOf_iff.symm
      unshared := fun p hp q hq offset hpo hqo => hlaminar.eq_of_shared hp hq hpo hqo
      nested := fun p hp q hq => by
        simp only [Pair.encloses, Bool.and_eq_true, decide_eq_true_eq]
        rcases hlaminar.laminar p hp q hq with rfl | h | h | h | h <;> omega
      outside := fun p hp offset hoffset => not_contains_of_hasBracketAt hp hoffset
      apart := not_contains_both (Utf8.bytes text)
      structural := fun p hp offset hoffset => exists_bracket_of_mem_pairs hp hoffset
      unmatched := fun l hl hbracket hnone p hp => not_between_of_unmatched hl hbracket hnone hp
      maximal := fun o ho c hc hokind hckind honone hcnone =>
        closing_lt_opening_of_unmatched ho hc hokind hckind honone hcnone
      truncated := fun k hk p hp => closing_lt_of_truncatedAt hk hp }

end Layout

end LexScope
