import LexScope.Document.Analysis
import LexScope.Proofs.Form.Seams
import LexScope.Proofs.Form.Separation

/-!
# The symbol at a cursor

Reading words jumps over comments, strings, dispatched readings and the groups of feature tests, and
each jump goes forward, so reading ends. What is read keeps apart, and none of it starts inside what
is jumped over. A cursor counts as being at a symbol when it is right behind it, too; as symbols do
not touch, this still leaves one symbol at most, and that one is found.
-/

namespace LexScope

open Byte

/-! ## Reading ends -/

namespace Source

/-- One step of reading words at an offset: the word that is read, if any, and the offset where
reading goes on. Nothing here makes sure that this offset lies behind the first one. -/
def wordStep (src : Source) (pos : Nat) : Option (Span × List UInt8) × Nat :=
  match src.layout.commentsAndStrings.spanAt pos with
  | some s => (none, s.stop)
  | none =>
    match src.bytes.drop pos with
    | [] => (none, pos)
    | b :: rest =>
      if isDelimiter b then (none, pos + 1)
      else if b == hash then (none, pos + 1 + dispatchLength src.layout.pairs pos rest)
      else
        let length := atomLength (b :: rest)
        (some (⟨pos, pos + length⟩, (b :: rest).take length), pos + length)

/-- Reading from an offset to the end of the document, step by step, comes to an end with these
words. -/
inductive ReadsWords (src : Source) : Nat → List (Span × List UInt8) → Prop
  /-- The end has been reached. -/
  | done {pos : Nat} (h : src.bytes.length ≤ pos) : ReadsWords src pos []
  /-- Reading goes on after a step. -/
  | step {pos : Nat} {words : List (Span × List UInt8)} (h : pos < src.bytes.length)
      (hrest : ReadsWords src (src.wordStep pos).2 words) :
      ReadsWords src pos ((src.wordStep pos).1.toList ++ words)

variable {src : Source} {pos : Nat}

/-- Each step goes forward. -/
theorem lt_wordStep (h : pos < src.bytes.length) : pos < (src.wordStep pos).2 := by
  unfold wordStep
  split
  · next s hskip => exact (SpanSet.bounds_of_spanAt hskip).2
  · split
    · next hdrop =>
      have := List.drop_eq_nil_iff.1 hdrop
      omega
    · next b rest hdrop =>
      split
      · exact Nat.lt_succ_self pos
      split
      · simp only
        omega
      · next hb _ =>
        have hone : 1 ≤ atomLength (b :: rest) := one_le_atomLength (by simpa using hb)
        simp only
        omega

private theorem ReadsWords.of_wordStep {next : Nat} {read : Option (Span × List UInt8)}
    {words : List (Span × List UInt8)} (h : pos < src.bytes.length)
    (hstep : src.wordStep pos = (read, next)) (hrest : src.ReadsWords next words) :
    src.ReadsWords pos (read.toList ++ words) := by
  have hread := ReadsWords.step h (by rwa [hstep])
  rwa [hstep] at hread

/-- The words from an offset on are what reading from there comes to. -/
theorem readsWords_wordsFrom {bytes : List UInt8} (hdrop : src.bytes.drop pos = bytes) :
    src.ReadsWords pos (wordsFrom src.layout.pairs src.layout.commentsAndStrings pos bytes) := by
  fun_induction wordsFrom src.layout.pairs src.layout.commentsAndStrings pos bytes with
  | case1 => exact .done (List.drop_eq_nil_iff.1 hdrop)
  | case2 pos b rest s hskip ih =>
    have hlt := (SpanSet.bounds_of_spanAt hskip).2
    have hstep : src.wordStep pos = (none, s.stop) := by simp [wordStep, hskip]
    rw [Nat.max_eq_left hlt] at ih ⊢
    exact .of_wordStep (pos_le_of_drop_cons hdrop) hstep (ih (drop_of_drop_cons hdrop hlt))
  | case3 pos b rest hskip hb ih =>
    have hstep : src.wordStep pos = (none, pos + 1) := by simp [wordStep, hskip, hdrop, hb]
    exact .of_wordStep (pos_le_of_drop_cons hdrop) hstep (ih (drop_succ_of_drop_cons hdrop))
  | case4 pos b rest hskip hb hhash more ih =>
    have hstep : src.wordStep pos = (none, pos + 1 + more) := by
      simp [wordStep, hskip, hdrop, hb, hhash, more]
    refine .of_wordStep (pos_le_of_drop_cons hdrop) hstep (ih ?_)
    rw [drop_of_drop_cons hdrop (by omega), Nat.add_sub_cancel_left]
  | case5 pos b rest hskip hb hhash length ih =>
    have hone : 1 ≤ length := one_le_atomLength (by simpa using hb)
    have hstep : src.wordStep pos =
        (some (⟨pos, pos + length⟩, (b :: rest).take length), pos + length) := by
      simp [wordStep, hskip, hdrop, hb, hhash, length]
    rw [Nat.max_eq_left (by omega)] at ih ⊢
    refine .of_wordStep (pos_le_of_drop_cons hdrop) hstep (ih ?_)
    rw [drop_of_drop_cons hdrop (by omega), Nat.add_sub_add_left]

private theorem readsWords_words (src : Source) : src.ReadsWords 0 src.words :=
  readsWords_wordsFrom rfl

end Source

/-! ## Where symbols stand -/

/-- No word starts in what words leave out. -/
theorem contains_eq_false_of_mem_wordsFrom {pairs : PairIndex} {skip : SpanSet} {pos : Nat}
    {bytes : List UInt8} {word : Span × List UInt8}
    (h : word ∈ wordsFrom pairs skip pos bytes) : skip.contains word.1.start = false := by
  fun_induction wordsFrom pairs skip pos bytes with
  | case1 => cases h
  | case2 pos b rest s hskip ih => exact ih h
  | case3 pos b rest hskip hb ih => exact ih h
  | case4 pos b rest hskip hb hhash more ih => exact ih h
  | case5 pos b rest hskip hb hhash length ih =>
    rcases List.mem_cons.1 h with rfl | h
    · rw [SpanSet.contains, hskip, Option.isSome_none]
    · exact ih h

/-- What is outside of comments and strings together is outside of both. -/
theorem Layout.contains_eq_false_of_commentsAndStrings {bytes : List UInt8} {offset : Nat}
    (h : (ofBytes bytes).commentsAndStrings.contains offset = false) :
    (ofBytes bytes).comments.contains offset = false ∧
      (ofBytes bytes).strings.contains offset = false := by
  rw [Bool.eq_false_iff, ne_eq, (collects_commentsAndStrings bytes).contains_iff] at h
  constructor
  · rw [Bool.eq_false_iff, ne_eq, (collects_comments bytes).contains_iff]
    rintro ⟨l, hl, hkind, hcontains⟩
    exact h ⟨l, hl, .inl hkind, hcontains⟩
  · rw [Bool.eq_false_iff, ne_eq, (collects_strings bytes).contains_iff]
    rintro ⟨l, hl, hkind, hcontains⟩
    exact h ⟨l, hl, .inr hkind, hcontains⟩

/-- No symbol starts in a comment or in a string. -/
theorem Source.contains_eq_false_of_mem_symbols {text : String} {s : Symbol}
    (h : s ∈ (ofText text).symbols) :
    (ofText text).layout.comments.contains s.span.start = false ∧
      (ofText text).layout.strings.contains s.span.start = false := by
  obtain ⟨word, hword, hsymbol⟩ := List.mem_filterMap.1 h
  rw [Symbol.span_of_ofWord hsymbol]
  exact Layout.contains_eq_false_of_commentsAndStrings (contains_eq_false_of_mem_wordsFrom hword)

/-! ## Looking for a symbol -/

/-- Where a property holds only of a last part of a list, what is found for it is the element behind
all those that do not have it. -/
theorem exists_find?_eq_getElem? {α : Type} {P : α → Bool} {l : List α}
    (h : l.Pairwise fun a b => P a = true → P b = true) :
    ∃ k : Nat, (∀ (i : Nat) (a : α), l[i]? = some a → (P a = true ↔ k ≤ i)) ∧
      l.find? P = l[k]? := by
  induction l with
  | nil => exact ⟨0, by simp⟩
  | cons x rest ih =>
    obtain ⟨hx, hrest⟩ := List.pairwise_cons.1 h
    cases hP : P x with
    | true =>
      refine ⟨0, fun i a hget => ?_, by rw [List.find?_cons_of_pos hP, List.getElem?_cons_zero]⟩
      have ha : P a = true := by
        rcases List.mem_cons.1 (List.mem_of_getElem? hget) with rfl | ha
        · exact hP
        · exact hx a ha hP
      exact iff_of_true ha (Nat.zero_le i)
    | false =>
      obtain ⟨k, hpart, hfind⟩ := ih hrest
      refine ⟨k + 1, fun i a hget => ?_, by simp [hP, hfind]⟩
      cases i with
      | zero =>
        obtain rfl : x = a := by simpa using hget
        simp [hP]
      | succ i => simpa using hpart i a (by simpa using hget)

/-- The symbols before this index are those that end before the offset. -/
def SplitsAt (symbols : List Symbol) (offset k : Nat) : Prop :=
  ∀ i s, symbols[i]? = some s → (s.span.stop < offset ↔ i < k)

namespace Analysis

variable {a : Analysis} {offset : Nat} {s : Symbol}

/-- The symbol that is found at an offset is the one that has the offset in it or at its end. -/
theorem symbolAt_eq_some_iff (hsymbols : a.symbols = a.source.symbols) :
    a.symbolAt offset = some s ↔ s ∈ a.symbols ∧ s.span.touches offset = true := by
  rw [symbolAt, Option.filter_eq_some_iff]
  refine and_congr_left fun htouches => ⟨List.mem_of_find?_eq_some, fun h => ?_⟩
  rw [Span.touches_iff] at htouches
  obtain ⟨before, after, hsplit⟩ := List.append_of_mem h
  have hapart := a.source.pairwise_symbols
  rw [← hsymbols, hsplit] at hapart
  have hbefore : ∀ t ∈ before, t.span.stop < offset := fun t ht =>
    Nat.lt_of_lt_of_le ((List.pairwise_append.1 hapart).2.2 t ht s List.mem_cons_self) htouches.1
  rw [hsplit, List.find?_append, List.find?_eq_none.2 fun t ht => by simpa using hbefore t ht,
    Option.none_or, List.find?_cons_of_pos (by simpa using htouches.2)]

/-- The symbols that end before an offset come first, so the one to look at, the next one, can be
found by halving. -/
theorem exists_symbolAt_eq (hsymbols : a.symbols = a.source.symbols) (offset : Nat) :
    ∃ k, SplitsAt a.symbols offset k ∧
      a.symbolAt offset = a.symbols[k]?.filter fun s => s.span.touches offset := by
  have hapart := a.source.pairwise_symbols
  rw [← hsymbols] at hapart
  have hmono : a.symbols.Pairwise fun s t =>
      decide (offset ≤ s.span.stop) = true → decide (offset ≤ t.span.stop) = true := by
    refine hapart.imp_of_mem fun {s t} _ ht hlt => ?_
    have hproper := Source.start_lt_stop_of_mem_symbols (hsymbols ▸ ht)
    simp only [decide_eq_true_eq]
    omega
  obtain ⟨k, hpart, hfind⟩ := exists_find?_eq_getElem? hmono
  refine ⟨k, fun i s hget => ?_, by rw [symbolAt, hfind]⟩
  have := hpart i s hget
  rw [decide_eq_true_eq] at this
  omega

/-- What the symbols of a document and looking them up at a cursor promise. -/
structure SelectsSymbols (a : Analysis) : Prop where
  /-- Each step of reading words goes forward, -/
  forward : ∀ pos < a.source.bytes.length, pos < (a.source.wordStep pos).2
  /-- also when it jumps to the end of a group, -/
  groups : ∀ opened closed, a.source.layout.pairs.closingOf opened = some closed → opened < closed
  /-- so reading ends. -/
  ends : a.source.ReadsWords 0 a.source.words
  /-- The symbols are taken from the words that are read. -/
  symbols : a.symbols = a.source.words.filterMap Symbol.ofWord
  /-- No symbol is empty. -/
  proper : ∀ s ∈ a.symbols, s.span.start < s.span.stop
  /-- Each symbol ends strictly before the next one starts. -/
  apart : a.symbols.Pairwise fun s t => s.span.stop < t.span.start
  /-- No symbol starts in a comment or in a string. -/
  outside : ∀ s ∈ a.symbols, a.source.layout.comments.contains s.span.start = false ∧
    a.source.layout.strings.contains s.span.start = false
  /-- One symbol at most has an offset in it or at its end. -/
  unique : ∀ offset, ∀ s ∈ a.symbols, ∀ t ∈ a.symbols,
    s.span.touches offset = true → t.span.touches offset = true → s = t
  /-- A cursor selects that symbol, and nothing if there is none. -/
  selects : ∀ offset s,
    a.symbolAt offset = some s ↔ s ∈ a.symbols ∧ s.span.touches offset = true
  /-- The symbol to look at comes right after those that end before the cursor. -/
  splits : ∀ offset, ∃ k, SplitsAt a.symbols offset k ∧
    a.symbolAt offset = a.symbols[k]?.filter fun s => s.span.touches offset

/-- In every document symbols keep apart, and the one at a cursor is found. -/
theorem selectsSymbols_analyze (settings : Settings) (text : String) :
    (analyze settings text).SelectsSymbols := by
  have hsource : (analyze settings text).source = .ofText text := by rw [analyze_eq]
  have hsymbols : (analyze settings text).symbols = (analyze settings text).source.symbols := by
    rw [analyze_eq]
  generalize analyze settings text = a at hsource hsymbols ⊢
  constructor
  case forward => exact fun pos => Source.lt_wordStep
  case groups =>
    intro opened closed hclosed
    rw [hsource] at hclosed
    exact (Layout.laminar_ofBytes _).lt _ (PairIndex.mem_of_closingOf hclosed)
  case ends => exact a.source.readsWords_words
  case symbols => exact hsymbols
  case proper => exact fun s hs => Source.start_lt_stop_of_mem_symbols (hsymbols ▸ hs)
  case apart => exact hsymbols ▸ a.source.pairwise_symbols
  case outside =>
    intro s hs
    rw [hsymbols, hsource] at hs
    rw [hsource]
    exact Source.contains_eq_false_of_mem_symbols hs
  case unique =>
    intro offset s hs t ht hsat htat
    have hfound := (symbolAt_eq_some_iff hsymbols).2 ⟨hs, hsat⟩
    rw [(symbolAt_eq_some_iff hsymbols).2 ⟨ht, htat⟩] at hfound
    exact (Option.some.inj hfound).symm
  case selects => exact fun offset s => symbolAt_eq_some_iff hsymbols
  case splits => exact exists_symbolAt_eq hsymbols

-- No two symbols come closer than these.
example : (Source.ofText "a'b").symbols = [⟨"a", ⟨0, 1⟩⟩, ⟨"b", ⟨2, 3⟩⟩] := by
  cbv

end Analysis

end LexScope
