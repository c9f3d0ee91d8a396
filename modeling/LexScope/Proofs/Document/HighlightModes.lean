import LexScope.Proofs.Document.Highlight
import LexScope.Proofs.Document.Navigation

/-!
# Highlighting under a weaker mode

A mode that leaves out less of a document highlights more of its symbols, and those that were
highlighted before look the same. What gives a symbol its class is collected and resolved without
the mode for highlighting: that mode only says which symbols are asked for.
-/

namespace LexScope

/-- A span that keeps clear of a set keeps clear of every smaller one. -/
theorem SpanSet.meets_eq_false_of_subset {a b : SpanSet} (ha : Separated a.spans)
    (hb : Separated b.spans) (hsub : ∀ offset, a.contains offset = true → b.contains offset = true)
    {s : Span} (hproper : s.start < s.stop) (h : b.meets s = false) : a.meets s = false := by
  refine meets_eq_false ha hproper fun offset hoffset => ?_
  rw [Bool.eq_false_iff]
  intro hcontains
  have hmeets : b.meets s = true := (meets_iff hb hproper).2
    ⟨offset, (contains_iff_mem_offsets hb).1 (hsub offset hcontains), hoffset⟩
  rw [h] at hmeets
  cases hmeets

namespace Analysis

/-- Every offset that the mode `weak` leaves out is left out by the mode `strong` too. -/
def IsWeaker (a : Analysis) (weak strong : Mode) : Prop :=
  ∀ offset, (a.excluded weak).contains offset = true → (a.excluded strong).contains offset = true

variable {settings : Settings} {text : String} {weak strong : Mode}

/-- What can be highlighted can be highlighted under a weaker mode. -/
theorem IsHighlightable.weaken (h : (analyze settings text).IsWeaker weak strong) {s : Symbol}
    (hs : s ∈ (Source.ofText text).symbols)
    (hable : (analyze { settings with highlight := strong } text).IsHighlightable s) :
    (analyze { settings with highlight := weak } text).IsHighlightable s := by
  have hsrc := Source.sound_ofText text
  simp only [IsWeaker, IsHighlightable, excluded, analyze_eq] at h hable ⊢
  have hseparated := hsrc.layout.separated_excluded hsrc.clean
  exact ⟨hable.1, SpanSet.meets_eq_false_of_subset (hseparated weak) (hseparated strong) h
    (Source.start_lt_stop_of_mem_symbols hs) hable.2⟩

/-- Bindings do not depend on the mode for highlighting, and so neither does what a symbol looks
like. -/
theorem highlightBinding_analyze (settings : Settings) (text : String) (mode : Mode) (s : Symbol) :
    (analyze { settings with highlight := mode } text).highlightBinding s =
      (analyze settings text).highlightBinding s := by
  rw [analyze_eq, analyze_eq]
  rfl

/-- A symbol that is highlighted is highlighted alike under a weaker mode, at the same place, with
the same length and class and as a definition or not as before. -/
theorem highlights_weaken (settings : Settings) (text : String)
    (h : (analyze settings text).IsWeaker weak strong) :
    ∀ t ∈ (analyze { settings with highlight := strong } text).highlights,
      t ∈ (analyze { settings with highlight := weak } text).highlights := by
  have hsymbols (mode : Mode) : (analyze { settings with highlight := mode } text).symbols =
      (Source.ofText text).symbols := by
    rw [analyze_eq]
  have hlines (mode : Mode) : (analyze { settings with highlight := mode } text).lines =
      .ofBytes (Source.ofText text).bytes := by
    rw [analyze_eq, lines]
  intro t ht
  simp only [mem_highlights, Shows, hsymbols, hlines, highlightBinding_analyze] at ht ⊢
  obtain ⟨s, hs, hable, hshows, hbinding⟩ := ht
  exact ⟨s, hs, hable.weaken h hs, hshows, hbinding⟩

/-- The law applies to a template with an evaluated part, which only the weaker of two modes
keeps. -/
theorem highlights_weaken_template :
    (analyze {} "(defvar v 1) `(v ,v)").IsWeaker .commentStringQuoteBackquoteExceptComma
        .commentStringQuoteBackquote ∧
      ∀ t ∈ (analyze { ({} : Settings) with highlight := .commentStringQuoteBackquote }
          "(defvar v 1) `(v ,v)").highlights,
        t ∈ (analyze { ({} : Settings) with highlight := .commentStringQuoteBackquoteExceptComma }
          "(defvar v 1) `(v ,v)").highlights := by
  have hweak : (Source.ofText "(defvar v 1) `(v ,v)").layout.excluded
      .commentStringQuoteBackquoteExceptComma = ⟨[⟨13, 17⟩, ⟨19, 20⟩]⟩ := by
    cbv
  have hstrong : (Source.ofText "(defvar v 1) `(v ,v)").layout.excluded
      .commentStringQuoteBackquote = ⟨[⟨13, 20⟩]⟩ := by
    cbv
  have hweaker : (analyze {} "(defvar v 1) `(v ,v)").IsWeaker
      .commentStringQuoteBackquoteExceptComma .commentStringQuoteBackquote := by
    intro offset
    rw [analyze_eq]
    simp only [excluded, hweak, hstrong, SpanSet.contains, SpanSet.spanAt, SpanSet.firstAfter]
    grind
  exact ⟨hweaker, highlights_weaken {} _ hweaker⟩

end Analysis

end LexScope
