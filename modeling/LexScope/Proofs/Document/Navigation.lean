import LexScope.Document.Navigation
import LexScope.Proofs.Binding.Bounds
import LexScope.Proofs.Binding.Lookup
import LexScope.Proofs.Document.Cursor
import LexScope.Proofs.Span.Algebra
import Mathlib

/-!
# References from any occurrence

Whichever occurrence of a binding the cursor stands on, the definition and the references that are
found are the same. Symbols keep apart, so that the start of a reference leads back to its symbol;
and symbols that belong to bindings with one definition have their occurrences in common, whatever
the details in which these bindings differ.
-/

namespace LexScope

open Utf8

/-! ## The definition of a binding -/

namespace Binding

private theorem sameDefinition_iff {b d : Binding} :
    b.sameDefinition d = true ↔ b.name = d.name ∧ b.site = d.site ∧ b.kind = d.kind := by
  simp [sameDefinition, and_assoc]

private theorem sameDefinition_self (b : Binding) : b.sameDefinition b = true :=
  sameDefinition_iff.2 ⟨rfl, rfl, rfl⟩

/-- Bindings with one definition have it in common with the same bindings. -/
theorem sameDefinition_congr {b d : Binding} (h : b.sameDefinition d = true) (c : Binding) :
    c.sameDefinition b = c.sameDefinition d := by
  obtain ⟨hname, hsite, hkind⟩ := sameDefinition_iff.1 h
  simp only [sameDefinition, hname, hsite, hkind]

end Binding

/-! ## What a name resolves to -/

namespace Table

variable {t : Table} {name : String} {b : Binding}

private theorem name_of_mem_locals (h : b ∈ t.locals name) : b.name = name :=
  eq_of_beq (List.mem_filter.1 h).2

private theorem name_of_global (h : t.global name = some b) : b.name = name :=
  eq_of_beq (List.mem_filter.1 (List.mem_of_getLast? h)).2

/-- A name resolves to a binding of that name that has a scope, or to its global definition. -/
theorem mem_of_resolve {site : Span} {position : Option Nat}
    (h : (t.resolve name site position).binding = some b) :
    b ∈ t.locals name ∨ t.global name = some b := by
  unfold resolve at h
  simp only at h
  split at h
  · exact .inr h
  · split at h
    · next hfind =>
      cases h
      exact .inl (List.mem_of_find?_eq_some hfind)
    · split at h
      · next hinnermost =>
        cases h
        exact .inl (List.mem_filter.1 (mem_of_lastMaxBy hinnermost)).1
      · split at h
        · next hstep =>
          cases h
          unfold stepVariable at hstep
          split at hstep
          · exact .inl (List.mem_filter.1 (mem_of_lastMaxBy hstep)).1
          · cases hstep
        · exact .inr h

/-- A name resolves to bindings of that name only. -/
theorem name_of_resolve {site : Span} {position : Option Nat}
    (h : (t.resolve name site position).binding = some b) : b.name = name :=
  (mem_of_resolve h).elim name_of_mem_locals name_of_global

end Table

namespace Analysis

/-- How the references found at an offset fit the definition found there, and what is found from
any of them. -/
structure ReferencesAgree (a : Analysis) (offset : Nat) (site : Span) : Prop where
  /-- The symbol under the cursor is one of them. -/
  cursor : ∃ s, a.symbolAt offset = some s ∧ s.span ∈ a.references offset true
  /-- Each leads to the definition. -/
  definition : ∀ r ∈ a.references offset true, a.definition r.start = some site
  /-- From each the same references are found. -/
  references : ∀ r ∈ a.references offset true, ∀ withDefinition,
    a.references r.start withDefinition = a.references offset withDefinition
  /-- Without the definition all others are left. -/
  withoutDefinition : a.references offset false =
    (a.references offset true).filter fun r => r != site
  /-- They come in order and leave gaps. -/
  apart : ∀ withDefinition, SpanSet.Separated (a.references offset withDefinition)
  /-- None has an offset in common with what is left out for lookups. -/
  outside : ∀ withDefinition, ∀ r ∈ a.references offset withDefinition, ∀ p,
    r.contains p = true → (a.excluded a.settings.lookup).contains p = false

section Target

variable {a : Analysis} {offset : Nat} {s : Symbol} {b : Binding}

private theorem name_of_bindingOf (h : a.bindingOf s = some b) : b.name = s.name := by
  unfold bindingOf at h
  simp only at h
  split at h
  · cases h
  · exact Table.name_of_resolve h

/-- A target is a symbol outside what is left out, with its binding. -/
theorem targetAt_eq_some_iff : a.targetAt offset = some (s, b) ↔
    a.symbolAt offset = some s ∧ (a.excluded a.settings.lookup).meets s.span = false ∧
      a.bindingOf s = some b := by
  unfold targetAt
  split
  · next hnone => simp [hnone]
  · next t ht =>
    rw [ht, Option.some.injEq]
    cases hmeets : (a.excluded a.settings.lookup).meets t.span with
    | true =>
      refine iff_of_false (by simp) ?_
      rintro ⟨rfl, hout, -⟩
      rw [hmeets] at hout
      cases hout
    | false =>
      simp only [Bool.false_eq_true, if_false, Option.map_eq_some_iff, Prod.mk.injEq]
      constructor
      · rintro ⟨d, hd, rfl, rfl⟩
        exact ⟨rfl, hmeets, hd⟩
      · rintro ⟨rfl, -, hb⟩
        exact ⟨b, hb, rfl, rfl⟩

private theorem mem_symbols_of_symbolAt (h : a.symbolAt offset = some s) : s ∈ a.symbols :=
  List.mem_of_find?_eq_some (Option.filter_eq_some_iff.1 h).1

/-- At the start of a symbol that symbol is found. -/
theorem symbolAt_start (hsymbols : a.symbols = a.source.symbols) (h : s ∈ a.symbols) :
    a.symbolAt s.span.start = some s := by
  have hproper := Source.start_lt_stop_of_mem_symbols (hsymbols ▸ h)
  exact (symbolAt_eq_some_iff hsymbols).2
    ⟨h, Span.touches_iff.2 ⟨Nat.le_refl _, Nat.le_of_lt hproper⟩⟩

/-- A span is an occurrence of a binding if a symbol stands there, outside what is left out, that
belongs to a binding with the same definition. -/
theorem mem_occurrencesOf {mode : Mode} {r : Span} : r ∈ a.occurrencesOf b mode ↔
    ∃ s ∈ a.symbols, s.span = r ∧ (a.excluded mode).meets s.span = false ∧
      ∃ d, a.bindingOf s = some d ∧ d.sameDefinition b = true := by
  simp only [occurrencesOf, occurrences, List.mem_map, List.mem_filter, Bool.and_eq_true,
    Bool.not_eq_true', beq_iff_eq, Option.any_eq_true]
  constructor
  · rintro ⟨s, ⟨⟨hs, hout⟩, -, hd⟩, rfl⟩
    exact ⟨s, hs, rfl, hout, hd⟩
  · rintro ⟨s, hs, rfl, hout, d, hd, hsame⟩
    have hname : s.name = b.name :=
      (name_of_bindingOf hd).symm.trans (Binding.sameDefinition_iff.1 hsame).1
    exact ⟨s, ⟨⟨hs, hout⟩, hname, d, hd, hsame⟩, rfl⟩

/-- Bindings with one definition have their occurrences in common. -/
theorem occurrencesOf_congr {d : Binding} (h : d.sameDefinition b = true) (mode : Mode) :
    a.occurrencesOf d mode = a.occurrencesOf b mode := by
  simp only [occurrencesOf, (Binding.sameDefinition_iff.1 h).1, Binding.sameDefinition_congr h]

/-- The occurrences of a binding keep apart as the symbols do. -/
theorem separated_occurrencesOf (hsymbols : a.symbols = a.source.symbols) (b : Binding)
    (mode : Mode) : SpanSet.Separated (a.occurrencesOf b mode) where
  proper r hr := by
    obtain ⟨s, hs, rfl, -⟩ := mem_occurrencesOf.1 hr
    exact Source.start_lt_stop_of_mem_symbols (hsymbols ▸ hs)
  apart := by
    rw [occurrencesOf, List.pairwise_map, occurrences, hsymbols]
    exact (a.source.pairwise_symbols.filter _).filter _

private theorem references_of_targetAt (h : a.targetAt offset = some (s, b))
    (withDefinition : Bool) :
    a.references offset withDefinition =
      (a.occurrencesOf b a.settings.lookup).filter fun r => withDefinition || r != b.site := by
  rw [references, h]

end Target

end Analysis

/-! ## What a mode leaves out -/

/-- What a mode leaves out lies in stretches that leave gaps. -/
theorem Layout.Sound.separated_excluded {layout : Layout} {source : List UInt8}
    (h : layout.Sound source) (hclean : Clean source) (mode : Mode) :
    SpanSet.Separated (layout.excluded mode).spans := by
  have hdata : SpanSet.Separated (layout.dataOf mode.counts).spans :=
    SpanSet.separated_ofList fun s hs => (h.finish_layers hclean mode.counts s hs).ordered
  have hnotes : SpanSet.Separated layout.commentsAndStrings.spans :=
    SpanSet.separated_ofList (List.forall_mem_append.2
      ⟨fun s hs => (h.comments s hs).ordered, fun s hs => (h.strings s hs).ordered⟩)
  unfold Layout.excluded
  simp only
  split
  · exact (SpanSet.represents_union hdata hnotes).separated
  · exact hdata

/-- References do not depend on the occurrence from which they are looked for: in every document and
under all settings, at every offset that has a definition. -/
theorem Analysis.referencesAgree_analyze (settings : Settings) (text : String) {offset : Nat}
    {site : Span} (h : (analyze settings text).definition offset = some site) :
    (analyze settings text).ReferencesAgree offset site := by
  have hsource : (analyze settings text).source = .ofText text := by rw [analyze_eq]
  have hsymbols : (analyze settings text).symbols = (analyze settings text).source.symbols := by
    rw [analyze_eq]
  have hsrc : (analyze settings text).source.Sound := hsource ▸ Source.sound_ofText text
  generalize analyze settings text = a at h hsource hsymbols hsrc ⊢
  obtain ⟨⟨s, b⟩, htarget, rfl⟩ := Option.map_eq_some_iff.1 h
  have hreferences := references_of_targetAt htarget
  have hall : a.references offset true = a.occurrencesOf b a.settings.lookup := by
    simp [hreferences]
  obtain ⟨hs, hout, hb⟩ := targetAt_eq_some_iff.1 htarget
  -- From each reference a binding with the same definition is found.
  have hback : ∀ r ∈ a.references offset true, ∃ t d, a.targetAt r.start = some (t, d) ∧
      d.sameDefinition b = true := by
    intro r hr
    obtain ⟨t, ht, rfl, hout, d, hd, hsame⟩ := mem_occurrencesOf.1 (hall ▸ hr)
    exact ⟨t, d, targetAt_eq_some_iff.2 ⟨symbolAt_start hsymbols ht, hout, hd⟩, hsame⟩
  have hapart := separated_occurrencesOf hsymbols b a.settings.lookup
  constructor
  case cursor =>
    refine ⟨s, hs, hall ▸ mem_occurrencesOf.2 ?_⟩
    exact ⟨s, mem_symbols_of_symbolAt hs, rfl, hout, b, hb, b.sameDefinition_self⟩
  case definition =>
    intro r hr
    obtain ⟨t, d, htarget', hsame⟩ := hback r hr
    rw [Analysis.definition, htarget', Option.map_some, (Binding.sameDefinition_iff.1 hsame).2.1]
  case references =>
    intro r hr withDefinition
    obtain ⟨t, d, htarget', hsame⟩ := hback r hr
    rw [references_of_targetAt htarget', hreferences, occurrencesOf_congr hsame,
      (Binding.sameDefinition_iff.1 hsame).2.1]
  case withoutDefinition =>
    rw [hall, hreferences]
    simp
  case apart =>
    intro withDefinition
    rw [hreferences]
    exact ⟨fun r hr => hapart.proper r (List.mem_filter.1 hr).1, hapart.apart.filter _⟩
  case outside =>
    intro withDefinition r hr p hp
    rw [hreferences] at hr
    have hmem := (List.mem_filter.1 hr).1
    obtain ⟨t, ht, rfl, hout, -⟩ := mem_occurrencesOf.1 hmem
    have hexcluded := hsrc.layout.separated_excluded hsrc.clean a.settings.lookup
    rw [Bool.eq_false_iff]
    intro hcontains
    have hmeets : (a.excluded a.settings.lookup).meets t.span = true :=
      (SpanSet.meets_iff hexcluded (Source.start_lt_stop_of_mem_symbols (hsymbols ▸ ht))).2
        ⟨p, (SpanSet.contains_iff_mem_offsets hexcluded).1 hcontains, hp⟩
    rw [hout] at hmeets
    cases hmeets

private theorem shows_let (mode : Mode) : (Source.ofText "(let ((x 1)) x)").Shows mode
    [(⟨⟨0, 14⟩, .letLike false .localVariable⟩, [.binding .anonymousVariable
      (.lexical "x" ⟨7, 8⟩ .localVariable "let" ⟨12, 14⟩ ⟨0, 15⟩)])]
    [⟨"let", ⟨1, 4⟩⟩, ⟨"x", ⟨7, 8⟩⟩, ⟨"x", ⟨13, 14⟩⟩] where
  nothing := by cases mode <;> cbv
  all := by
    rw [BindingForm.all_eq, (by cbv : BindingForm.words _ _ = [(⟨0, 14⟩, "let"), (⟨6, 10⟩, "x")])]
    rfl
  entries := by
    have hkeyword : keywordOf "let" = "let" := by decide
    rw [List.forall_mem_singleton,
      BindingForm.entries_letLike (by cbv : BindingForm.word? _ _ = some "let"), hkeyword]
    cbv
  quoted := by cbv
  symbols_eq := by cbv

/-- The law applies to a variable, with the cursor right behind it. -/
theorem Analysis.referencesAgree_analyze_let :
    (analyze {} "(let ((x 1)) x)").definition 14 = some ⟨7, 8⟩ ∧
      (analyze {} "(let ((x 1)) x)").ReferencesAgree 14 ⟨7, 8⟩ := by
  have hdefinition : (analyze {} "(let ((x 1)) x)").definition 14 = some ⟨7, 8⟩ := by
    have hshows := shows_let
    generalize "(let ((x 1)) x)" = text at *
    have htable (mode : Mode) : Table.ofSource (.ofText text) mode =
        { anonymousVariables := [.lexical "x" ⟨7, 8⟩ .localVariable "let" ⟨12, 14⟩ ⟨0, 15⟩] } := by
      rw [(hshows mode).table_eq]
      rfl
    simp only [analyze_eq, htable, (hshows .nothing).symbols_eq, Analysis.definition,
      Analysis.targetAt, Analysis.symbolAt, Analysis.excluded, (hshows _).nothing,
      Analysis.bindingOf, Analysis.resolve, (hshows .nothing).quoted]
    cbv
  exact ⟨hdefinition, referencesAgree_analyze {} _ hdefinition⟩

end LexScope
