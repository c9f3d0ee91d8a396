import LexScope.Proofs.Binding.Bounds

/-!
# Every span of an analysis can be cut out of the text

Whatever the text, and whatever the settings, each span that an analysis records or works with is in
order, ends no later than the text, and cuts no character. Brackets without a partner, strings and
comments that are never closed, and escapes at the end of the text are no exception.
-/

namespace LexScope

open Utf8

/-- The predicate is true of every span that the analysis records or works with. -/
structure Analysis.EverySpan (a : Analysis) (P : Span → Prop) : Prop where
  /-- Forms, with their brackets and without them. -/
  pairs : ∀ p ∈ a.source.layout.pairs.pairs, P p.span ∧ P p.inner
  /-- Comments. -/
  comments : ∀ s ∈ a.source.layout.comments.spans, P s
  /-- Strings. -/
  strings : ∀ s ∈ a.source.layout.strings.spans, P s
  /-- Quotes, templates and commas before forms and before atoms. -/
  markers : ∀ m, (∀ s ∈ (a.source.layout.markers m).forms, P s) ∧
    ∀ s ∈ (a.source.layout.markers m).atoms, P s
  /-- What is not evaluated in place. -/
  quotedContext : ∀ s ∈ a.source.layout.quotedContext.spans, P s
  /-- What a mode leaves out. -/
  excluded : ∀ mode, ∀ s ∈ (a.excluded mode).spans, P s
  /-- The elements of every form, with the markers before them and without them. -/
  elements : ∀ p ∈ a.source.layout.pairs.pairs, ∀ e ∈ a.source.elements p,
    P e.span ∧ P ⟨e.start, e.span.stop⟩
  /-- Words, whether they are symbols or not. -/
  words : ∀ word ∈ a.source.words, P word.1
  /-- Symbols. -/
  symbols : ∀ s ∈ a.symbols, P s.span
  /-- The parameters of every lambda list, up to where they become visible. -/
  parameters : ∀ opening destructuring parameters,
    LambdaList.parse a.source opening destructuring = some parameters →
      ∀ p ∈ parameters, P p.site ∧ P (.point p.visibleFrom)
  /-- Bindings. -/
  bindings : ∀ b ∈ a.table.toList,
    P b.site ∧ P b.form ∧ (∀ s ∈ b.scope, P s) ∧ ∀ s ∈ b.stepWindow, P s
  /-- Step forms of `do` variables. -/
  steps : ∀ s ∈ a.table.steps, P s

private theorem Analysis.EverySpan.mono {a : Analysis} {P Q : Span → Prop} (h : a.EverySpan P)
    (hPQ : ∀ s, P s → Q s) : a.EverySpan Q where
  pairs p hp := (h.pairs p hp).imp (hPQ _) (hPQ _)
  comments s hs := hPQ s (h.comments s hs)
  strings s hs := hPQ s (h.strings s hs)
  markers m := (h.markers m).imp (fun hm s hs => hPQ s (hm s hs)) fun hm s hs => hPQ s (hm s hs)
  quotedContext s hs := hPQ s (h.quotedContext s hs)
  excluded mode s hs := hPQ s (h.excluded mode s hs)
  elements p hp e he := (h.elements p hp e he).imp (hPQ _) (hPQ _)
  words word hword := hPQ _ (h.words word hword)
  symbols s hs := hPQ _ (h.symbols s hs)
  parameters opening destructuring ps hps p hp :=
    (h.parameters opening destructuring ps hps p hp).imp (hPQ _) (hPQ _)
  bindings b hb := by
    obtain ⟨hsite, hform, hscope, hwindow⟩ := h.bindings b hb
    exact ⟨hPQ _ hsite, hPQ _ hform, fun s hs => hPQ s (hscope s hs),
      fun s hs => hPQ s (hwindow s hs)⟩
  steps s hs := hPQ s (h.steps s hs)

/-- The spans of an analysis fit the bytes of its text. -/
theorem Analysis.everySpan_fits (settings : Settings) (text : String) :
    (analyze settings text).EverySpan (Fits (bytes text)) := by
  have hsrc := Source.sound_ofText text
  have htable := Table.sound_ofSource hsrc settings.collection
  rw [analyze_eq]
  exact
    { pairs := fun p hp =>
        ⟨(hsrc.layout.pairs p hp).fits_span hsrc.clean,
          (hsrc.layout.pairs p hp).fits_inner hsrc.clean⟩
      comments := hsrc.layout.comments
      strings := hsrc.layout.strings
      markers := fun m =>
        ⟨fun s hs => hsrc.layout.markers m s (List.mem_append_left _ hs),
          fun s hs => hsrc.layout.markers m s (List.mem_append_right _ hs)⟩
      quotedContext := hsrc.layout.dataOf hsrc.clean _
      excluded := hsrc.layout.excluded hsrc.clean
      elements := fun p hp e he => by
        have hsits := hsrc.layout.pairs p hp
        have hsound := sound_of_mem_elementsBetween hsrc.clean hsrc.layout
          (hsits.boundary_inside hsrc.clean) hsits.boundary_closing he
        exact ⟨hsound.span, hsound.outer⟩
      words := fun word hword => by
        rw [← cut?_isSome_iff]
        exact Option.isSome_of_mem (hsrc.words word hword)
      symbols := hsrc.symbols
      parameters := fun opening destructuring ps hps p hp => by
        have hsound := LambdaList.sound_parse hsrc hps p hp
        exact ⟨hsound.site, fits_point hsound.visibleFrom⟩
      bindings := fun b hb => by
        obtain ⟨c, -, hb⟩ := List.mem_flatMap.1 hb
        have hsound := htable.bindings c b hb
        exact ⟨hsound.site, hsound.form, hsound.scope, hsound.stepWindow⟩
      steps := htable.steps }

/-- For every text and all settings, each span of the analysis is in order, stays inside the text,
starts and ends at positions of characters, and can be cut out of the text. -/
theorem Analysis.everySpan_analyze (settings : Settings) (text : String) :
    (analyze settings text).EverySpan fun s =>
      s.start ≤ s.stop ∧ s.stop ≤ text.utf8ByteSize ∧
        String.Pos.Raw.IsValid text ⟨s.start⟩ ∧ String.Pos.Raw.IsValid text ⟨s.stop⟩ ∧
        (cut? (bytes text) s).isSome = true := by
  refine (Analysis.everySpan_fits settings text).mono ?_
  intro s hs
  have hlength : (bytes text).length = text.utf8ByteSize := by
    rw [bytes, length_encode, String.ofList_toList]
  refine ⟨hs.ordered, ?_, hs.start.isValid, hs.stop.isValid, cut?_isSome_iff.2 hs⟩
  rw [← hlength]
  exact hs.stop_le_length

end LexScope
