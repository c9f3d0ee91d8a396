import LexScope.Proofs.Binding.Sites
import LexScope.Proofs.Form.Overlap
import Mathlib

/-!
# What a name resolves to

The rules by which a name is resolved are stated over the entries that were added to a table,
without the table and without the search: a binding that is written there comes first, then the
scope that starts last, then in a step form of `do` the window that starts last, and then the global
definition. A table resolves every name by these rules. In an analysed document a symbol therefore
resolves to a local binding only where that binding can be seen. And it belongs to what it resolves
to: where no scope holds it, a local binding of its name could only hide it by being written over
it, and then it is written at the same place.
-/

namespace LexScope

/-! ## The rules -/

namespace Table

/-- What a name that is written at a place resolves to, after some entries were added. -/
inductive Resolves (log : List Entry) (name : String) (site : Span) :
    Option Nat → Resolution → Prop where
  /-- Without a position it is global, and all local bindings may shadow it. -/
  | unplaced :
    Resolves log name site none ⟨addedGlobal log name, addedLocals log name⟩
  /-- The first local binding that is written there. -/
  | definition {position : Nat} {b : Binding} {before after : List Binding}
    (hsplit : addedLocals log name = before ++ b :: after) (hsite : b.site = site)
    (hfirst : ∀ d ∈ before, d.site ≠ site) :
    Resolves log name site (some position) ⟨some b, []⟩
  /-- If none is written there, the one whose scope contains the position and starts last. -/
  | innermost {position : Nat} {b : Binding}
    (hsites : ∀ d ∈ addedLocals log name, d.site ≠ site)
    (hlast : StartsLast Binding.scope (·.touches position) (addedLocals log name) b) :
    Resolves log name site (some position) ⟨some b, []⟩
  /-- If no scope contains the position and it lies in a step form, the variable of `do` whose
  window contains it and starts last. -/
  | stepForm {position : Nat} {b : Binding}
    (hsites : ∀ d ∈ addedLocals log name, d.site ≠ site)
    (hscopes : ∀ d ∈ addedLocals log name, ∀ q ∈ d.scope, q.touches position = false)
    (hinside : InAddedStep log position)
    (hlast : StartsLast Binding.doWindow (·.contains position) (addedLocals log name) b) :
    Resolves log name site (some position) ⟨some b, []⟩
  /-- Otherwise it is global, and all local bindings may shadow it. -/
  | global {position : Nat}
    (hsites : ∀ d ∈ addedLocals log name, d.site ≠ site)
    (hscopes : ∀ d ∈ addedLocals log name, ∀ q ∈ d.scope, q.touches position = false)
    (hwindows : InAddedStep log position →
      ∀ d ∈ addedLocals log name, ∀ q ∈ d.doWindow, q.contains position = false) :
    Resolves log name site (some position) ⟨addedGlobal log name, addedLocals log name⟩

/-! ## The table follows the rules -/

section Added

variable {log : List Entry} (hlog : ∀ s, .stepForm s ∈ log → s.start ≤ s.stop) {name : String}
  {site : Span}

include hlog

/-- A table that was filled with some entries resolves every name by the rules. -/
theorem resolves_resolve (position : Option Nat) :
    Resolves log name site position ((log.foldl add {}).resolve name site position) := by
  cases position with
  | none =>
    rw [resolve, locals_foldl_add, global_foldl_add]
    exact .unplaced
  | some position =>
    rw [resolve]
    simp only [locals_foldl_add, global_foldl_add]
    split
    · next b hfind =>
      obtain ⟨hsite, before, after, hsplit, hfirst⟩ := find?_site_eq_some_iff.1 hfind
      exact .definition hsplit hsite hfirst
    · next hfind =>
      have hsites := find?_site_eq_none_iff.1 hfind
      split
      · next b hlast => exact .innermost hsites (innermost_eq_some_iff.1 hlast)
      · next hnone =>
        have hscopes := innermost_eq_none_iff.1 hnone
        split
        · next b hstep =>
          obtain ⟨hinside, hlast⟩ := stepVariable_eq_some_iff.1 hstep
          exact .stepForm hsites hscopes ((stepForms_foldl_add hlog).1 hinside) hlast
        · next hstep =>
          refine .global hsites hscopes fun hinside => ?_
          exact stepVariable_eq_none_iff.1 hstep ((stepForms_foldl_add hlog).2 hinside)

/-- The rules leave no choice. -/
theorem Resolves.resolve_eq {position : Option Nat} {r : Resolution}
    (h : Resolves log name site position r) :
    (log.foldl add {}).resolve name site position = r := by
  cases h with
  | unplaced => rw [resolve, locals_foldl_add, global_foldl_add]
  | definition hsplit hsite hfirst =>
    have hfind := find?_site_eq_some_iff.2 ⟨hsite, _, _, hsplit, hfirst⟩
    rw [resolve]
    simp only [locals_foldl_add, hfind]
    rfl
  | innermost hsites hlast =>
    have hfind := find?_site_eq_none_iff.2 hsites
    rw [resolve]
    simp only [locals_foldl_add, hfind, innermost_eq_some_iff.2 hlast]
    rfl
  | stepForm hsites hscopes hinside hlast =>
    have hfind := find?_site_eq_none_iff.2 hsites
    have hstep := stepVariable_eq_some_iff.2 ⟨(stepForms_foldl_add hlog).2 hinside, hlast⟩
    rw [resolve]
    simp only [locals_foldl_add, hfind, innermost_eq_none_iff.2 hscopes, hstep]
    rfl
  | global hsites hscopes hwindows =>
    have hfind := find?_site_eq_none_iff.2 hsites
    have hstep := stepVariable_eq_none_iff.2
      fun hinside => hwindows ((stepForms_foldl_add hlog).1 hinside)
    rw [resolve]
    simp only [locals_foldl_add, global_foldl_add, hfind, innermost_eq_none_iff.2 hscopes, hstep]

end Added

end Table

/-! ## Symbols of a document -/

section Document

variable {src : Source} {mode : Mode} {name : String} {b : Binding}

private theorem Table.ordered_stepForm (hsrc : src.Sound) :
    ∀ s, .stepForm s ∈ found src mode → s.start ≤ s.stop := by
  intro s hs
  obtain ⟨-, f, hf, he⟩ := mem_found.1 hs
  exact (BindingForm.sound_entries hsrc (BindingForm.pair_mem_of_mem_all hf) _ he).ordered

/-- The names of a document are resolved by the rules. -/
theorem Table.resolves_ofSource (hsrc : src.Sound) (mode : Mode) (name : String) (site : Span)
    (position : Option Nat) :
    Resolves (found src mode) name site position
      ((Table.ofSource src mode).resolve name site position) := by
  rw [ofSource_eq]
  exact resolves_resolve (ordered_stepForm hsrc) position

private theorem Table.mem_addedLocals :
    b ∈ addedLocals (found src mode) name ↔ b ∈ (Table.ofSource src mode).locals name := by
  rw [ofSource_eq, locals_foldl_add]

private theorem Table.isGlobal_of_addedGlobal (hsrc : src.Nests)
    (h : addedGlobal (found src mode) name = some b) : b.isGlobal = true := by
  rw [← global_foldl_add, ← ofSource_eq] at h
  have hmem : b ∈ (Table.ofSource src mode).get .globalDefinition :=
    (List.mem_filter.1 (List.mem_of_getLast? h)).1
  have hscope := ((regular_ofSource hsrc mode).bindings _ b hmem).global rfl
  rw [Binding.isGlobal, hscope.1]
  rfl

/-- Where block comments stand apart, a local binding that is written over a symbol with its name is
written exactly there. -/
theorem Table.site_eq_of_meets {text : String} (hapart : CommentsApart (Utf8.bytes text))
    {s : Symbol} (hs : s ∈ (Source.ofText text).symbols)
    (hb : b ∈ (Table.ofSource (.ofText text) mode).locals s.name)
    (hmeets : b.site.meets s.span = true) : b.site = s.span := by
  have hsite := atAtom_of_mem_locals (Source.nests_ofText text) hb
  obtain ⟨p, hp, e, he, hatom, hspan⟩ := hsite.atom
  obtain ⟨hname, -, c, -, f, hf, hentry⟩ := mem_locals_ofSource.1 hb
  have hsound := BindingForm.sound_entries (Source.sound_ofText text)
    (BindingForm.pair_mem_of_mem_all hf) _ hentry
  have hat := Source.atomAt_of_mem_elements hapart hp he hatom
  rw [hspan] at hat
  exact Source.span_eq_of_meets hapart hs hat hsound.site (hname ▸ hsite.name) hmeets

end Document

namespace Analysis

/-- A symbol that is evaluated belongs to the binding that it resolves to. -/
def BelongsAsResolved (a : Analysis) : Prop :=
  ∀ s ∈ a.symbols, a.source.layout.quotedContext.contains s.span.start = false →
    a.bindingOf s = (a.resolve s).binding

/-- Where the symbols of a document have their bindings from. -/
structure ResolvesByScope (a : Analysis) : Prop where
  /-- A symbol that is not evaluated resolves to no local binding. -/
  quoted : ∀ s ∈ a.symbols, a.source.layout.quotedContext.contains s.span.start = true →
    ∀ b, (a.resolve s).binding = some b → b.isGlobal = true
  /-- One that is evaluated resolves to a local binding only in its scope, where it is written, and
  in its window. -/
  placed : ∀ s ∈ a.symbols, a.source.layout.quotedContext.contains s.span.start = false →
    ∀ b, (a.resolve s).binding = some b → b.isGlobal = false →
      b.isVisibleAt s.span.start = true ∨ b.site = s.span ∨
        ∃ w, b.stepWindow = some w ∧ w.contains s.span.start = true
  /-- And it belongs to what it resolves to, if block comments stand apart. -/
  belongs : CommentsApart a.source.bytes → a.BelongsAsResolved

private theorem bindingOf_of_not_shadowed {a : Analysis} {s : Symbol}
    (h : isShadowed s.span (a.resolve s).shadow = false) :
    a.bindingOf s = (a.resolve s).binding := by
  rw [bindingOf]
  simp only [h, Bool.false_eq_true, if_false]

private theorem resolvesByScope_analyze (settings : Settings) (text : String) :
    (analyze settings text).ResolvesByScope := by
  have hnests := Source.nests_ofText text
  have hresolves (s : Symbol) (position : Option Nat) :=
    Table.resolves_ofSource hnests.toSound settings.collection s.name s.span position
  have hglobal {name : String} {b : Binding}
      (h : Table.addedGlobal (Table.found (.ofText text) settings.collection) name = some b) :
      b.isGlobal = true :=
    Table.isGlobal_of_addedGlobal hnests h
  rw [analyze_eq]
  constructor
  case quoted =>
    intro s _ hquoted b hb
    have h := hresolves s none
    rw [resolve_of_quoted hquoted] at hb
    generalize Table.resolve _ _ _ _ = r at h hb
    cases h with
    | unplaced => exact hglobal hb
  case placed =>
    intro s _ hquoted b hb hlocal
    have h := hresolves s (some s.span.start)
    rw [resolve_of_evaluated hquoted] at hb
    generalize Table.resolve _ _ _ _ = r at h hb
    cases h with
    | definition _ hsite =>
      cases hb
      exact .inr (.inl hsite)
    | innermost _ hlast =>
      cases hb
      obtain ⟨_, _, r, -, hr, htouches, -⟩ := hlast
      exact .inl (by simpa [Binding.isVisibleAt, hr] using htouches)
    | stepForm _ _ _ hlast =>
      cases hb
      obtain ⟨_, _, w, -, hw, hcontains, -⟩ := hlast
      exact .inr (.inr ⟨w, (Binding.doWindow_eq_some_iff.1 hw).2, hcontains⟩)
    | global =>
      rw [hglobal hb] at hlocal
      cases hlocal
  case belongs =>
    intro hapart s hs hquoted
    have h := hresolves s (some s.span.start)
    apply bindingOf_of_not_shadowed
    rw [resolve_of_evaluated hquoted]
    generalize Table.resolve _ _ _ _ = r at h
    cases h with
    | definition | innermost | stepForm => rfl
    | global hsites hscopes =>
      rw [isShadowed, List.any_eq_false]
      intro b hb
      have hmem := Table.mem_addedLocals.1 hb
      have hhidden : b.isVisibleAt s.span.start = false := by
        rw [Binding.isVisibleAt, Option.any_eq_false]
        exact hscopes b hb
      have hclear : b.site.meets s.span = false := by
        rw [Bool.eq_false_iff]
        exact fun hmeets => hsites b hb (Table.site_eq_of_meets hapart hs hmem hmeets)
      simp [hhidden, hclear]

/-- A table that was filled with some entries resolves every name by the rules, which leave no
choice, and the symbols of every analysed document have their bindings by scope. -/
theorem resolver_follows_rules {log : List Entry}
    (hlog : ∀ s, .stepForm s ∈ log → s.start ≤ s.stop) (settings : Settings) (text : String) :
    (∀ name site position r, (log.foldl Table.add {}).resolve name site position = r ↔
      Table.Resolves log name site position r) ∧ (analyze settings text).ResolvesByScope := by
  refine ⟨fun name site position r => ⟨?_, Table.Resolves.resolve_eq hlog⟩,
    resolvesByScope_analyze settings text⟩
  rintro rfl
  exact Table.resolves_resolve hlog position

/-- The rules apply to a table with a global variable, a variable of `do` and its step form, and the
symbols of a document with a block comment belong to what they resolve to. -/
theorem resolver_follows_rules_do :
    (∃ log : List Entry, .stepForm ⟨24, 25⟩ ∈ log ∧ (∀ s, .stepForm s ∈ log → s.start ≤ s.stop) ∧
      ∀ name site position r, (log.foldl Table.add {}).resolve name site position = r ↔
        Table.Resolves log name site position r) ∧
      CommentsApart (Utf8.bytes "(do ((x 1 x)) #| x |# (x))") ∧
      (analyze {} "(do ((x 1 x)) #| x |# (x))").BelongsAsResolved := by
  let log : List Entry :=
    [.binding .globalDefinition (.global "x" ⟨8, 9⟩ .specialVariable ⟨0, 12⟩), .stepForm ⟨24, 25⟩,
      .binding .anonymousVariable
        { Binding.lexical "x" ⟨20, 21⟩ .localVariable "do" ⟨27, 30⟩ ⟨13, 31⟩ with
          stepWindow := some ⟨18, 27⟩ }]
  have hlog : ∀ s, .stepForm s ∈ log → s.start ≤ s.stop := by simp [log]
  have hapart : CommentsApart (Utf8.bytes "(do ((x 1 x)) #| x |# (x))") := by decide +kernel
  obtain ⟨hrules, hscope⟩ := resolver_follows_rules hlog {} "(do ((x 1 x)) #| x |# (x))"
  refine ⟨⟨log, by simp [log], hlog, hrules⟩, hapart, hscope.belongs ?_⟩
  rw [analyze_eq]
  exact hapart

private theorem shows_glued :
    (Source.ofText "(defvar | \" |) (let (a#|\\|#\"| | \" | \" |) 1)").Shows .nothing
    [(⟨⟨0, 13⟩, .global .specialVariable⟩,
        [.binding .globalDefinition (.global "| \" |" ⟨8, 13⟩ .specialVariable ⟨0, 14⟩)]),
      (⟨⟨15, 42⟩, .letLike false .localVariable⟩,
        [.binding .anonymousVariable
          (.lexical "a#|\\|#\"|" ⟨21, 29⟩ .localVariable "let" ⟨40, 42⟩ ⟨15, 43⟩),
        .binding .anonymousVariable
          (.lexical "| \" |" ⟨30, 35⟩ .localVariable "let" ⟨40, 42⟩ ⟨15, 43⟩)])]
    [⟨"defvar", ⟨1, 7⟩⟩, ⟨"| \" |", ⟨8, 13⟩⟩, ⟨"let", ⟨16, 19⟩⟩, ⟨"a#|\\|#\"|", ⟨21, 29⟩⟩,
      ⟨"| \" |", ⟨34, 39⟩⟩] where
  nothing := by cbv
  all := by
    rw [BindingForm.all_eq, (by cbv : BindingForm.words _ _ =
      [(⟨0, 13⟩, "defvar"), (⟨15, 42⟩, "let"), (⟨20, 39⟩, "a#|\\|#\"|")])]
    rfl
  entries := by
    have hkeyword : keywordOf "let" = "let" := by decide
    rw [List.forall_mem_cons, List.forall_mem_singleton,
      BindingForm.entries_global (by cbv : BindingForm.word? _ ⟨0, 13⟩ = some "defvar"),
      BindingForm.entries_letLike (by cbv : BindingForm.word? _ ⟨15, 42⟩ = some "let"), hkeyword]
    constructor <;> cbv
  quoted := by cbv
  symbols_eq := by cbv

/-- An atom that takes a block comment for a part of itself may end inside a string. The name after
it then starts in the string too and is written over another symbol with the same name. -/
theorem not_belongsAsResolved_glued :
    ¬(analyze { collection := .nothing }
      "(defvar | \" |) (let (a#|\\|#\"| | \" | \" |) 1)").BelongsAsResolved := by
  have hshows := shows_glued
  generalize "(defvar | \" |) (let (a#|\\|#\"| | \" | \" |) 1)" = text at *
  have htable : Table.ofSource (.ofText text) .nothing =
      { globalDefinitions := [.global "| \" |" ⟨8, 13⟩ .specialVariable ⟨0, 14⟩]
        anonymousVariables :=
          [.lexical "a#|\\|#\"|" ⟨21, 29⟩ .localVariable "let" ⟨40, 42⟩ ⟨15, 43⟩,
            .lexical "| \" |" ⟨30, 35⟩ .localVariable "let" ⟨40, 42⟩ ⟨15, 43⟩] } := by
    rw [hshows.table_eq]
    rfl
  have hbelongs : (analyze { collection := .nothing } text).bindingOf ⟨"| \" |", ⟨34, 39⟩⟩ =
      none := by
    simp only [analyze_eq, htable, bindingOf, resolve, hshows.quoted]
    cbv
  have hresolve : ((analyze { collection := .nothing } text).resolve ⟨"| \" |", ⟨34, 39⟩⟩).binding =
      some (.global "| \" |" ⟨8, 13⟩ .specialVariable ⟨0, 14⟩) := by
    simp only [analyze_eq, htable, resolve, hshows.quoted]
    cbv
  intro h
  rw [h ⟨"| \" |", ⟨34, 39⟩⟩ (by simp [analyze_eq, hshows.symbols_eq])
    (by rw [analyze_eq, hshows.quoted]; rfl), hresolve] at hbelongs
  cases hbelongs

end Analysis

end LexScope
