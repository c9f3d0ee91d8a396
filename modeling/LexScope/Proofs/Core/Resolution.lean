import LexScope.Proofs.Core.Collect
import LexScope.Proofs.Core.Simulation
import LexScope.Proofs.Core.Symbols
import Mathlib.Data.List.Basic

/-!
# Resolution of programs

The table of a program holds its global definitions and its local bindings, and searching it gives
each name the binder that the environments give it. The two searches differ: one goes through all
bindings of the document that have the right name, collection by collection, for the scope that
starts last, and the other goes outwards through the forms around the name.
-/

namespace LexScope

/-! ## The table of a program -/

/-- What resolution sees of a binding. -/
def Binding.view (b : Binding) : NameSite × Option Span := (⟨b.name, b.site⟩, b.scope)

/-- The binding that is seen in a collection. -/
def View.binding? (c : Collection) : View → Option (NameSite × Option Span)
  | binding d n scope => if d = c then some (n, scope) else none
  | step => none

private theorem View.binding?_view (c : Collection) (e : Entry) :
    e.view.binding? c = (e.binding? c).map Binding.view := by
  cases e with
  | binding d b =>
    rw [Entry.view, View.binding?, Entry.binding?]
    split <;> rfl
  | stepForm s => rfl

private theorem View.category_of_binding? {c : Collection} {v : View}
    (h : (v.binding? c).isSome = true) :
    v.category = c.category := by
  cases v with
  | binding d n scope =>
    rw [View.binding?] at h
    split at h
    · rename_i hd
      rw [View.category, hd]
    · cases h
  | step => cases h

/-- A collection is filled in one pass. -/
theorem View.filterMap_category (c : Collection) (k : Category) (views : List View) :
    (views.filter (·.category == k)).filterMap (View.binding? c) =
      if k = c.category then views.filterMap (View.binding? c) else [] := by
  induction views with
  | nil => simp
  | cons v rest ih =>
    cases hv : v.binding? c with
    | none => by_cases hk : v.category = k <;> simp [hk, hv, ih]
    | some b =>
      have hcategory : v.category = c.category :=
        category_of_binding? (by rw [hv, Option.isSome_some])
      by_cases hk : k = c.category
      · rw [if_pos hk] at ih ⊢
        simp [hv, hk ▸ hcategory, ih]
      · simp [hk, hcategory, Ne.symm hk, ih]

private theorem View.flatMap_category (c : Collection) (views : List View) :
    (Category.all.flatMap fun k => views.filter (·.category == k)).filterMap (View.binding? c) =
      views.filterMap (View.binding? c) := by
  rw [List.filterMap_flatMap]
  simp only [filterMap_category]
  cases c <;> simp [Category.all, Collection.category]

/-- A collection of a table shows the entries that were added to it. -/
theorem Table.map_view_get (entries : List Entry) (c : Collection) :
    ((entries.foldl Table.add {}).get c).map Binding.view =
      (entries.map Entry.view).filterMap (View.binding? c) := by
  have hempty : ({} : Table).get c = [] := by
    cases c <;> rfl
  rw [get_foldl_add, hempty, List.nil_append, List.map_filterMap, List.filterMap_map]
  congr 1
  funext e
  exact (View.binding?_view c e).symm

private theorem Table.steps_eq_nil {entries : List Entry} (h : View.step ∉ entries.map Entry.view) :
    (entries.foldl Table.add {}).steps = [] := by
  rw [steps_foldl_add, List.nil_append, List.filterMap_eq_nil_iff]
  intro e he
  cases e with
  | binding c b => rfl
  | stepForm s => exact absurd (List.mem_map_of_mem he) h

namespace Core

/-- A local binding as it is seen in its collection. -/
def Local.bindingView (l : Local) : NameSite × Option Span := (l.name, some l.scope)

/-- The table shows resolution some local bindings and global definitions, and no step form. -/
structure Shows (t : Table) (ls : List Local) (globals : List NameSite) : Prop where
  /-- The local bindings are kept in their collections. -/
  local_view : ∀ c ∈ Collection.lexical,
    (t.get c).map Binding.view = (ls.filter (·.collection == c)).map Local.bindingView
  /-- The global definitions are kept in order. -/
  global_view : t.globalDefinitions.map Binding.view = globals.map fun n => (n, none)
  /-- There is no step form. -/
  steps : t.steps = []

private theorem Local.filterMap_view (c : Collection) (ls : List Local) :
    (ls.map Local.view).filterMap (View.binding? c) =
      (ls.filter (·.collection == c)).map Local.bindingView := by
  induction ls with
  | nil => rfl
  | cons l rest ih =>
    rw [List.map_cons, List.filterMap_cons, ih, Local.view, View.binding?]
    by_cases hc : l.collection = c <;> simp [hc, Local.bindingView]

/-- What a form of a program adds to a collection of local bindings. -/
theorem Top.filterMap_views {c : Collection} (hc : c ≠ .globalDefinition) (pos : Nat) (t : Top) :
    (t.views pos).filterMap (View.binding? c) =
      ((t.locals pos).filter (·.collection == c)).map Local.bindingView := by
  have hglobal (n : NameSite) : (View.binding .globalDefinition n none).binding? c = none :=
    if_neg (Ne.symm hc)
  cases t with
  | defun f params body =>
    rw [Top.views, Top.locals, List.filterMap_append, List.filterMap_cons, hglobal,
      Local.filterMap_view, Local.filterMap_view, List.filter_append, List.map_append]
  | defvar x value =>
    rw [Top.views, Top.locals, List.filterMap_cons, hglobal, Local.filterMap_view]
  | expr e => exact Local.filterMap_view c _

/-- What a form of a program adds to the global definitions. -/
theorem Top.filterMap_views_global (pos : Nat) (t : Top) :
    (t.views pos).filterMap (View.binding? .globalDefinition) =
      (t.global? pos).toList.map fun n => (n, none) := by
  have hlocal {ls : List Local} (hls : ∀ l ∈ ls, l.collection ≠ .globalDefinition) :
      (ls.map Local.view).filterMap (View.binding? .globalDefinition) = [] := by
    rw [Local.filterMap_view, List.filter_eq_nil_iff.2, List.map_nil]
    intro l hl
    simpa using hls l hl
  cases t with
  | defun f params body =>
    rw [Top.views, List.filterMap_append, List.filterMap_cons, hlocal fun l hl => ?_,
      hlocal fun l => body.collection_ne _]
    · rfl
    · simp [(bounds_of_mem_parameters hl).1]
  | defvar x value =>
    rw [Top.views, List.filterMap_cons, hlocal fun l => value.collection_ne _]
    rfl
  | expr e => exact hlocal fun l => e.collection_ne _

/-- No form of the language has a step form. -/
theorem Top.step_notMem_views (pos : Nat) (t : Top) : View.step ∉ t.views pos := by
  have hlocal (ls : List Local) : View.step ∉ ls.map Local.view := by
    rw [List.mem_map]
    rintro ⟨l, -, hl⟩
    cases hl
  cases t with
  | defun f params body =>
    rw [Top.views, List.mem_append, List.mem_cons]
    rintro (h | h | h)
    · exact hlocal _ h
    · cases h
    · exact hlocal _ h
  | defvar x value =>
    rw [Top.views, List.mem_cons]
    rintro (h | h)
    · cases h
    · exact hlocal _ h
  | expr e => exact hlocal _

/-- What the passes over a program add to the table, pass by pass. -/
theorem Program.views_entries (p : Program) :
    (Category.all.flatMap fun k => (Sexp.document (p.map Top.sexp)).layout.pairs.pairs.flatMap
      ((Sexp.document (p.map Top.sexp)).entriesAt k)).map Entry.view =
        Category.all.flatMap fun k => p.views.filter (·.category == k) := by
  rw [List.map_flatMap, Sexp.pairs_document]
  congr 1
  funext k
  exact Program.found_pairs k 0 p (Sexp.at_document _)

/-- The table of a program holds its local bindings and its global definitions. -/
theorem Program.shows (p : Program) (mode : Mode) :
    Shows (.ofSource (Sexp.document (p.map Top.sexp)) mode) p.locals p.globals := by
  rw [Table.ofSource_eq, Table.found_nothing (Sexp.excluded_document _ mode)]
  have hviews := p.views_entries
  generalize (Category.all.flatMap fun k =>
    (Sexp.document (p.map Top.sexp)).layout.pairs.pairs.flatMap
      ((Sexp.document (p.map Top.sexp)).entriesAt k)) = entries at hviews ⊢
  have hget (c : Collection) : ((entries.foldl Table.add {}).get c).map Binding.view =
      (p.place 0).flatMap fun x => (x.2.views x.1).filterMap (View.binding? c) := by
    rw [Table.map_view_get, hviews, View.flatMap_category, Program.views, List.filterMap_flatMap]
  constructor
  · intro c hc
    have hne : c ≠ .globalDefinition := by
      rintro rfl
      revert hc
      decide
    rw [hget, Program.locals, List.filter_flatMap, List.map_flatMap]
    congr 1
    funext x
    exact x.2.filterMap_views hne x.1
  · refine (hget .globalDefinition).trans ?_
    simp only [Top.filterMap_views_global]
    rw [← List.map_flatMap, Program.globals, List.filterMap_eq_flatMap_toList]
  · refine Table.steps_eq_nil fun hstep => ?_
    rw [hviews] at hstep
    obtain ⟨k, -, hk⟩ := List.mem_flatMap.1 hstep
    obtain ⟨x, -, hx⟩ := List.mem_flatMap.1 (List.mem_filter.1 hk).1
    exact x.2.step_notMem_views x.1 hx

/-! ## Searching the table -/

/-- Local bindings collection by collection, as the table lists them. -/
def grouped (ls : List Local) : List Local :=
  Collection.lexical.flatMap fun c => ls.filter (·.collection == c)

private theorem grouped_filter (q : Local → Bool) (ls : List Local) :
    (grouped ls).filter q = grouped (ls.filter q) := by
  rw [grouped, List.filter_flatMap, grouped]
  simp only [List.filter_filter, Bool.and_comm]

private theorem grouped_congr {a b : List Local}
    (h : ∀ c, a.filter (·.collection == c) = b.filter (·.collection == c)) :
    grouped a = grouped b := by
  rw [grouped, grouped]
  congr 1
  funext c
  exact h c

private theorem mem_lexical {c : Collection} (h : c ≠ .globalDefinition) :
    c ∈ Collection.lexical := by
  cases c <;> first | decide | exact absurd rfl h

/-- Among bindings in order, the last one has the scope that starts last, also when they are listed
collection by collection: only bindings of its own collection can have a scope that starts with
its. -/
theorem lastMaxBy_grouped {ls : List Local} {l : Local} (h : Ordered (ls ++ [l]))
    (hl : l.collection ≠ .globalDefinition) :
    lastMaxBy (·.scope.start) (grouped (ls ++ [l])) = some l := by
  obtain ⟨before, after, hsplit⟩ := List.append_of_mem (mem_lexical hl)
  have hafter : l.collection ∉ after := by
    have hnodup : Collection.lexical.Nodup := by decide
    rw [hsplit] at hnodup
    exact (List.nodup_cons.1 (List.nodup_append.1 hnodup).2.1).1
  have hlast : ∀ b ∈ ls, b.scope.start < l.scope.start ∨
      (b.scope.start = l.scope.start ∧ b.collection = l.collection) := fun b hb =>
    (List.pairwise_append.1 h).2.2 b hb l List.mem_cons_self
  have hle : ∀ b ∈ ls ++ [l], b.scope.start ≤ l.scope.start := by
    intro b hb
    rcases List.mem_append.1 hb with hb | hb
    · have := hlast b hb
      omega
    · exact List.mem_singleton.1 hb ▸ Nat.le_refl _
  have hgrouped : grouped (ls ++ [l]) =
      ((before.flatMap fun c => (ls ++ [l]).filter (·.collection == c)) ++
        ls.filter (·.collection == l.collection)) ++
          l :: after.flatMap fun c => (ls ++ [l]).filter (·.collection == c) := by
    rw [grouped, hsplit, List.flatMap_append, List.flatMap_cons, List.filter_append ls]
    simp
  rw [hgrouped]
  refine lastMaxBy_append_cons (fun b hb => ?_) (fun b hb => ?_)
  · rcases List.mem_append.1 hb with hb | hb
    · obtain ⟨c, -, hb⟩ := List.mem_flatMap.1 hb
      exact hle b (List.mem_filter.1 hb).1
    · exact hle b (List.mem_append_left _ (List.mem_filter.1 hb).1)
  · obtain ⟨c, hc, hb⟩ := List.mem_flatMap.1 hb
    obtain ⟨hmem, hcollection⟩ := List.mem_filter.1 hb
    have hother : b.collection ≠ l.collection := by
      intro heq
      rw [beq_iff_eq, heq] at hcollection
      exact hafter (hcollection ▸ hc)
    rcases List.mem_append.1 hmem with hmem | hmem
    · exact (hlast b hmem).resolve_right fun hsame => hother hsame.2
    · exact absurd (congrArg _ (List.mem_singleton.1 hmem)) hother

/-- A name refers to the last binder of it among those that have come into force last. -/
theorem Env.lookup_extend (ρ : Env) (bound : List NameSite) (name : String) :
    (ρ.extend bound).lookup name =
      ((bound.filter (·.name == name)).getLast?.map (·.site)).or (ρ.lookup name) := by
  rw [Env.lookup, Env.extend, List.find?_append, List.getLast?_filter, Env.lookup]
  cases bound.reverse.find? (·.name == name) <;> rfl

namespace Shows

variable {t : Table} {ls : List Local} {globals : List NameSite} {r : Reference}

private theorem lexicals (h : Shows t ls globals) :
    t.lexicals.map Binding.view = (grouped ls).map Local.bindingView := by
  rw [Table.lexicals, grouped, List.map_flatMap, List.map_flatMap]
  exact List.flatMap_congr h.local_view

/-- The local bindings of a name. -/
theorem locals (h : Shows t ls globals) (name : String) :
    (t.locals name).map Binding.view =
      (grouped (ls.filter (·.name.name == name))).map Local.bindingView := by
  calc (t.locals name).map Binding.view
      = (t.lexicals.map Binding.view).filter (·.1.name == name) := by
        rw [List.filter_map]
        rfl
    _ = ((grouped ls).filter (·.name.name == name)).map Local.bindingView := by
        rw [h.lexicals, List.filter_map]
        rfl
    _ = (grouped (ls.filter (·.name.name == name))).map Local.bindingView := by
        rw [grouped_filter]

/-- The local bindings of a name that are visible at an offset. -/
theorem visible (h : Shows t ls globals) (name : String) (offset : Nat) :
    ((t.locals name).filter (·.isVisibleAt offset)).map Binding.view =
      (grouped (visibleAt offset (ls.filter (·.name.name == name)))).map Local.bindingView := by
  calc ((t.locals name).filter (·.isVisibleAt offset)).map Binding.view
      = ((t.locals name).map Binding.view).filter (·.2.any (·.touches offset)) := by
        rw [List.filter_map]
        rfl
    _ = ((grouped (ls.filter (·.name.name == name))).filter (·.scope.touches offset)).map
          Local.bindingView := by
        rw [h.locals, List.filter_map]
        rfl
    _ = (grouped (visibleAt offset (ls.filter (·.name.name == name)))).map Local.bindingView := by
        rw [grouped_filter, visibleAt]

/-- The innermost binding of a name at an offset. -/
theorem innermost (h : Shows t ls globals) (name : String) (offset : Nat) :
    (Table.innermost (t.locals name) offset).map Binding.view =
      (lastMaxBy (·.scope.start)
        (grouped (visibleAt offset (ls.filter (·.name.name == name))))).map Local.bindingView := by
  rw [Table.innermost]
  refine (lastMaxBy_map (fun v : NameSite × Option Span => (v.2.map (·.start)).getD 0)
    Binding.view _).symm.trans ?_
  rw [h.visible, lastMaxBy_map]
  rfl

/-- The global definition of a name is the one that the environment of the program gives. -/
theorem global (h : Shows t ls globals) (name : String) :
    (t.global name).map (·.site) = (Env.extend [] globals).lookup name := by
  have hview : (t.global name).map Binding.view =
      ((globals.filter (·.name == name)).getLast?).map fun n => (n, none) := by
    calc (t.global name).map Binding.view
        = ((t.globalDefinitions.map Binding.view).filter (·.1.name == name)).getLast? := by
          rw [List.filter_map, List.getLast?_map]
          rfl
      _ = ((globals.filter (·.name == name)).getLast?).map fun n => (n, none) := by
          rw [h.global_view, List.filter_map, List.getLast?_map]
          rfl
  rw [Env.lookup_extend]
  have hsite := congrArg (Option.map fun v : NameSite × Option Span => v.1.site) hview
  rw [Option.map_map, Option.map_map] at hsite
  exact hsite.trans (Option.or_none ..).symm

/-- A local binding of the table is one of the program. -/
theorem exists_local (h : Shows t ls globals) {name : String} {b : Binding}
    (hb : b ∈ t.locals name) : ∃ l ∈ ls, l.name.site = b.site := by
  have hmem : b.view ∈ (t.locals name).map Binding.view := List.mem_map_of_mem hb
  rw [h.locals] at hmem
  obtain ⟨l, hl, hview⟩ := List.mem_map.1 hmem
  obtain ⟨c, -, hc⟩ := List.mem_flatMap.1 hl
  refine ⟨l, (List.mem_filter.1 (List.mem_filter.1 hc).1).1, ?_⟩
  exact congrArg (fun v : NameSite × Option Span => v.1.site) hview

/-- A local binding of the program is one of the table. -/
theorem exists_binding (h : Shows t ls globals) {l : Local} (hl : l ∈ ls)
    (hcollection : l.collection ≠ .globalDefinition) :
    ∃ b ∈ t.locals l.name.name, b.site = l.name.site := by
  have hmem : l ∈ grouped (ls.filter (·.name.name == l.name.name)) := by
    refine List.mem_flatMap.2 ⟨l.collection, mem_lexical hcollection, ?_⟩
    simpa using hl
  have hview := List.mem_map_of_mem (f := Local.bindingView) hmem
  rw [← h.locals] at hview
  obtain ⟨b, hb, heq⟩ := List.mem_map.1 hview
  exact ⟨b, hb, congrArg (fun v : NameSite × Option Span => v.1.site) heq⟩

/-- What is in force at a use is what searching goes through. -/
theorem grouped_visible {seen : List Local} {name : String} {offset : Nat}
    (hseen : ∀ c, (visibleAt offset ls).filter (·.collection == c) =
      seen.filter (·.collection == c)) :
    grouped (visibleAt offset (ls.filter (·.name.name == name))) =
      grouped (seen.filter (·.name.name == name)) := by
  have hcomm : visibleAt offset (ls.filter (·.name.name == name)) =
      (visibleAt offset ls).filter (·.name.name == name) := by
    simp only [visibleAt, List.filter_filter, Bool.and_comm]
  rw [hcomm, ← grouped_filter, ← grouped_filter, grouped_congr hseen]

end Shows

private theorem Apart.meets {s t : Span} (h : Apart s t) : s.meets t = false := by
  have hnot : ¬(s.start < t.stop ∧ t.start < s.stop) := by
    rcases h with h | h <;> omega
  rw [Span.meets, Bool.and_assoc, ← Bool.decide_and, decide_eq_false hnot, Bool.and_false]

private theorem Apart.ne {s t : Span} (h : Apart s t) (ht : t.start < t.stop) : s ≠ t := by
  rintro rfl
  rcases h with h | h <;> omega

section Reference

variable {a : Analysis} {ls : List Local} {globals : List NameSite} {r : Reference}

/-- Where the environment and the scopes agree, so do the environment and the table. -/
theorem site_bindingOf (h : Shows a.table ls globals)
    (hcollection : ∀ l ∈ ls, l.collection ≠ .globalDefinition)
    (hevaluated : a.source.layout.quotedContext.contains r.name.site.start = false)
    (hproper : r.name.site.start < r.name.site.stop)
    (hr : Explained ls (Env.extend [] globals) r) :
    (a.bindingOf r.symbol).map (·.site) = r.binder := by
  cases hr with
  | binder l hl hname hself =>
    obtain ⟨b, hb, hsite⟩ := h.exists_binding hl (hcollection l hl)
    rw [hname] at hb hsite
    rw [Analysis.bindingOf_of_site (s := r.symbol) hevaluated hb hsite, hself]
    rfl
  | use seen hapart hseen hordered hbinder =>
    have hsites : ∀ b ∈ a.table.locals r.name.name,
        b.site ≠ r.name.site ∧ b.site.meets r.name.site = false := by
      intro b hb
      obtain ⟨l, hl, hsite⟩ := h.exists_local hb
      rw [← hsite]
      exact ⟨(hapart l hl).ne hproper, (hapart l hl).meets⟩
    have hbound : (seen.map (·.name)).filter (·.name == r.name.name) =
      (seen.filter (·.name.name == r.name.name)).map (·.name) := List.filter_map ..
    rw [hbinder, Env.lookup_extend, hbound, List.getLast?_map]
    rcases List.eq_nil_or_concat' (seen.filter (·.name.name == r.name.name)) with
      hnil | ⟨init, l, hlast⟩
    · have hvisible := h.visible r.name.name r.name.site.start
      rw [Shows.grouped_visible hseen, hnil] at hvisible
      rw [Analysis.bindingOf_of_global (s := r.symbol) hevaluated h.steps
        (List.map_eq_nil_iff.1 hvisible) hsites, hnil]
      exact h.global _
    · have hl : l ∈ seen.filter (·.name.name == r.name.name) := by simp [hlast]
      have hmem : l ∈ ls := (List.mem_filter.1 (mem_visibleAt hseen (List.mem_filter.1 hl).1)).1
      have hinnermost := h.innermost r.name.name r.name.site.start
      rw [Shows.grouped_visible hseen, hlast, lastMaxBy_grouped (hlast ▸ hordered.filter _)
        (hcollection l hmem)] at hinnermost
      obtain ⟨b, hb, hview⟩ := Option.map_eq_some_iff.1 hinnermost
      rw [Analysis.bindingOf_of_innermost (s := r.symbol) hevaluated (fun b hb => (hsites b hb).1)
        h.steps hb, hlast, List.getLast?_concat]
      exact congrArg (fun v : NameSite × Option Span => some v.1.site) hview

end Reference

/-! ## Programs -/

namespace Program

private theorem source_analyze (p : Program) (settings : Settings) :
    (analyze settings p.text).source = Sexp.document (p.map Top.sexp) := by
  rw [analyze_eq]
  rfl

private theorem table_analyze (p : Program) (settings : Settings) :
    (analyze settings p.text).table =
      .ofSource (Sexp.document (p.map Top.sexp)) settings.collection := by
  rw [analyze_eq]
  rfl

/-- Without the keywords, the symbols of a program are its references. -/
theorem symbols_analyze (p : Program) (settings : Settings) :
    (analyze settings p.text).symbols.filter isOrdinary = p.references.map Reference.symbol := by
  have hsymbols : (analyze settings p.text).symbols = (Sexp.document (p.map Top.sexp)).symbols := by
    rw [analyze_eq]
    rfl
  rw [hsymbols, Source.symbols, Sexp.words_document]
  exact p.ordinarySymbols_words _ 0

private theorem collection_ne {p : Program} {l : Local} (h : l ∈ p.locals) :
    l.collection ≠ .globalDefinition := by
  obtain ⟨x, -, hx⟩ := List.mem_flatMap.1 h
  exact x.2.collection_ne _ hx

/-- Analysing a program gives each of its names, in the order in which they are written, the binder
that the environments give it. In particular this holds under the default settings. -/
theorem bindingOf_eq_references (p : Program) (settings : Settings) :
    ((analyze settings p.text).symbols.filter isOrdinary).map
      (fun s => (s, ((analyze settings p.text).bindingOf s).map (·.site))) =
        p.references.map fun r => (r.symbol, r.binder) := by
  rw [symbols_analyze, List.map_map]
  refine List.map_congr_left fun r hr => ?_
  obtain ⟨hinside, hexplained⟩ := Program.explained _ 0 p hr
  have hshows : Shows (analyze settings p.text).table p.locals p.globals := by
    rw [table_analyze]
    exact p.shows _
  have hevaluated :
      (analyze settings p.text).source.layout.quotedContext.contains r.name.site.start = false := by
    rw [source_analyze, Layout.quotedContext, Sexp.dataOf_document]
    rfl
  exact congrArg (Prod.mk r.symbol) (site_bindingOf hshows (fun l => collection_ne) hevaluated
    hinside.proper hexplained)

-- The second value is free, and the body sees the second variable.
example :
    let x : Ident := ⟨"x", by decide, by simp, by decide, by decide⟩
    let p : Program := [.expr (.variables false
      (.cons x (.number 1) (.cons x (.name x) .nil)) (.cons (.name x) .nil))]
    p.text = "(let ((x 1) (x x)) x)" ∧
      p.references.map (·.binder) = [some ⟨7, 8⟩, some ⟨13, 14⟩, none, some ⟨13, 14⟩] := by
  decide

end Program

end Core

end LexScope
