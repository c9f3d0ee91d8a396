import LexScope.Proofs.Binding.Lookup
import LexScope.Proofs.Form.Shift
import LexScope.Proofs.Text.Case

/-!
# Bindings further on

A table whose bindings are moved resolves a moved name to the moved binding. The search for the
innermost scope compares where scopes start, and a scope that holds the position has a start, so
the zero that stands in for a missing one is never compared with a moved offset.

The documentation of a binding takes no part in resolution, so the same law says that names resolve
alike in two tables which differ only there.
-/

namespace LexScope

/-! ## What is moved -/

/-- The binding `k` offsets further on. -/
def Binding.shift (k : Nat) (b : Binding) : Binding :=
  { b with
    scope := b.scope.map (Span.shift k)
    site := b.site.shift k
    form := b.form.shift k
    stepWindow := b.stepWindow.map (Span.shift k) }

/-- The binding with its documentation as it looks through a view. -/
def Binding.viewDoc (view : Char → Char) (b : Binding) : Binding :=
  { b with doc := b.doc.map (viewText view) }

/-- Shifting a binding by nothing changes nothing. -/
@[simp] theorem Binding.shift_zero : Binding.shift 0 = id := by
  funext b
  simp [shift]

/-- Reading a doc string as it is changes nothing. -/
@[simp] theorem Binding.viewDoc_id : Binding.viewDoc id = id := by
  funext b
  have hid : viewText id = id := funext viewText_id
  simp [viewDoc, hid]

/-- The entry with its binding and its step form changed. -/
def Entry.map (f : Binding → Binding) (g : Span → Span) : Entry → Entry
  | .binding c b => .binding c (f b)
  | .stepForm s => .stepForm (g s)

/-- The entry `k` offsets further on. -/
def Entry.shift (k : Nat) : Entry → Entry := Entry.map (Binding.shift k) (Span.shift k)

/-- The entry with its documentation as it looks through a view. -/
def Entry.viewDoc (view : Char → Char) : Entry → Entry := Entry.map (Binding.viewDoc view) id

namespace Table

variable {f : Binding → Binding} {g : Span → Span}

/-- The table with its bindings and its step forms changed. -/
def map (f : Binding → Binding) (g : Span → Span) (t : Table) : Table where
  globalDefinitions := t.globalDefinitions.map f
  globalParameters := t.globalParameters.map f
  localDefinitions := t.localDefinitions.map f
  localParameters := t.localParameters.map f
  anonymousVariables := t.anonymousVariables.map f
  singleVariables := t.singleVariables.map f
  loopBindings := t.loopBindings.map f
  steps := t.steps.map g

/-- The table `k` offsets further on. -/
def shift (k : Nat) : Table → Table := map (Binding.shift k) (Span.shift k)

/-- The table with its documentation as it looks through a view. -/
def viewDoc (view : Char → Char) : Table → Table := map (Binding.viewDoc view) id

/-- A mapped table has mapped collections. -/
@[simp] theorem get_map (t : Table) (c : Collection) : (t.map f g).get c = (t.get c).map f := by
  cases c <;> rfl

/-- Shifting a table by nothing changes nothing. -/
@[simp] theorem shift_zero : shift 0 = id := by
  funext t
  simp [shift, map]

/-- Reading the doc strings of a table as they are changes nothing. -/
@[simp] theorem viewDoc_id : viewDoc id = id := by
  funext t
  simp [viewDoc, map]

private theorem add_map (t : Table) (e : Entry) : (t.map f g).add (e.map f g) =
    (t.add e).map f g := by
  cases e with
  | binding c b => cases c <;> simp [Entry.map, add, insert, map]
  | stepForm s => simp [Entry.map, add, insertStep, map]

/-- Building a table from mapped entries maps the table they build. -/
theorem foldl_add_map (entries : List Entry) (t : Table) :
    (entries.map (Entry.map f g)).foldl add (t.map f g) = (entries.foldl add t).map f g := by
  rw [List.foldl_map]
  exact List.foldl_hom (map f g) add_map

end Table

/-! ## Resolution -/

/-- Everything that resolution looks at is moved by `k`. -/
structure Binding.Moves (k : Nat) (f : Binding → Binding) : Prop where
  /-- The name stays. -/
  name : ∀ b, (f b).name = b.name
  /-- The form or function that the binding belongs to stays. -/
  container : ∀ b, (f b).container = b.container
  /-- The scope is moved. -/
  scope : ∀ b, (f b).scope = b.scope.map (Span.shift k)
  /-- The place of the name is moved. -/
  site : ∀ b, (f b).site = b.site.shift k
  /-- The window of step forms is moved. -/
  stepWindow : ∀ b, (f b).stepWindow = b.stepWindow.map (Span.shift k)

/-- A shift moves every place of a binding and keeps the rest. -/
theorem Binding.moves_shift (k : Nat) : Binding.Moves k (Binding.shift k) where
  name _ := rfl
  container _ := rfl
  scope _ := rfl
  site _ := rfl
  stepWindow _ := rfl

private theorem Binding.moves_viewDoc (view : Char → Char) : Binding.Moves 0
    (Binding.viewDoc view) where
  name _ := rfl
  container _ := rfl
  scope b := by simp [viewDoc]
  site b := by simp [viewDoc]
  stepWindow b := by simp [viewDoc]

/-- A greatest key stays greatest if all keys grow alike. -/
theorem lastMaxBy_add {α : Type} {key grown : α → Nat} {k : Nat} {l : List α}
    (h : ∀ a ∈ l, grown a = k + key a) : lastMaxBy grown l = lastMaxBy key l := by
  induction l with
  | nil => rfl
  | cons a rest ih =>
    obtain ⟨ha, hrest⟩ := List.forall_mem_cons.1 h
    rw [lastMaxBy, lastMaxBy, ih hrest]
    cases hlast : lastMaxBy key rest with
    | none => rfl
    | some b =>
      have hb := hrest b (mem_of_lastMaxBy hlast)
      simp only [ha, hb, Nat.add_lt_add_iff_left]

variable {k : Nat} {f : Binding → Binding}

private theorem Binding.Moves.isVisibleAt (hf : Binding.Moves k f) (b : Binding) (offset : Nat) :
    (f b).isVisibleAt (k + offset) = b.isVisibleAt offset := by
  simp [Binding.isVisibleAt, hf.scope, Option.any_map]

/-- Where scopes or windows are moved, so are their starts, if there are any. -/
theorem start_getD_shift {span : Option Span} {p : Span → Bool} (h : span.any p = true) :
    ((span.map (Span.shift k)).map (·.start)).getD 0 = k + (span.map (·.start)).getD 0 := by
  cases span with
  | none => cases h
  | some s => rfl

namespace Table

private theorem locals_map (hf : Binding.Moves k f) (t : Table) (name : String) :
    (t.map f (Span.shift k)).locals name = (t.locals name).map f := by
  have hlexicals : (t.map f (Span.shift k)).lexicals = t.lexicals.map f := by
    rw [lexicals, lexicals, List.map_flatMap]
    congr 1
    funext c
    exact get_map t c
  simp only [locals, hlexicals, List.filter_map, Function.comp_def, hf.name]

private theorem global_map (hf : Binding.Moves k f) (t : Table) (name : String) :
    (t.map f (Span.shift k)).global name = (t.global name).map f := by
  simp only [global, map, List.filter_map, Function.comp_def, hf.name, List.getLast?_map]

private theorem stepForms_map (t : Table) :
    (t.map f (Span.shift k)).stepForms = t.stepForms.shift k :=
  SpanSet.ofList_shift k t.steps

private theorem innermost_map (hf : Binding.Moves k f) (locals : List Binding) (position : Nat) :
    innermost (locals.map f) (k + position) = (innermost locals position).map f := by
  simp only [innermost, List.filter_map, Function.comp_def, hf.isVisibleAt]
  rw [lastMaxBy_map, lastMaxBy_add (k := k)]
  intro b hb
  rw [hf.scope]
  exact start_getD_shift (List.mem_filter.1 hb).2

private theorem stepVariable_map (hf : Binding.Moves k f) (t : Table) (locals : List Binding)
    (position : Nat) :
    (t.map f (Span.shift k)).stepVariable (locals.map f) (k + position) =
      (t.stepVariable locals position).map f := by
  have hdo (b : Binding) :
      ((f b).isDoVariable && (f b).stepWindow.any (·.contains (k + position))) =
      (b.isDoVariable && b.stepWindow.any (·.contains position)) := by
    simp [Binding.isDoVariable, hf.container, hf.stepWindow, Option.any_map]
  simp only [stepVariable, stepForms_map, SpanSet.contains_shift, List.filter_map,
    Function.comp_def, hdo]
  split
  · rw [lastMaxBy_map, lastMaxBy_add (k := k)]
    intro b hb
    rw [hf.stepWindow]
    exact start_getD_shift (Bool.and_eq_true_iff.1 (List.mem_filter.1 hb).2).2
  · rfl

/-- A moved table resolves a moved name to the moved binding. -/
theorem resolve_map (hf : Binding.Moves k f) (t : Table) (name : String) (site : Span)
    (position : Option Nat) :
    (t.map f (Span.shift k)).resolve name (site.shift k) (position.map (k + ·)) =
      ⟨(t.resolve name site position).binding.map f,
        (t.resolve name site position).shadow.map f⟩ := by
  have hsite (b : Binding) : ((f b).site == site.shift k) = (b.site == site) := by
    rw [hf.site, Bool.eq_iff_iff, beq_iff_eq, beq_iff_eq, Span.shift_inj]
  cases position with
  | none => simp only [resolve, Option.map_none, locals_map hf, global_map hf]
  | some position =>
    simp only [resolve, Option.map_some, locals_map hf, global_map hf, List.find?_map,
      Function.comp_def, hsite, innermost_map hf, stepVariable_map hf]
    cases (t.locals name).find? (·.site == site) with
    | some b => rfl
    | none =>
      cases innermost (t.locals name) position with
      | some b => rfl
      | none => cases t.stepVariable (t.locals name) position <;> rfl

end Table

private theorem isShadowed_map (hf : Binding.Moves k f) (site : Span) (shadow : List Binding) :
    isShadowed (site.shift k) (shadow.map f) = isShadowed site shadow := by
  simp only [isShadowed, List.any_map, Function.comp_def, Span.shift_start, hf.isVisibleAt,
    hf.site, Span.meets_shift]

/-- The moved symbol belongs to the moved binding, or to none if it belonged to none. -/
theorem Analysis.bindingOf_map (hf : Binding.Moves k f) {a b : Analysis}
    (hlayout : b.source.layout = a.source.layout.shift k)
    (htable : b.table = a.table.map f (Span.shift k)) (s : Symbol) :
    b.bindingOf (s.shift k) = (a.bindingOf s).map f := by
  have hposition : (if b.source.layout.quotedContext.contains (s.shift k).span.start then none
        else some (s.shift k).span.start) =
      (if a.source.layout.quotedContext.contains s.span.start then none
        else some s.span.start).map (k + ·) := by
    simp only [hlayout, Layout.quotedContext_shift, Symbol.shift, Span.shift_start,
      SpanSet.contains_shift]
    split <;> rfl
  have hresolve : b.resolve (s.shift k) =
      ⟨(a.resolve s).binding.map f, (a.resolve s).shadow.map f⟩ := by
    simp only [Analysis.resolve, hposition, htable]
    exact Table.resolve_map hf a.table s.name s.span _
  simp only [Analysis.bindingOf, hresolve]
  rw [show (s.shift k).span = s.span.shift k from rfl, isShadowed_map hf]
  split <;> rfl

/-- Symbols belong to the same bindings where nothing but documentation differs. -/
theorem Analysis.bindingOf_viewDoc {view : Char → Char} {a b : Analysis}
    (hlayout : b.source.layout = a.source.layout)
    (htable : b.table.viewDoc view = a.table.viewDoc view) (s : Symbol) :
    (b.bindingOf s).map (Binding.viewDoc view) = (a.bindingOf s).map (Binding.viewDoc view) := by
  let viewed : Analysis := { b with table := b.table.viewDoc view }
  have hb : viewed.bindingOf (s.shift 0) = (b.bindingOf s).map (Binding.viewDoc view) :=
    bindingOf_map (Binding.moves_viewDoc view) (by simp [viewed])
      (by simp [viewed, Table.viewDoc]) s
  have ha : viewed.bindingOf (s.shift 0) = (a.bindingOf s).map (Binding.viewDoc view) :=
    bindingOf_map (Binding.moves_viewDoc view) (by simp [viewed, hlayout])
      (by rw [Span.shift_zero]; exact htable) s
  exact hb.symm.trans ha

end LexScope
