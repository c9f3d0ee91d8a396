import LexScope.Binding.Collect
import LexScope.Binding.Resolution
import LexScope.Form.Symbol

/-!
# Analysis of a document

Everything that is known about one version of a document: its layout, its bindings and the symbols
written in it. The questions of an editor are answered from here.
-/

namespace LexScope

/-- An analysed document. -/
structure Analysis where
  /-- The text. -/
  text : String
  /-- The settings under which it was analysed. -/
  settings : Settings
  /-- Bytes and layout. -/
  source : Source
  /-- The bindings. -/
  table : Table
  /-- The symbols in the order in which they are written. -/
  symbols : List Symbol

/-- Analyse a text, where `cancelled k` answers the check of number `k` for cancellation. -/
def analyzeUnless (cancelled : Nat → Bool) (settings : Settings) (text : String) :
    Except Cancelled Analysis :=
  let source := Source.ofText text
  match Table.collect source settings.collection cancelled with
  | .ok table => .ok ⟨text, settings, source, table, source.symbols⟩
  | .error e => .error e

/-- Analyse a text. -/
def analyze (settings : Settings) (text : String) : Analysis :=
  match analyzeUnless (fun _ => false) settings text with
  | .ok a => a
  | .error _ => ⟨text, settings, Source.ofText text, {}, []⟩

/-- Passes that are never cancelled run to their end. -/
theorem Table.collectPasses_never (src : Source) (excluded : SpanSet) (forms : List BindingForm)
    (check : Nat) (t : Table) (passes : List Category) :
    Table.collectPasses src excluded forms (fun _ => false) check t passes =
      .ok (passes.foldl (Table.collectPass src excluded forms) t) := by
  induction passes generalizing check t with
  | nil => rfl
  | cons c rest ih => simp [Table.collectPasses, ih]

/-- The bindings of a document when nothing is cancelled. -/
def Table.ofSource (src : Source) (mode : Mode) : Table :=
  Category.all.foldl
    (Table.collectPass src (src.layout.excluded mode)
      (BindingForm.all src (src.layout.excluded mode))) {}

private theorem Table.collect_never (src : Source) (mode : Mode) :
    Table.collect src mode (fun _ => false) = .ok (Table.ofSource src mode) :=
  Table.collectPasses_never _ _ _ _ _ _

/-- An analysis that is never cancelled succeeds with the result of `analyze`. -/
theorem analyzeUnless_never (settings : Settings) (text : String) :
    analyzeUnless (fun _ => false) settings text = .ok (analyze settings text) := by
  simp [analyze, analyzeUnless, Table.collect_never]

/-- What an analysis consists of. -/
theorem analyze_eq (settings : Settings) (text : String) :
    analyze settings text =
      ⟨text, settings, Source.ofText text, .ofSource (Source.ofText text) settings.collection,
        (Source.ofText text).symbols⟩ := by
  simp [analyze, analyzeUnless, Table.collect_never]

namespace Analysis

/-- What a mode leaves out of the document. -/
def excluded (a : Analysis) (mode : Mode) : SpanSet := a.source.layout.excluded mode

/-- The symbol at a cursor; a cursor right after a symbol still selects it. -/
def symbolAt (a : Analysis) (offset : Nat) : Option Symbol :=
  (a.symbols.find? fun s => decide (offset ≤ s.span.stop)).filter (·.span.touches offset)

/-- The symbols outside what a mode leaves out. -/
def occurrences (a : Analysis) (mode : Mode) : List Symbol :=
  let excluded := a.excluded mode
  a.symbols.filter fun s => !excluded.meets s.span

/-- Resolve a symbol where it is written; in data that are not evaluated, without a position. -/
def resolve (a : Analysis) (s : Symbol) : Resolution :=
  let position := if a.source.layout.quotedContext.contains s.span.start then none
    else some s.span.start
  a.table.resolve s.name s.span position

/-- The binding that a symbol belongs to, unless a local binding shadows it there. -/
def bindingOf (a : Analysis) (s : Symbol) : Option Binding :=
  let r := a.resolve s
  if isShadowed s.span r.shadow then none else r.binding

/-- The symbols under a mode that belong to a binding. -/
def resolvedOccurrences (a : Analysis) (mode : Mode) : List (Symbol × Binding) :=
  (a.occurrences mode).filterMap fun s => (a.bindingOf s).map fun b => (s, b)

/-- Where a binding occurs under a mode, its definition included. -/
def occurrencesOf (a : Analysis) (target : Binding) (mode : Mode) : List Span :=
  ((a.occurrences mode).filter fun s =>
    s.name == target.name && (a.bindingOf s).any (·.sameDefinition target)).map (·.span)

/-- The global names and the bindings visible at an offset. -/
def bindingsAt (a : Analysis) (offset : Nat) : List Binding := a.table.visibleAt offset

end Analysis

end LexScope
