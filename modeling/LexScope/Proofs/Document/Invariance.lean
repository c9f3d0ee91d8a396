import LexScope.Proofs.Binding.Copy

/-!
# What an analysis does not depend on

Two laws about whole documents. Blanks in front of a document move its analysis and change nothing
else. Letters may be written in either case: the analysis stays the same, except that documentation
strings are kept as they are written.

In both the second document is a copy of the first, so that everything is read off the laws about
copies.
-/

namespace LexScope

open Byte Utf8

namespace Analysis

/-- The analysis `b` is `a` with every offset moved by `k`. -/
structure IsShift (k : Nat) (a b : Analysis) : Prop where
  /-- Brackets, comments, strings and the reach of markers are moved, and so is the place where the
  text breaks off. -/
  layout : b.source.layout = a.source.layout.shift k
  /-- The elements of forms are moved. -/
  elements : ∀ p, b.source.elements (p.shift k) = (a.source.elements p).map (Element.shift k)
  /-- What is not evaluated in place is moved. -/
  quotedContext : b.source.layout.quotedContext = a.source.layout.quotedContext.shift k
  /-- What a mode leaves out is moved. -/
  excluded : ∀ mode, b.excluded mode = (a.excluded mode).shift k
  /-- The symbols are moved. -/
  symbols : b.symbols = a.symbols.map (Symbol.shift k)
  /-- The step forms are moved. -/
  steps : b.table.steps = a.table.steps.map (Span.shift k)
  /-- The bindings of each collection are moved and stay in order. -/
  bindings : ∀ c, b.table.get c = (a.table.get c).map (Binding.shift k)
  /-- A moved symbol belongs to the moved binding. -/
  bindingOf : ∀ s, b.bindingOf (s.shift k) = (a.bindingOf s).map (Binding.shift k)

/-- The analysis of a document behind blanks is its analysis moved by their length. -/
theorem isShift_analyze (settings : Settings) (text : String) {blanks : String}
    (h : ∀ b ∈ bytes blanks, isWhitespace b = true) :
    IsShift blanks.utf8ByteSize (analyze settings text) (analyze settings (blanks ++ text)) := by
  have hcopy := Source.copies_ofText_append h text
  have htable := Table.ofSource_copy hcopy settings.collection
  rw [Table.viewDoc_id, id, id] at htable
  rw [analyze_eq, analyze_eq, htable]
  exact
    { layout := hcopy.layout
      elements := hcopy.elements_pair
      quotedContext := hcopy.quotedContext
      excluded := hcopy.excluded
      symbols := hcopy.symbols
      steps := rfl
      bindings := Table.get_map _
      bindingOf := bindingOf_map (Binding.moves_shift _) hcopy.layout rfl }

/-- The law applies to a loop whose step form sees its variable, behind blanks of two kinds. -/
theorem isShift_analyze_do :
    (∀ b ∈ bytes " \n", isWhitespace b = true) ∧
      IsShift " \n".utf8ByteSize (analyze {} "(do ((i 0 (1+ i))) (nil) 'i)")
        (analyze {} (" \n" ++ "(do ((i 0 (1+ i))) (nil) 'i)")) := by
  have hblank : ∀ b ∈ bytes " \n", isWhitespace b = true := by decide +kernel
  exact ⟨hblank, isShift_analyze {} "(do ((i 0 (1+ i))) (nil) 'i)" hblank⟩

/-- The analyses `a` and `b` agree, except that the documentation of bindings may differ in case. -/
structure AgreesInCase (a b : Analysis) : Prop where
  /-- Brackets, comments, strings and the reach of markers are the same. -/
  layout : b.source.layout = a.source.layout
  /-- The elements of forms are the same. -/
  elements : ∀ p, b.source.elements p = a.source.elements p
  /-- What is not evaluated in place is the same. -/
  quotedContext : b.source.layout.quotedContext = a.source.layout.quotedContext
  /-- What a mode leaves out is the same. -/
  excluded : ∀ mode, b.excluded mode = a.excluded mode
  /-- The symbols are the same, names and places. -/
  symbols : b.symbols = a.symbols
  /-- The step forms are the same. -/
  steps : b.table.steps = a.table.steps
  /-- The bindings of each collection are the same and in the same order, with documentation that
  is the same in lower case. -/
  bindings : ∀ c, (b.table.get c).map (Binding.viewDoc Char.toLower) =
    (a.table.get c).map (Binding.viewDoc Char.toLower)
  /-- Symbols belong to the same bindings. -/
  bindingOf : ∀ s, (b.bindingOf s).map (Binding.viewDoc Char.toLower) =
    (a.bindingOf s).map (Binding.viewDoc Char.toLower)

/-- Texts that differ only in the case of ASCII letters have analyses that agree. -/
theorem agreesInCase_analyze (settings : Settings) {t u : String} (h : sameWord t u = true) :
    AgreesInCase (analyze settings t) (analyze settings u) := by
  have hcopy := Source.copies_ofText_of_sameWord h
  have htable := Table.ofSource_copy hcopy settings.collection
  have hlayout := hcopy.layout
  have hsteps := congrArg Table.steps htable
  rw [Table.shift_zero, id] at htable
  rw [Layout.shift_zero, id] at hlayout
  rw [analyze_eq, analyze_eq]
  exact
    { layout := hlayout
      elements := fun p => by simpa using hcopy.elements_pair p
      quotedContext := congrArg Layout.quotedContext hlayout
      excluded := fun mode => congrArg (Layout.excluded · mode) hlayout
      symbols := by simpa using hcopy.symbols
      steps := by simpa [Table.viewDoc, Table.map] using hsteps
      bindings := fun c => by simpa [Table.viewDoc] using congrArg (Table.get · c) htable
      bindingOf := bindingOf_viewDoc hlayout htable }

/-- The law applies to a definition whose words, names and documentation change case. -/
theorem agreesInCase_analyze_defun :
    sameWord "(defun f (x) \"Doc\" x)" "(DEFUN F (X) \"doc\" x)" = true ∧
      AgreesInCase (analyze {} "(defun f (x) \"Doc\" x)")
        (analyze {} "(DEFUN F (X) \"doc\" x)") := by
  have hword : sameWord "(defun f (x) \"Doc\" x)" "(DEFUN F (X) \"doc\" x)" = true := by
    decide +kernel
  exact ⟨hword, agreesInCase_analyze {} hword⟩

end Analysis

end LexScope
