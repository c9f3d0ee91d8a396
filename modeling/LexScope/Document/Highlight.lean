import LexScope.Document.Analysis
import LexScope.Text.Lines

/-!
# Highlighting

Every symbol that defines a name or belongs to a binding is given a class, under the mode for
highlighting. A definition keeps its class where another binding shadows it.
-/

namespace LexScope

/-- The classes of highlighted symbols. -/
inductive HighlightClass where
  /-- Packages. -/
  | packageName
  /-- Classes, structures, conditions and types. -/
  | typeName
  /-- Functions and methods. -/
  | functionName
  /-- Macros. -/
  | macroName
  /-- Variables. -/
  | variableName
  /-- Parameters. -/
  | parameterName
  /-- Loop names and method combinations. -/
  | keyword
  deriving DecidableEq

namespace HighlightClass

/-- The classes in the order of their numbers. -/
def all : List HighlightClass :=
  [packageName, typeName, functionName, macroName, variableName, parameterName, keyword]

/-- The name of the class for an editor. -/
def name : HighlightClass → String
  | packageName => "namespace"
  | typeName => "type"
  | functionName => "function"
  | macroName => "macro"
  | variableName => "variable"
  | parameterName => "parameter"
  | keyword => "keyword"

/-- The number of the class for an editor. -/
def number (c : HighlightClass) : Nat := all.idxOf c

/-- The class of what a binding names. -/
def ofKind : BindingKind → HighlightClass
  | .package => packageName
  | .classType | .condition | .structType | .typeName => typeName
  | .function | .genericFunction | .method | .setfExpander | .localFunction => functionName
  | .macroFunction | .compilerMacro | .modifyMacro | .symbolMacro | .localMacro
  | .localSymbolMacro => macroName
  | .specialVariable | .constant | .localVariable | .loopVariable => variableName
  | .parameter => parameterName
  | .loopName | .methodCombination => keyword

end HighlightClass

/-- A highlighted symbol. -/
structure Highlight where
  /-- Its line. -/
  line : Nat
  /-- Its column. -/
  column : Nat
  /-- Its length in UTF-16 units. -/
  length : Nat
  /-- Its class. -/
  cls : HighlightClass
  /-- It is a definition. -/
  isDefinition : Bool
  /-- It cannot be assigned. -/
  isConstant : Bool
  deriving DecidableEq

namespace Highlight

/-- The names of the two properties, by the bits that stand for them. -/
def modifierNames : List String := ["definition", "readonly"]

/-- The two properties as bits. -/
def modifiers (h : Highlight) : Nat :=
  (if h.isDefinition then 1 else 0) + (if h.isConstant then 2 else 0)

/-- The highlights as numbers, five for each: lines and columns relative to the one before. -/
def encodeFrom (line column : Nat) : List Highlight → List Nat
  | [] => []
  | h :: rest =>
    let column' := if h.line == line then h.column - column else h.column
    [h.line - line, column', h.length, h.cls.number, h.modifiers] ++ encodeFrom h.line h.column rest

/-- The highlights as numbers, from the start of the document. -/
def encode (hs : List Highlight) : List Nat := encodeFrom 0 0 hs

end Highlight

namespace Analysis

/-- The binding that gives a symbol its class, and whether the symbol defines it: the last binding
that is defined there, and otherwise the one that the symbol belongs to. -/
def highlightBinding (a : Analysis) (s : Symbol) : Option (Binding × Bool) :=
  match (a.table.toList.filter (·.site == s.span)).getLast? with
  | some b => some (b, true)
  | none => (a.bindingOf s).map fun b => (b, false)

/-- The highlighted symbols in order. A symbol that goes over a line end cannot be shown. -/
def highlights (a : Analysis) : List Highlight :=
  let lines := Lines.ofBytes a.source.bytes
  (a.occurrences a.settings.highlight).filterMap fun s =>
    if lines.lineOf s.span.start == lines.lineOf s.span.stop then
      (a.highlightBinding s).map fun (b, isDefinition) =>
        let start := lines.position s.span.start
        ⟨start.line, start.character, lines.unitLength s.span, .ofKind b.kind, isDefinition,
          b.kind == .constant⟩
    else none

end Analysis

end LexScope
