import LexScope.Document.Analysis

/-!
# Definitions and references

Both start from the symbol under a cursor and use the mode for lookups: a cursor in an excluded part
finds nothing, and excluded occurrences are not reported.
-/

namespace LexScope.Analysis

/-- The symbol under a cursor and the binding it belongs to. -/
def targetAt (a : Analysis) (offset : Nat) : Option (Symbol × Binding) :=
  match a.symbolAt offset with
  | none => none
  | some s =>
    if (a.excluded a.settings.lookup).meets s.span then none
    else (a.bindingOf s).map fun b => (s, b)

/-- Where the symbol under a cursor is defined. -/
def definition (a : Analysis) (offset : Nat) : Option Span := (a.targetAt offset).map (·.2.site)

/-- Where the binding of the symbol under a cursor occurs, with or without its definition. -/
def references (a : Analysis) (offset : Nat) (withDefinition : Bool) : List Span :=
  match a.targetAt offset with
  | none => []
  | some (_, b) =>
    (a.occurrencesOf b a.settings.lookup).filter fun s => withDefinition || s != b.site

end LexScope.Analysis
