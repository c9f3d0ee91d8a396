import LexScope.Binding.Doc
import LexScope.Binding.Head

/-!
# Local functions

`flet`, `labels` and `macrolet`. A function of `labels` is visible from the list of definitions on,
so that each can call itself and its siblings; the others are visible in the body only.
-/

namespace LexScope.LocalFunction

/-- What the form defines. -/
def kind : LocalFunctionForm → BindingKind
  | .macrolet => .localMacro
  | _ => .localFunction

/-- Where the functions of the form become visible. -/
def visibleFrom (f : LocalFunctionForm) (list : Pair) : Nat :=
  match f with
  | .labels => list.opening
  | _ => list.closing + 1

/-- The entries of one definition `(name (parameters) body)`. -/
def definitionEntries (src : Source) (form : Pair) (keyword : String) (f : LocalFunctionForm)
    (list definition : Pair) : List Entry :=
  match src.items definition with
  | [] => []
  | first :: rest =>
    match src.nameAt first with
    | none => []
    | some n =>
      let doc := src.bodyDoc rest.tail
      let bound : List Entry :=
        match scopeIn form (visibleFrom f list) with
        | some scope =>
          [.binding .localDefinition
            { Binding.lexical n.name n.site (kind f) keyword scope definition.span with
              doc := doc }]
        | none => []
      bound ++ Entry.parameters .localParameter n.name definition
        ((rest.head?.bind (src.parametersAt · (f == .macrolet))).getD [])

/-- The entries of the form. Every bracket pair directly inside the list counts as a definition. -/
def entries (src : Source) (form : Pair) (keyword : String) (f : LocalFunctionForm)
    (operands : List Node) : List Entry :=
  match operands.head?.bind (·.element.group) with
  | none => []
  | some list =>
    (src.layout.pairs.children list).flatMap (definitionEntries src form keyword f list)

end LexScope.LocalFunction
