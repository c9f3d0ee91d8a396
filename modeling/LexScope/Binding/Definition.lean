import LexScope.Binding.Doc
import LexScope.Binding.Head

/-!
# Global definitions

The entries of the forms that define a global name: the definition itself, and the parameters of the
function it may carry. `defsetf` and `define-method-combination` have lists of their own beside the
lambda list.
-/

namespace LexScope.Definition

/-- The name of a package: a symbol, with or without a marker, or a string. -/
def packageName (src : Source) (n : Node) : Option NameSite :=
  let written : Option String :=
    match n.element.kind with
    | .atom =>
      let text := src.textAt n
      some ((["#:", ":"].findSome? (afterBeginning? · text)).getD text)
    | .string => src.stringAt n
    | .group _ => none
  match written with
  | some text =>
    let name := lowerCase text
    if name == "" then none else some ⟨name, n.element.span⟩
  | none => none

/-- The name in brackets that some definers allow: `(setf name)` or `(name options)`. -/
def groupName (src : Source) (d : Definer) : List Node → Option NameSite
  | [] => none
  | first :: rest =>
    match d with
    | .function | .genericFunction | .method =>
      if src.isWord first "setf" then rest.head?.bind src.nameAt else none
    | .structType | .methodCombination => src.nameAt first
    | _ => none

/-- The defined name. -/
def nameOf (src : Source) (d : Definer) (n : Node) : Option NameSite :=
  if n.quoted then none
  else
    match n.element.kind with
    | .group _ => groupName src d n.items
    | .atom => if d == .package then packageName src n else src.nameAt n
    | .string => if d == .package then packageName src n else none

/-- Parameters of a global definition. -/
def parameters (name : String) (form : Pair) (ps : Option (List Parameter)) : List Entry :=
  Entry.parameters .globalParameter name form (ps.getD [])

/-- A parameter that is visible after a list of the form. -/
def afterList (name : String) (form list : Pair) (n : NameSite) : List Entry :=
  Entry.lexical .globalParameter .parameter name form form.span (list.closing + 1) n

/-- `(defsetf access (parameters) (store variables) body)`. The short form binds nothing. -/
def setfLists (src : Source) (name : String) (form : Pair) : List Node → List Entry
  | [] => []
  | list :: rest =>
    match list.element.group, src.parametersAt list false with
    | some _, some ps =>
      parameters name form (some ps) ++
        match rest.head?.bind fun n => n.element.group.map fun p => (n, p) with
        | some (stores, p) => (stores.items.filterMap src.nameAt).flatMap (afterList name form p)
        | none => []
    | _, _ => []

/-- The options after the method groups: `(:arguments . list)` and `(:generic-function name)`. The
first form of another kind ends them. -/
def combinationOptions (src : Source) (name : String) (form : Pair) : List Node → List Entry
  | [] => []
  | n :: rest =>
    match n.element.kind, n.items with
    | .group option, head :: parts =>
      if src.isWord head ":arguments" then
        ((LambdaList.ofEntries src false none .required n.items).flatMap fun p =>
          afterList name form option ⟨p.name, p.site⟩) ++ combinationOptions src name form rest
      else if src.isWord head ":generic-function" then
        ((parts.head?.bind src.nameAt).toList.flatMap (afterList name form option)) ++
          combinationOptions src name form rest
      else []
    | _, _ => combinationOptions src name form rest

/-- `(define-method-combination name (parameters) (groups) options body)`. The short form binds
nothing. -/
def combinationLists (src : Source) (name : String) (form : Pair) : List Node → List Entry
  | [] => []
  | list :: rest =>
    match list.element.group, src.parametersAt list false with
    | some _, some ps =>
      parameters name form (some ps) ++
        match rest with
        | [] => []
        | groups :: options =>
          match groups.element.group with
          | none => []
          | some p =>
            let named := groups.items.filterMap fun spec =>
              if spec.element.group.isSome then spec.items.head?.bind src.nameAt else none
            named.flatMap (afterList name form p) ++ combinationOptions src name form options
    | _, _ => []

/-- The entries of the lists after the name, and the operands among which the documentation is
looked for. -/
def lists (src : Source) (d : Definer) (name : String) (form : Pair) (operands : List Node) :
    List Entry × List Node :=
  match d.lambdaList with
  | .ordinary =>
    (parameters name form (operands.head?.bind (src.parametersAt · false)), operands.tail)
  | .destructuring =>
    (parameters name form (operands.head?.bind (src.parametersAt · true)), operands.tail)
  | .specialized =>
    let rest := operands.dropWhile fun n => n.element.group.isNone && !src.isWord n "nil"
    (parameters name form (rest.head?.bind (src.parametersAt · false)), rest.tail)
  | .absent =>
    match d with
    | .setf => (setfLists src name form operands, operands)
    | .methodCombination => (combinationLists src name form operands, operands)
    | _ => ([], if d.hasInitValue then operands.tail else operands)

/-- The entries of a definition with these operands. -/
def entries (src : Source) (form : Pair) (d : Definer) : List Node → List Entry
  | [] => []
  | first :: operands =>
    match nameOf src d first with
    | none => []
    | some n =>
      let (bound, rest) := lists src d n.name form operands
      let doc := if d.hasBody then src.bodyDoc rest else src.optionDoc rest
      bound ++
        [.binding .globalDefinition
          { Binding.global n.name n.site d.kind form.span with doc := doc }]

end LexScope.Definition
