import LexScope.Binding.Entry

/-!
# Variables of binding forms

`let` and the forms like it, `do`, `lambda`, the forms that take values apart, and the forms with a
single variable. A variable is visible from the end of the list, from the end of its own entry where
the form binds one after the other, or from the end of the list expression where the form iterates.
-/

namespace LexScope.Variable

/-- An entry of a list of variables: `x` or `(x init ...)`. -/
structure Spec where
  /-- The variable. -/
  name : NameSite
  /-- The whole entry. -/
  entry : Node

/-- The entries of a list of variables. -/
def specs (src : Source) (list : Node) : List Spec :=
  list.items.filterMap fun entry =>
    let named : Option Node :=
      match entry.element.kind with
      | .atom => some entry
      | .group _ => if entry.quoted then none else entry.items.head?
      | .string => none
    (named.bind src.nameAt).map fun n => ⟨n, entry⟩

/-- Where the variable of an entry becomes visible. -/
def visibleFrom (sequential : Bool) (list : Pair) (spec : Spec) : Nat :=
  if sequential then spec.entry.stop else list.closing + 1

/-- The first operand, if it is a group, with its bracket pair. -/
def firstGroup (operands : List Node) : Option (Node × Pair) :=
  operands.head?.bind fun n => n.element.group.map fun p => (n, p)

/-- `(let ((x 1) y) body)` -/
def letEntries (src : Source) (form : Pair) (keyword : String) (sequential : Bool)
    (kind : BindingKind) (operands : List Node) : List Entry :=
  match firstGroup operands with
  | none => []
  | some (list, p) =>
    (specs src list).flatMap fun spec =>
      Entry.lexical .anonymousVariable kind keyword form form.span (visibleFrom sequential p spec)
        spec.name

/-- One variable of `do`. Its step form, the third element of the entry, sees every variable of the
form, so the variable carries a window from the start of the list up to its scope. -/
def doEntry (form : Pair) (keyword : String) (sequential : Bool) (list : Pair) (spec : Spec) :
    List Entry :=
  let start := visibleFrom sequential list spec
  let step : List Entry :=
    if spec.entry.element.group.isSome then
      (spec.entry.items[2]?).toList.map fun n => .stepForm n.element.span
    else []
  step ++
    match scopeIn form start with
    | some scope =>
      [.binding .anonymousVariable
        { Binding.lexical spec.name.name spec.name.site .localVariable keyword scope
            form.span with stepWindow := some ⟨list.opening, start⟩ }]
    | none => []

/-- `(do ((variable init step)) (end result) body)` -/
def doEntries (src : Source) (form : Pair) (keyword : String) (sequential : Bool)
    (operands : List Node) : List Entry :=
  match firstGroup operands with
  | none => []
  | some (list, p) => (specs src list).flatMap (doEntry form keyword sequential p)

/-- `(lambda (parameters) body)` -/
def lambdaEntries (src : Source) (form : Pair) (operands : List Node) : List Entry :=
  Entry.parameters .anonymousVariable "lambda" form
    ((operands.head?.bind (src.parametersAt · false)).getD [])

/-- `(destructuring-bind (pattern) value body)` and `(multiple-value-bind (variables) value body)`.
Without a value nothing is bound. -/
def valueEntries (src : Source) (form : Pair) (keyword : String) (destructuring : Bool)
    (operands : List Node) : List Entry :=
  match operands with
  | list :: _ :: _ =>
    match list.element.group with
    | none => []
    | some p =>
      (LambdaList.ofEntries src destructuring none .required list.items).flatMap fun param =>
        Entry.lexical .anonymousVariable .localVariable keyword form form.span (p.closing + 1)
          ⟨param.name, param.site⟩
  | _ => []

/-- `(dolist (x list result) body)`, `(with-open-file (s path) body)` and the forms like them. -/
def singleEntries (src : Source) (form : Pair) (keyword : String) (iterates : Bool)
    (kind : BindingKind) (operands : List Node) : List Entry :=
  match firstGroup operands with
  | none => []
  | some (spec, p) =>
    match spec.items.head?.bind src.nameAt with
    | none => []
    | some n =>
      let start :=
        match spec.items[1]? with
        | some value => if iterates then value.stop else p.closing + 1
        | none => p.closing + 1
      Entry.lexical .singleVariable kind keyword form form.span start n

end LexScope.Variable
