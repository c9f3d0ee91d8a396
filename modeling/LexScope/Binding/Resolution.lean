import LexScope.Binding.Table

/-!
# Resolution of names

A name written at a position belongs to the innermost binding around it. A definition belongs to
itself, and a step form of `do` sees the variables of its form. When no local binding applies the
name is global, and every local binding of the name is reported as one that may shadow it, so that
occurrences which really belong to a local one can be told apart.
-/

namespace LexScope

/-- What a name resolves to. -/
structure Resolution where
  /-- The binding, if there is one. -/
  binding : Option Binding
  /-- Local bindings that may shadow it elsewhere. -/
  shadow : List Binding

namespace Resolution

/-- A local binding, which nothing shadows. -/
def found (b : Binding) : Resolution := ⟨some b, []⟩

end Resolution

/-- The last element whose key is greatest. -/
def lastMaxBy {α : Type} (key : α → Nat) : List α → Option α
  | [] => none
  | a :: rest =>
    match lastMaxBy key rest with
    | none => some a
    | some b => if key b < key a then some a else some b

namespace Table

/-- The binding whose scope starts last among those that contain the position; of equal ones the
last in order. -/
def innermost (locals : List Binding) (position : Nat) : Option Binding :=
  lastMaxBy (fun b => (b.scope.map (·.start)).getD 0) (locals.filter (·.isVisibleAt position))

/-- Inside a step form: the `do` variable whose window starts last. -/
def stepVariable (t : Table) (locals : List Binding) (position : Nat) : Option Binding :=
  if t.stepForms.contains position then
    lastMaxBy (fun b => (b.stepWindow.map (·.start)).getD 0)
      (locals.filter fun b => b.isDoVariable && b.stepWindow.any (·.contains position))
  else none

/-- Resolve a name, in lower case, that is written at `site`. Data that are not evaluated have no
position: lexical scope does not reach them. -/
def resolve (t : Table) (name : String) (site : Span) (position : Option Nat) : Resolution :=
  let locals := t.locals name
  match position with
  | none => ⟨t.global name, locals⟩
  | some position =>
    match locals.find? (·.site == site) with
    | some b => .found b
    | none =>
      match innermost locals position with
      | some b => .found b
      | none =>
        match t.stepVariable locals position with
        | some b => .found b
        | none => ⟨t.global name, locals⟩

end Table

/-- The name written at `site` belongs to one of the shadowing bindings. -/
def isShadowed (site : Span) (shadow : List Binding) : Bool :=
  shadow.any fun b => b.isVisibleAt site.start || b.site.meets site

end LexScope
