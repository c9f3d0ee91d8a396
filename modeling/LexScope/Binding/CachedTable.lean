import LexScope.Binding.Table

/-!
# The table with its maps and views

While it is filled the table keeps each collection as a map from names. Two views are derived from
what it holds: all bindings with a scope by name, and the offsets of the step forms. A view is
computed when it is asked for first, kept, and dropped again by what would change it. A map does not
say in which order its names are visited, so every question comes with an order of its own.
-/

namespace LexScope

/-- Bindings by name; those of one name stand in the order in which they were added. -/
structure NameMap where
  /-- The names with their bindings. -/
  entries : List (String × List Binding) := []

namespace NameMap

/-- Add bindings behind those of a name. -/
def extendEntries (name : String) (added : List Binding) :
    List (String × List Binding) → List (String × List Binding)
  | [] => [(name, added)]
  | (other, held) :: rest =>
    if other == name then (other, held ++ added) :: rest
    else (other, held) :: extendEntries name added rest

/-- Add bindings behind those of a name. -/
def extend (m : NameMap) (name : String) (added : List Binding) : NameMap :=
  ⟨extendEntries name added m.entries⟩

/-- The bindings of a name. -/
def get (m : NameMap) (name : String) : List Binding := (m.entries.lookup name).getD []

/-- Number of bindings. -/
def size (m : NameMap) : Nat := m.entries.foldl (fun n e => n + e.2.length) 0

end NameMap

/-- An order in which the maps of a table are visited: those of the collections, and the view of all
collections with a scope. -/
structure VisitOrder where
  /-- The entries of a map in this order. -/
  visit : Option Collection → NameMap → List (String × List Binding)
  /-- Every entry is visited once. -/
  perm : ∀ which m, (visit which m).Perm m.entries

/-- Names are visited in the order in which they were first added. -/
def VisitOrder.asAdded : VisitOrder := ⟨fun _ m => m.entries, fun _ _ => .refl _⟩

/-- A table of bindings with its views. -/
structure CachedTable where
  /-- The collections. -/
  maps : Collection → NameMap := fun _ => {}
  /-- The step forms in the order in which they were added. -/
  steps : List Span := []
  /-- The offsets in step forms, once they are asked for. -/
  stepSet : Option SpanSet := none
  /-- All bindings with a scope, once they are asked for. -/
  lexicals : Option NameMap := none

namespace CachedTable

/-- Add a binding to a collection. The view of the bindings is dropped. -/
def insert (t : CachedTable) (c : Collection) (b : Binding) : CachedTable :=
  { t with
    maps := fun d => if d = c then (t.maps c).extend b.name [b] else t.maps d
    lexicals := none }

/-- Add a step form. The view of the step forms is dropped. -/
def insertStep (t : CachedTable) (s : Span) : CachedTable :=
  { t with steps := t.steps ++ [s], stepSet := none }

/-- The offsets in step forms. -/
def stepForms (t : CachedTable) : SpanSet × CachedTable :=
  match t.stepSet with
  | some set => (set, t)
  | none =>
    let set := SpanSet.ofList t.steps
    (set, { t with stepSet := some set })

/-- Add the bindings of one map to another one. -/
def mergeInto (merged : NameMap) (visited : List (String × List Binding)) : NameMap :=
  visited.foldl (fun merged (name, held) => merged.extend name held) merged

/-- The collections with a scope in one map. -/
def merge (t : CachedTable) (order : VisitOrder) : NameMap :=
  Collection.lexical.foldl (fun merged c => mergeInto merged (order.visit (some c) (t.maps c))) {}

/-- All bindings with a scope. -/
def lexicalView (t : CachedTable) (order : VisitOrder) : NameMap × CachedTable :=
  match t.lexicals with
  | some view => (view, t)
  | none =>
    let view := t.merge order
    (view, { t with lexicals := some view })

/-- The bindings of a name that have a scope. -/
def locals (t : CachedTable) (order : VisitOrder) (name : String) : List Binding × CachedTable :=
  let view := t.lexicalView order
  (view.1.get name, view.2)

/-- The global definition of a name: the last one counts. -/
def global (t : CachedTable) (name : String) : Option Binding :=
  ((t.maps .globalDefinition).get name).getLast?

/-- Every binding with its collection. -/
def bindings (t : CachedTable) (order : VisitOrder) : List (Collection × Binding) :=
  Collection.all.flatMap fun c =>
    ((order.visit (some c) (t.maps c)).flatMap (·.2)).map fun b => (c, b)

/-- Number of bindings. -/
def size (t : CachedTable) : Nat :=
  Collection.all.foldl (fun n c => n + (t.maps c).size) 0

/-- The global names and every binding whose scope contains an offset, by name and place. -/
def visibleAt (t : CachedTable) (order : VisitOrder) (offset : Nat) : List Binding × CachedTable :=
  let globals := (order.visit (some .globalDefinition) (t.maps .globalDefinition)).filterMap
    (·.2.getLast?)
  let view := t.lexicalView order
  let visible := ((order.visit none view.1).flatMap (·.2)).filter (·.isVisibleAt offset)
  ((globals ++ visible).mergeSort Table.visibleOrder, view.2)

end CachedTable

end LexScope
