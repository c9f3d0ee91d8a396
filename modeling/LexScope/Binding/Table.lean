import LexScope.Binding.Basic
import LexScope.Span.Set

/-!
# The table of bindings

All bindings of a document, in seven collections by the kind of form that introduces them. Each
collection keeps the order of insertion; the views put the collections one after the other in a
fixed order, and that order decides between bindings that nothing else tells apart.
-/

namespace LexScope

/-- The collections of the table. -/
inductive Collection where
  /-- Global definitions. -/
  | globalDefinition
  /-- Parameters of global definitions. -/
  | globalParameter
  /-- Names of local functions and macros. -/
  | localDefinition
  /-- Parameters of local functions. -/
  | localParameter
  /-- Variables of `let`, `do`, `lambda` and the forms like them. -/
  | anonymousVariable
  /-- Variables of forms with one variable. -/
  | singleVariable
  /-- Variables and names of `loop`. -/
  | loopBinding
  deriving DecidableEq

namespace Collection

/-- The collections whose bindings have a scope, in order. -/
def lexical : List Collection :=
  [globalParameter, localDefinition, localParameter, anonymousVariable, singleVariable, loopBinding]

/-- All collections in order. -/
def all : List Collection := globalDefinition :: lexical

end Collection

/-- What collecting adds to the table. -/
inductive Entry where
  /-- A binding of a collection. -/
  | binding (c : Collection) (b : Binding)
  /-- The step form of a `do` variable. -/
  | stepForm (s : Span)

/-- The bindings of a document. -/
structure Table where
  /-- Global definitions. -/
  globalDefinitions : List Binding := []
  /-- Parameters of global definitions. -/
  globalParameters : List Binding := []
  /-- Names of local functions and macros. -/
  localDefinitions : List Binding := []
  /-- Parameters of local functions. -/
  localParameters : List Binding := []
  /-- Variables of `let`, `do`, `lambda` and the forms like them. -/
  anonymousVariables : List Binding := []
  /-- Variables of forms with one variable. -/
  singleVariables : List Binding := []
  /-- Variables and names of `loop`. -/
  loopBindings : List Binding := []
  /-- Step forms of `do` variables. -/
  steps : List Span := []

namespace Table

/-- The bindings of a collection in order of insertion. -/
def get (t : Table) : Collection → List Binding
  | .globalDefinition => t.globalDefinitions
  | .globalParameter => t.globalParameters
  | .localDefinition => t.localDefinitions
  | .localParameter => t.localParameters
  | .anonymousVariable => t.anonymousVariables
  | .singleVariable => t.singleVariables
  | .loopBinding => t.loopBindings

/-- Add a binding at the end of a collection. -/
def insert (t : Table) (c : Collection) (b : Binding) : Table :=
  match c with
  | .globalDefinition => { t with globalDefinitions := t.globalDefinitions ++ [b] }
  | .globalParameter => { t with globalParameters := t.globalParameters ++ [b] }
  | .localDefinition => { t with localDefinitions := t.localDefinitions ++ [b] }
  | .localParameter => { t with localParameters := t.localParameters ++ [b] }
  | .anonymousVariable => { t with anonymousVariables := t.anonymousVariables ++ [b] }
  | .singleVariable => { t with singleVariables := t.singleVariables ++ [b] }
  | .loopBinding => { t with loopBindings := t.loopBindings ++ [b] }

/-- Add a step form. -/
def insertStep (t : Table) (s : Span) : Table := { t with steps := t.steps ++ [s] }

/-- Add an entry. -/
def add (t : Table) : Entry → Table
  | .binding c b => t.insert c b
  | .stepForm s => t.insertStep s

/-- The offsets inside step forms. -/
def stepForms (t : Table) : SpanSet := .ofList t.steps

/-- Every binding, collection by collection. -/
def toList (t : Table) : List Binding := Collection.all.flatMap t.get

/-- Number of bindings. -/
def size (t : Table) : Nat := t.toList.length

/-- Every binding with a scope, collection by collection. -/
def lexicals (t : Table) : List Binding := Collection.lexical.flatMap t.get

/-- The bindings of a name that have a scope. -/
def locals (t : Table) (name : String) : List Binding := t.lexicals.filter (·.name == name)

/-- The global definition of a name: the last one counts. -/
def global (t : Table) (name : String) : Option Binding :=
  (t.globalDefinitions.filter (·.name == name)).getLast?

/-- The last binding of each name. -/
def lastOfEach : List Binding → List Binding
  | [] => []
  | b :: rest => if rest.any (·.name == b.name) then lastOfEach rest else b :: lastOfEach rest

/-- Order by name, and by place where the names agree. -/
def visibleOrder (a b : Binding) : Bool :=
  decide (a.name < b.name) || (a.name == b.name && decide (a.site.start ≤ b.site.start))

/-- The global names and every binding whose scope contains an offset, by name and place. -/
def visibleAt (t : Table) (offset : Nat) : List Binding :=
  (lastOfEach t.globalDefinitions ++ t.lexicals.filter (·.isVisibleAt offset)).mergeSort
    visibleOrder

/-- What is added to a collection comes at its end. -/
@[simp] theorem get_insert_self (t : Table) (c : Collection) (b : Binding) :
    (t.insert c b).get c = t.get c ++ [b] := by
  cases c <;> rfl

/-- Adding to one collection leaves the others as they are. -/
@[simp] theorem get_insert_of_ne (t : Table) {c d : Collection} (b : Binding) (h : d ≠ c) :
    (t.insert c b).get d = t.get d := by
  cases c <;> cases d <;> first | rfl | exact absurd rfl h

/-- Recording the scope of a step form leaves every collection as it is. -/
@[simp] theorem get_insertStep (t : Table) (s : Span) (c : Collection) :
    (t.insertStep s).get c = t.get c := by
  cases c <;> rfl

end Table

end LexScope
