import LexScope.Document.Navigation

/-!
# Call graph

The nodes are the global definitions that can be called, and the document itself for calls outside
of all definitions. A form whose head belongs to such a definition is an edge from the innermost
definition around it. A definition that calls itself makes no edge.
-/

namespace LexScope

/-- A node of the call graph. -/
structure CallNode where
  /-- The defined name. -/
  name : String
  /-- What is defined; none for the document. -/
  kind : Option BindingKind
  /-- The defining form. -/
  span : Span
  /-- The defined name in it. -/
  selection : Span
  deriving DecidableEq

/-- A call form. -/
structure CallEdge where
  /-- Number of the node around the form. -/
  caller : Nat
  /-- Number of the node that is called. -/
  callee : Nat
  /-- The form. -/
  span : Span
  deriving DecidableEq

/-- Definitions and the calls between them. -/
structure CallGraph where
  /-- The nodes; number 0 is the document. -/
  nodes : List CallNode
  /-- The call forms in order. -/
  edges : List CallEdge

namespace CallGraph

/-- Number of the node for the document. -/
def document : Nat := 0

/-- Name of the node for the document. -/
def documentName : String := "document"

/-- The nodes with their numbers, without the document. -/
def numbered (nodes : List CallNode) : List (CallNode × Nat) := nodes.zipIdx.drop 1

/-- The first element whose key is least. -/
def firstMinBy {α : Type} (key : α → Nat) : List α → Option α
  | [] => none
  | a :: rest =>
    match firstMinBy key rest with
    | none => some a
    | some b => if key b < key a then some b else some a

/-- The smallest definition around an offset, or the document. -/
def innermostNode (nodes : List CallNode) (offset : Nat) : Nat :=
  match firstMinBy (fun n => n.1.span.length)
      ((numbered nodes).filter fun n => n.1.span.contains offset) with
  | some n => n.2
  | none => document

/-- The node that is defined at a span; of several the last. -/
def nodeDefinedAt (nodes : List CallNode) (selection : Span) : Option Nat :=
  ((numbered nodes).filter fun n => n.1.selection == selection).getLast?.map (·.2)

/-- The node whose name is at an offset. -/
def nodeNamedAt (g : CallGraph) (offset : Nat) : Option Nat :=
  ((numbered g.nodes).find? fun n => n.1.selection.touches offset).map (·.2)

/-- Spans by node number, in order of first appearance. -/
def addCall (node : Nat) (span : Span) : List (Nat × List Span) → List (Nat × List Span)
  | [] => [(node, [span])]
  | (n, spans) :: rest =>
    if n == node then (n, spans ++ [span]) :: rest else (n, spans) :: addCall node span rest

/-- The calls grouped by the node at one of their ends. -/
def groupCalls (other : CallEdge → Nat) (edges : List CallEdge) : List (Nat × List Span) :=
  edges.foldl (fun acc e => addCall (other e) e.span acc) []

/-- Who calls a node, each with its call forms. -/
def incoming (g : CallGraph) (node : Nat) : List (Nat × List Span) :=
  groupCalls (·.caller) (g.edges.filter (·.callee == node))

/-- Whom a node calls, each with the call forms. -/
def outgoing (g : CallGraph) (node : Nat) : List (Nat × List Span) :=
  groupCalls (·.callee) (g.edges.filter (·.caller == node))

end CallGraph

namespace Analysis

/-- The global definition that can be called and to which the symbol at an offset belongs. -/
def callableAt (a : Analysis) (offset : Nat) : Option Binding :=
  match a.targetAt offset with
  | some (_, b) => if b.isGlobal && b.kind.isFunctionLike then some b else none
  | none => none

/-- The nodes of the call graph: the document, then the definitions in order. -/
def callNodes (a : Analysis) : List CallNode :=
  let definitions := (a.table.globalDefinitions.filter (·.kind.isFunctionLike)).mergeSort
    fun x y => decide (x.site.start ≤ y.site.start)
  ⟨CallGraph.documentName, none, ⟨0, a.source.bytes.length⟩, .point 0⟩ ::
    definitions.map fun b => ⟨b.name, some b.kind, b.form, b.site⟩

/-- The edge of a form, if it is a call. -/
def callEdge (a : Analysis) (nodes : List CallNode) (p : Pair) : Option CallEdge :=
  match a.source.elements p with
  | [] => none
  | head :: _ =>
    if head.quoted || !head.isAtom then none
    else
      match (a.callableAt head.span.start).bind fun b => CallGraph.nodeDefinedAt nodes b.site with
      | none => none
      | some callee =>
        let caller := CallGraph.innermostNode nodes p.opening
        if caller == callee then none else some ⟨caller, callee, p.span⟩

/-- The call graph of a document. Calls in parts that the mode for collecting leaves out do not
count. -/
def callGraph (a : Analysis) : CallGraph :=
  let nodes := a.callNodes
  let excluded := a.excluded a.settings.collection
  let forms := a.source.layout.pairs.pairs.filter fun p => !excluded.contains p.opening
  ⟨nodes, forms.filterMap (a.callEdge nodes)⟩

end Analysis

end LexScope
