import LexScope.Server.Protocol

/-!
# Answers about a document

The questions that an editor asks about one document, answered as JSON. A place on a line that the
document does not have gets no answer.
-/

namespace LexScope.Query

/-- The lines of an analysed document. -/
def linesOf (a : Analysis) : Lines := .ofBytes a.source.bytes

/-- The offset of a place, if the document has its line. -/
def offsetOf (a : Analysis) (p : Position) : Option Nat := ((linesOf a).offset p).toOption

/-- The proposals for completion at a place. -/
def completion (p : Position) (a : Analysis) : Option Json :=
  (offsetOf a p).map fun offset => .array ((a.completions offset).map Protocol.completion)

/-- The outline. -/
def outline (a : Analysis) : Json := .array (Protocol.documentSymbols (linesOf a) a.outline)

/-- The highlights. -/
def highlights (a : Analysis) : Json := Protocol.semanticTokens a.highlights

/-- Where the symbol at a place is defined. -/
def definition (uri : String) (p : Position) (a : Analysis) : Option Json :=
  ((offsetOf a p).bind a.definition).map (Protocol.location uri (linesOf a))

/-- Where the symbol at a place occurs. -/
def references (uri : String) (p : Position) (withDefinition : Bool) (a : Analysis) : Option Json :=
  (offsetOf a p).map fun offset =>
    .array ((a.references offset withDefinition).map (Protocol.location uri (linesOf a)))

/-- A node of the call graph by its number. -/
def callItem? (g : CallGraph) (uri : String) (lines : Lines) (node : Nat) : Option Json :=
  (g.nodes[node]?).map (Protocol.callItem uri lines)

/-- The node of the definition that can be called and to which the symbol at an offset belongs. -/
def callItemAt (uri : String) (a : Analysis) (offset : Nat) : Option Json :=
  (a.callableAt offset).bind fun b =>
    let g := a.callGraph
    (g.nodeNamedAt b.site.start).bind (callItem? g uri (linesOf a))

/-- The node to start from in the call graph, as a list of one. -/
def prepareCalls (uri : String) (a : Analysis) (offset : Nat) : Option Json :=
  (callItemAt uri a offset).map fun item => .array [item]

/-- The node that an editor means: the document if it is marked so, and otherwise the one whose name
is where the given selection starts. -/
def nodeOfItem (g : CallGraph) (lines : Lines) (item : Protocol.CallItem) : Option Nat :=
  if item.isDocument then some CallGraph.document
  else (lines.offset item.selectionStart).toOption.bind g.nodeNamedAt

/-- The calls that are found at one side of a node as they are answered, where `side` is what the
other node is called. -/
def answer (side uri : String) (a : Analysis) (found : List (Nat × List Span)) : Json :=
  .array (found.filterMap fun (other, spans) =>
    (callItem? a.callGraph uri (linesOf a) other).map fun j =>
      .object [(side, j), ("fromRanges", .array (spans.map (Protocol.range (linesOf a))))])

/-- The calls at one side of the node that an editor means; there are none if it means no node. -/
def calls (side : String) (find : CallGraph → Nat → List (Nat × List Span))
    (item : Protocol.CallItem) (a : Analysis) : Json :=
  match nodeOfItem a.callGraph (linesOf a) item with
  | none => .array []
  | some node => answer side item.uri a (find a.callGraph node)

/-- Who calls a node. -/
def incomingCalls (item : Protocol.CallItem) (a : Analysis) : Json :=
  calls "from" CallGraph.incoming item a

/-- Whom a node calls. -/
def outgoingCalls (item : Protocol.CallItem) (a : Analysis) : Json :=
  calls "to" CallGraph.outgoing item a

end LexScope.Query
