import LexScope.Document.CallGraph
import LexScope.Text.Lines

/-!
# Listings

The bindings and the calls of a document as lines of text, with lines and columns from one.
-/

namespace LexScope

namespace Lines

/-- The place of an offset as `line:column`. -/
def renderPosition (l : Lines) (offset : Nat) : String :=
  let p := l.position offset
  s!"{p.line + 1}:{p.character + 1}"

/-- The places of both ends of a span. -/
def renderSpan (l : Lines) (s : Span) : String :=
  l.renderPosition s.start ++ "-" ++ l.renderPosition s.stop

end Lines

namespace Analysis

/-- Order by place, then by the kind in words. -/
def listingOrder (a b : Binding) : Bool :=
  decide (a.site.start < b.site.start) ||
    (a.site.start == b.site.start && !decide (b.kind.name < a.kind.name))

/-- The line of a binding: place, kind, name, and for a local one its container and scope. -/
def bindingLine (lines : Lines) (b : Binding) : String :=
  let container := (b.container.map ("\tin " ++ ·)).getD ""
  let scope := (b.scope.map fun s => "\tscope " ++ lines.renderSpan s).getD ""
  lines.renderPosition b.site.start ++ "\t" ++ b.kind.name ++ "\t" ++ b.name ++ container ++
    scope ++ "\n"

/-- The bindings of a document, a line each. -/
def listBindings (a : Analysis) : String :=
  let lines := Lines.ofBytes a.source.bytes
  String.join ((a.table.toList.mergeSort listingOrder).map (bindingLine lines))

/-- The name of a node. -/
def nodeName (g : CallGraph) (node : Nat) : String := ((g.nodes[node]?).map (·.name)).getD ""

/-- The calls of a document, a line each. -/
def listCalls (a : Analysis) : String :=
  let lines := Lines.ofBytes a.source.bytes
  let g := a.callGraph
  String.join (g.edges.map fun e =>
    nodeName g e.caller ++ " -> " ++ nodeName g e.callee ++ "\t" ++
      lines.renderPosition e.span.start ++ "\n")

end Analysis

end LexScope
