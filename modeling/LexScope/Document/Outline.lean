import LexScope.Document.Analysis

/-!
# Outline of a document

The bindings of a document as a forest. Definitions span their forms, parameters and variables their
names, and each form that binds variables without a name of its own becomes a container, numbered
among those of its keyword. What lies inside the span of a node becomes its child.
-/

namespace LexScope

/-- A line of the outline. -/
structure OutlineItem where
  /-- The name, or keyword and number of a container. -/
  name : String
  /-- What is bound; none for a container. -/
  kind : Option BindingKind
  /-- The part of the document it stands for. -/
  span : Span
  /-- The part to show when it is chosen. -/
  selection : Span
  deriving DecidableEq

/-- An item with the items inside it. -/
inductive OutlineTree where
  /-- An item and its children in order. -/
  | node (item : OutlineItem) (children : List OutlineTree)

namespace Outline

/-- The item of a binding that stands for a span. -/
def leaf (b : Binding) (span : Span) : OutlineItem := ⟨b.name, some b.kind, span, b.site⟩

/-- The bindings that share a form, in order. -/
structure Container where
  /-- The form. -/
  form : Span
  /-- Its keyword. -/
  keyword : String
  /-- Its bindings. -/
  members : List Binding

/-- Add a binding to the container of its form. -/
def addMember (b : Binding) : List Container → List Container
  | [] => [⟨b.form, b.container.getD "", [b]⟩]
  | c :: rest =>
    if c.form == b.form then { c with members := c.members ++ [b] } :: rest
    else c :: addMember b rest

/-- The containers of some bindings in order of their forms. -/
def containers (bindings : List Binding) : List Container :=
  (bindings.foldl (fun cs b => addMember b cs) []).mergeSort fun a b =>
    decide (a.form.start ≤ b.form.start)

/-- The items of the containers and their members; `before` are the keywords of earlier
containers. -/
def containerItems (before : List String) : List Container → List OutlineItem
  | [] => []
  | c :: rest =>
    let number := before.count c.keyword + 1
    (c.members.map fun b => leaf b b.site) ++
      ⟨s!"{c.keyword} {number}", none, c.form, c.form⟩ ::
        containerItems (c.keyword :: before) rest

/-- All items, in no particular order. -/
def items (t : Table) : List OutlineItem :=
  ((t.globalDefinitions ++ t.localDefinitions).map fun b => leaf b (b.form.hull b.site)) ++
    ((t.globalParameters ++ t.localParameters).map fun b => leaf b b.site) ++
    containerItems [] (containers (t.anonymousVariables ++ t.singleVariables ++ t.loopBindings))

/-- Parents come before their children: the earlier start first, then the longer span, then the
earlier selection. -/
def order (a b : OutlineItem) : Bool :=
  decide (a.span.start < b.span.start) ||
    (a.span.start == b.span.start &&
      (decide (b.span.stop < a.span.stop) ||
        (a.span.stop == b.span.stop && decide (a.selection.start ≤ b.selection.start))))

/-- An item whose children are still being found, the newest child first. -/
structure Opened where
  /-- The item. -/
  item : OutlineItem
  /-- Its children so far. -/
  children : List OutlineTree

/-- The finished tree of an opened item. -/
def Opened.finish (o : Opened) : OutlineTree := .node o.item o.children.reverse

/-- Opened items, innermost first, and the finished trees outside them, newest first. -/
structure State where
  /-- Opened items. -/
  stack : List Opened := []
  /-- Finished trees. -/
  roots : List OutlineTree := []

/-- Finish the opened items that do not cover `span`. -/
def close (span : Span) (roots : List OutlineTree) : List Opened → State
  | [] => ⟨[], roots⟩
  | top :: rest =>
    if top.item.span.covers span then ⟨top :: rest, roots⟩
    else
      match rest with
      | [] => ⟨[], top.finish :: roots⟩
      | parent :: rest' =>
        close span roots ({ parent with children := top.finish :: parent.children } :: rest')
termination_by stack => stack.length

/-- Finish every opened item. -/
def closeAll (roots : List OutlineTree) : List Opened → List OutlineTree
  | [] => roots.reverse
  | [top] => (top.finish :: roots).reverse
  | top :: parent :: rest =>
    closeAll roots ({ parent with children := top.finish :: parent.children } :: rest)
termination_by stack => stack.length

/-- Place the next item. -/
def place (st : State) (item : OutlineItem) : State :=
  let closed := close item.span st.roots st.stack
  { closed with stack := ⟨item, []⟩ :: closed.stack }

/-- The forest of some items. -/
def nest (items : List OutlineItem) : List OutlineTree :=
  let st := (items.mergeSort order).foldl place {}
  closeAll st.roots st.stack

end Outline

/-- The outline of a document. -/
def Analysis.outline (a : Analysis) : List OutlineTree := Outline.nest (Outline.items a.table)

end LexScope
