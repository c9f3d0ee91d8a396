import LexScope.Form.Element
import LexScope.Text.CaseMap

/-!
# The tree of a form

A source is a document with its layout. `Source.nodes` reads the elements between two offsets
together with everything inside them. A nested group lies strictly between the two offsets
(`nested_lt`), so the recursion ends.
-/

namespace LexScope

/-- An element with the elements inside it. -/
inductive Node where
  /-- An element and its items; only groups have items. -/
  | mk (element : Element) (items : List Node)

namespace Node

/-- The element itself. -/
def element : Node → Element
  | mk e _ => e

/-- The elements inside it. -/
def items : Node → List Node
  | mk _ items => items

/-- The first offset after the element. -/
def stop (n : Node) : Nat := n.element.stop

/-- A quote or backquote stands before the element. -/
def quoted (n : Node) : Bool := n.element.quoted

end Node

/-- A document with its layout. -/
structure Source where
  /-- The bytes of the document. -/
  bytes : List UInt8
  /-- Their layout. -/
  layout : Layout

/-- A group is read where it opens, and closes before `stop`. -/
theorem Reading.bounds_of_group {layout : Layout} {stop pos opened more : Nat} {quoted : Bool}
    {e : Element} {p : Pair}
    (h : Reading.group layout stop pos opened quoted = some (some (.element e), more))
    (hp : e.group = some p) : p.opening = opened ∧ p.closing < stop := by
  unfold Reading.group at h
  split at h
  · simp at h
  · split at h
    · simp only [Option.some.injEq, Prod.mk.injEq, Reading.element.injEq] at h
      obtain ⟨rfl, -⟩ := h
      simp only [Element.group, Option.some.injEq] at hp
      subst hp
      exact ⟨rfl, by assumption⟩
    · simp at h

/-- A group that a step reads opens no earlier than the step starts and closes before `stop`. -/
theorem Reading.bounds_of_step {layout : Layout} {stop pos more : Nat} {b : UInt8}
    {rest : List UInt8} {e : Element} {p : Pair}
    (h : Reading.step layout stop pos b rest = some (some (.element e), more))
    (hp : e.group = some p) : pos ≤ p.opening ∧ p.closing < stop := by
  unfold Reading.step at h
  split at h
  · simp at h
  split at h
  · simp at h
  split at h
  · simp at h
  unfold Reading.datum at h
  split at h
  · simp at h
  split at h
  · have := Reading.bounds_of_group h hp
    omega
  split at h
  · have := Reading.bounds_of_group h hp
    omega
  split at h
  · simp at h
  split at h
  · simp only [Option.some.injEq, Prod.mk.injEq, Reading.element.injEq] at h
    obtain ⟨rfl, -⟩ := h
    simp [Element.group] at hp
  split at h
  · simp at h
  · simp only [Option.some.injEq, Prod.mk.injEq, Reading.element.injEq] at h
    obtain ⟨rfl, -⟩ := h
    simp [Element.group] at hp

/-- Groups among the readings lie between the two offsets. -/
theorem bounds_of_mem_readings {layout : Layout} {stop pos : Nat} {bytes : List UInt8}
    {e : Element} {p : Pair} (h : .element e ∈ readings layout stop pos bytes)
    (hp : e.group = some p) : pos ≤ p.opening ∧ p.closing < stop := by
  fun_induction readings layout stop pos bytes with
  | case1 => simp at h
  | case2 => simp at h
  | case3 pos b rest read more hstep ih =>
    rcases List.mem_append.1 h with hread | hrest
    · cases read with
      | none => simp at hread
      | some r =>
        simp only [Option.toList_some, List.mem_singleton] at hread
        subst hread
        exact Reading.bounds_of_step hstep hp
    · have := ih hrest
      omega

/-- Every element is one of the readings. -/
theorem mem_readings_of_mem_elementsOf {e : Element} {found : List Reading}
    (h : e ∈ elementsOf found) : .element e ∈ found := by
  fun_induction elementsOf found with
  | case1 e' rest ih =>
    rcases List.mem_cons.1 h with rfl | hrest
    · exact List.mem_cons_self
    · exact List.mem_cons_of_mem _ (ih hrest)
  | case2 _ _ rest ih => simp [ih h]
  | case3 => simp at h

/-- The stretch inside a nested group is shorter than the stretch it was read from. -/
theorem nested_lt {bytes : List UInt8} {layout : Layout} {pos stop : Nat} {e : Element} {p : Pair}
    (h : e ∈ elementsBetween bytes layout pos stop) (hp : e.group = some p) :
    p.closing - (p.opening + 1) < stop - pos := by
  have hread := mem_readings_of_mem_elementsOf h
  have hbounds := bounds_of_mem_readings hread hp
  rcases Nat.lt_or_ge pos stop with hlt | hge
  · omega
  · have hempty : window bytes pos (min stop bytes.length) = [] := by
      simp only [window, List.drop_eq_nil_iff, List.length_take]
      omega
    rw [hempty, readings] at hread
    simp at hread

namespace Source

/-- Read a document. -/
def ofText (text : String) : Source :=
  let bytes := Utf8.bytes text
  ⟨bytes, .ofBytes bytes⟩

/-- The elements directly inside a pair. -/
def elements (src : Source) (p : Pair) : List Element :=
  elementsBetween src.bytes src.layout (p.opening + 1) p.closing

/-- The elements between two offsets with all that is inside them. -/
def nodes (src : Source) (pos stop : Nat) : List Node :=
  (elementsBetween src.bytes src.layout pos stop).attach.map fun e =>
    match hg : e.val.group with
    | some p => .mk e.val (src.nodes (p.opening + 1) p.closing)
    | none => .mk e.val []
termination_by stop - pos
decreasing_by exact nested_lt e.property hg

/-- The elements inside an element, with all that is inside them. -/
def inside (src : Source) (e : Element) : List Node :=
  match e.group with
  | some p => src.nodes (p.opening + 1) p.closing
  | none => []

/-- Nodes are elements with what is inside them. -/
theorem nodes_eq (src : Source) (pos stop : Nat) :
    src.nodes pos stop =
      (elementsBetween src.bytes src.layout pos stop).map fun e => .mk e (src.inside e) := by
  rw [nodes, ← List.attach_map_val (f := fun e => Node.mk e (src.inside e))]
  apply List.map_congr_left
  intro e _
  unfold inside
  split <;> simp [*]

/-- The items of a form. -/
def items (src : Source) (p : Pair) : List Node := src.nodes (p.opening + 1) p.closing

/-- The text of a span. -/
def slice (src : Source) (s : Span) : String := Utf8.slice src.bytes s

/-- The text of an element, without the markers before it. -/
def textOf (src : Source) (e : Element) : String := src.slice e.span

/-- The text of a node, without the markers before it. -/
def textAt (src : Source) (n : Node) : String := src.textOf n.element

end Source

end LexScope
