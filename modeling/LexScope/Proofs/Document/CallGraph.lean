import LexScope.Document.CallGraph
import LexScope.Proofs.Binding.Callables
import LexScope.Proofs.Document.Navigation

/-!
# What the call graph says

A node is found by the place of its name, and the caller of a form by the length of the definitions
around it. Both answers are unique: names of definitions stand apart, and definitions around one
offset lie inside each other. The two lists of calls group the same edges, by one end or by the
other.
-/

namespace LexScope

open Utf8

namespace CallGraph

/-! ## Nodes by their numbers -/

/-- The node of a definition. -/
def nodeOf (b : Binding) : CallNode := ⟨b.name, some b.kind, b.form, b.site⟩

/-- The number is that of the node of a definition. -/
structure IsNodeOf (nodes : List CallNode) (k : Nat) (b : Binding) : Prop where
  /-- It is not the document. -/
  definition : k ≠ document
  /-- The node is made of the definition. -/
  node : nodes[k]? = some (nodeOf b)

/-- The node is the smallest one around an offset, and the document only where there is no
definition around the offset. -/
structure Encloses (nodes : List CallNode) (offset k : Nat) : Prop where
  /-- It contains the offset, and each other node that does covers it. -/
  innermost : ∃ n, nodes[k]? = some n ∧ n.span.contains offset = true ∧
    ∀ m ∈ nodes, m.span.contains offset = true → m.span.covers n.span = true
  /-- It is the document exactly if no definition contains the offset. -/
  document : k = document ↔
    ∀ i n, i ≠ document → nodes[i]? = some n → n.span.contains offset = false

/-- The nodes are the document and, after it, definitions that stand apart and in the document. -/
structure Arranged (nodes : List CallNode) (whole : Span) (definitions : List Binding) : Prop where
  /-- The document comes first. -/
  first : nodes[document]? = some ⟨documentName, none, whole, .point 0⟩
  /-- The others are the nodes of the definitions. -/
  others : ∀ n, (∃ k ≠ document, nodes[k]? = some n) ↔ ∃ b ∈ definitions, n = nodeOf b
  /-- Two definitions have spans of their own, and names that leave a gap. -/
  apart : ∀ i j m n, i ≠ document → j ≠ document → i ≠ j → nodes[i]? = some m →
    nodes[j]? = some n → m.span ≠ n.span ∧
      (m.selection.stop < n.selection.start ∨ n.selection.stop < m.selection.start)
  /-- No name is empty. -/
  proper : ∀ b ∈ definitions, b.site.start < b.site.stop
  /-- The spans nest. -/
  nested : ∀ m ∈ nodes, ∀ n ∈ nodes, m.span.Laminar n.span
  /-- The document covers them all. -/
  covered : ∀ n ∈ nodes, whole.covers n.span = true

section Numbers

variable {nodes : List CallNode} {n : CallNode} {k offset : Nat}

/-- The numbered nodes are those of the graph but the document. -/
theorem mem_numbered : (n, k) ∈ numbered nodes ↔ k ≠ document ∧ nodes[k]? = some n := by
  cases nodes with
  | nil => simp [numbered]
  | cons first rest =>
    rw [numbered, List.zipIdx_cons, List.drop_succ_cons, List.drop_zero,
      List.mk_mem_zipIdx_iff_le_and_getElem?_sub]
    cases k with
    | zero => simp [document]
    | succ k => simp [document]

variable {α : Type} {key : α → Nat} {l : List α} {a : α}

private theorem firstMinBy_eq_none (h : firstMinBy key l = none) : l = [] := by
  cases l with
  | nil => rfl
  | cons x rest =>
    rw [firstMinBy] at h
    split at h
    · cases h
    · split at h <;> cases h

/-- What is found is in the list, and nothing there has a smaller key. -/
theorem firstMinBy_eq_some (h : firstMinBy key l = some a) : a ∈ l ∧ ∀ b ∈ l, key a ≤ key b := by
  induction l generalizing a with
  | nil => cases h
  | cons x rest ih =>
    rw [firstMinBy] at h
    split at h
    · next hnone =>
      rw [firstMinBy_eq_none hnone, ← Option.some.inj h]
      simp
    · next b hb =>
      obtain ⟨hmem, hle⟩ := ih hb
      split at h
      · next hlt =>
        rw [← Option.some.inj h]
        exact ⟨List.mem_cons_of_mem _ hmem, List.forall_mem_cons.2 ⟨Nat.le_of_lt hlt, hle⟩⟩
      · next hge =>
        rw [← Option.some.inj h]
        refine ⟨List.mem_cons_self, List.forall_mem_cons.2 ⟨Nat.le_refl _, fun c hc => ?_⟩⟩
        exact Nat.le_trans (Nat.not_lt.1 hge) (hle c hc)

end Numbers

/-! ## Nodes made of definitions -/

section Definitions

variable {first : CallNode} {definitions : List Binding}

private theorem exists_getElem?_cons_nodeOf (n : CallNode) :
    (∃ k ≠ document, (first :: definitions.map nodeOf)[k]? = some n) ↔
      ∃ b ∈ definitions, n = nodeOf b := by
  constructor
  · rintro ⟨k, hk, hn⟩
    obtain ⟨i, rfl⟩ := Nat.exists_eq_succ_of_ne_zero hk
    rw [List.getElem?_cons_succ] at hn
    obtain ⟨b, hb, rfl⟩ := List.mem_map.1 (List.mem_of_getElem? hn)
    exact ⟨b, hb, rfl⟩
  · rintro ⟨b, hb, rfl⟩
    obtain ⟨i, hi⟩ := List.mem_iff_getElem?.1 (List.mem_map_of_mem hb)
    exact ⟨i + 1, Nat.succ_ne_zero i, hi⟩

/-- Definitions that stand apart have nodes that stand apart. -/
theorem apart_of_cons_nodeOf (hapart : definitions.Pairwise Binding.Apart) {i j : Nat}
    {m n : CallNode} (hi : i ≠ document) (hj : j ≠ document) (hne : i ≠ j)
    (hm : (first :: definitions.map nodeOf)[i]? = some m)
    (hn : (first :: definitions.map nodeOf)[j]? = some n) :
    m.span ≠ n.span ∧
      (m.selection.stop < n.selection.start ∨ n.selection.stop < m.selection.start) := by
  rw [List.pairwise_iff_getElem] at hapart
  obtain ⟨i, rfl⟩ := Nat.exists_eq_succ_of_ne_zero hi
  obtain ⟨j, rfl⟩ := Nat.exists_eq_succ_of_ne_zero hj
  rw [List.getElem?_cons_succ, List.getElem?_map, Option.map_eq_some_iff] at hm hn
  obtain ⟨b, hb, rfl⟩ := hm
  obtain ⟨d, hd, rfl⟩ := hn
  obtain ⟨hilt, rfl⟩ := List.getElem?_eq_some_iff.1 hb
  obtain ⟨hjlt, rfl⟩ := List.getElem?_eq_some_iff.1 hd
  have hbd : (definitions[i]).Apart definitions[j] := by
    rcases Nat.lt_or_gt_of_ne (fun h => hne (congrArg Nat.succ h)) with h | h
    · exact hapart i j hilt hjlt h
    · exact (hapart j i hjlt hilt h).symm
  exact ⟨hbd.form, hbd.site⟩

end Definitions

/-! ## Nodes that are arranged -/

/-- Of two spans around an offset that are nested or disjoint, the longer one covers the other. -/
theorem covers_of_length_le {s t : Span} (h : s.Laminar t) {p : Nat} (hs : s.contains p = true)
    (ht : t.contains p = true) (hle : s.length ≤ t.length) : t.covers s = true := by
  rw [Span.contains_iff] at hs ht
  unfold Span.Laminar at h
  simp only [Span.covers_iff, Span.length] at h hle ⊢
  omega

namespace Arranged

variable {nodes : List CallNode} {whole : Span} {definitions : List Binding}
  (h : Arranged nodes whole definitions) {b : Binding} {k offset : Nat}

include h

/-- Every definition has a node of the graph. -/
theorem exists_isNodeOf (hb : b ∈ definitions) : ∃ k, IsNodeOf nodes k b := by
  obtain ⟨k, hk, hnode⟩ := (h.others (nodeOf b)).2 ⟨b, hb, rfl⟩
  exact ⟨k, hk, hnode⟩

/-- A node of a definition is the only one where the name stands. -/
theorem eq_of_selection (hb : b ∈ definitions) (hk : IsNodeOf nodes k b) {i : Nat} {n : CallNode}
    (hi : i ≠ document) (hn : nodes[i]? = some n) (hselection : n.selection = b.site) : i = k := by
  by_contra hne
  have hgap := (h.apart i k n _ hi hk.definition hne hn hk.node).2
  have hproper := h.proper b hb
  simp only [hselection, nodeOf] at hgap
  omega

/-- A definition is found by the place of its name. -/
theorem nodeDefinedAt_iff (hb : b ∈ definitions) :
    nodeDefinedAt nodes b.site = some k ↔ IsNodeOf nodes k b := by
  obtain ⟨i, hi⟩ := h.exists_isNodeOf hb
  have hmem {n : CallNode} {j : Nat} (hj : (n, j) ∈
      (numbered nodes).filter fun n => n.1.selection == b.site) : j = i := by
    obtain ⟨hnumbered, hselection⟩ := List.mem_filter.1 hj
    obtain ⟨hne, hn⟩ := mem_numbered.1 hnumbered
    exact h.eq_of_selection hb hi hne hn (eq_of_beq hselection)
  have hfound : nodeDefinedAt nodes b.site = some i := by
    have hlisted : (nodeOf b, i) ∈ (numbered nodes).filter fun n => n.1.selection == b.site :=
      List.mem_filter.2 ⟨mem_numbered.2 ⟨hi.definition, hi.node⟩, beq_self_eq_true _⟩
    obtain ⟨⟨n, j⟩, hlast⟩ := Option.isSome_iff_exists.1
      (List.getLast?_isSome.2 (List.ne_nil_of_mem hlisted))
    rw [nodeDefinedAt, hlast, Option.map_some, hmem (List.mem_of_getLast? hlast)]
  rw [hfound, Option.some.injEq]
  constructor
  · rintro rfl
    exact hi
  · exact fun hk => h.eq_of_selection hb hk hi.definition hi.node rfl

/-- What is found around an offset of the document is the smallest node there. -/
theorem encloses_innermostNode (hoffset : whole.contains offset = true) :
    Encloses nodes offset (innermostNode nodes offset) := by
  have hcontains {n : CallNode} {k : Nat} : (n, k) ∈
      (numbered nodes).filter (fun n => n.1.span.contains offset) ↔
        (k ≠ document ∧ nodes[k]? = some n) ∧ n.span.contains offset = true := by
    rw [List.mem_filter, mem_numbered]
  have hnodes {m : CallNode} (hm : m ∈ nodes) :
      m = ⟨documentName, none, whole, .point 0⟩ ∨ ∃ i ≠ document, nodes[i]? = some m := by
    obtain ⟨i, hi⟩ := List.mem_iff_getElem?.1 hm
    by_cases hzero : i = document
    · rw [hzero, h.first] at hi
      exact .inl (Option.some.inj hi).symm
    · exact .inr ⟨i, hzero, hi⟩
  unfold innermostNode
  cases hfirst : firstMinBy (fun n => n.1.span.length)
      ((numbered nodes).filter fun n => n.1.span.contains offset) with
  | none =>
    have hnone : ∀ i n, i ≠ document → nodes[i]? = some n → n.span.contains offset = false := by
      intro i n hi hn
      rw [Bool.eq_false_iff]
      intro hin
      have := hcontains.2 ⟨⟨hi, hn⟩, hin⟩
      rw [firstMinBy_eq_none hfirst] at this
      cases this
    refine ⟨⟨_, h.first, hoffset, fun m hm hin => ?_⟩, iff_of_true rfl hnone⟩
    rcases hnodes hm with rfl | ⟨i, hi, hm⟩
    · exact Span.covers_iff.2 ⟨Nat.le_refl _, Nat.le_refl _⟩
    · rw [hnone i m hi hm] at hin
      cases hin
  | some found =>
    obtain ⟨n, k⟩ := found
    obtain ⟨hmem, hleast⟩ := firstMinBy_eq_some hfirst
    obtain ⟨⟨hk, hn⟩, hin⟩ := hcontains.1 hmem
    refine ⟨⟨n, hn, hin, fun m hm hmin => ?_⟩, iff_of_false hk fun hnone => ?_⟩
    · rcases hnodes hm with rfl | ⟨i, hi, hget⟩
      · exact h.covered n (List.mem_of_getElem? hn)
      · exact covers_of_length_le (h.nested n (List.mem_of_getElem? hn) m hm) hin hmin
          (hleast (m, i) (hcontains.2 ⟨⟨hi, hget⟩, hmin⟩))
    · rw [hnone k n hk hn] at hin
      cases hin

/-- Only one node is the smallest one around an offset. -/
theorem eq_of_encloses {i : Nat} (hi : Encloses nodes offset i) (hk : Encloses nodes offset k) :
    i = k := by
  obtain ⟨m, hm, hmin, hmleast⟩ := hi.innermost
  obtain ⟨n, hn, hnin, hnleast⟩ := hk.innermost
  by_cases hzero : i = document
  · rw [hzero, hk.document.2 (hi.document.1 hzero)]
  · have hkzero : k ≠ document := fun h => hzero (hi.document.2 (hk.document.1 h))
    by_contra hne
    refine (h.apart i k m n hzero hkzero hne hm hn).1 ?_
    have hmn := Span.covers_iff.1 (hnleast m (List.mem_of_getElem? hm) hmin)
    have hnm := Span.covers_iff.1 (hmleast n (List.mem_of_getElem? hn) hnin)
    cases hms : m.span
    cases hns : n.span
    simp only [hms, hns] at hmn hnm
    rw [Nat.le_antisymm hmn.1 hnm.1, Nat.le_antisymm hnm.2 hmn.2]

end Arranged

/-! ## Calls by one of their ends -/

section Groups

variable {calls : List (Nat × List Span)} {x y : Nat} {span : Span}

private theorem lookup_addCall : (addCall x span calls).lookup y =
    if y = x then some ((calls.lookup y).getD [] ++ [span]) else calls.lookup y := by
  induction calls with
  | nil =>
    by_cases hy : y = x
    · simp [addCall, hy]
    · simp [addCall, List.lookup_cons, beq_false_of_ne hy, hy]
  | cons c rest ih =>
    obtain ⟨n, spans⟩ := c
    by_cases hn : n = x
    · subst hn
      by_cases hy : y = n
      · simp [addCall, hy]
      · simp [addCall, List.lookup_cons, beq_false_of_ne hy, hy]
    · by_cases hy : y = n
      · have hyx : y ≠ x := hy ▸ hn
        simp [addCall, hn, hy]
      · simp [addCall, List.lookup_cons, hn, beq_false_of_ne hy, ih]

private theorem keys_addCall : (addCall x span calls).map (·.1) =
    if x ∈ calls.map (·.1) then calls.map (·.1) else calls.map (·.1) ++ [x] := by
  induction calls with
  | nil => simp [addCall]
  | cons c rest ih =>
    obtain ⟨n, spans⟩ := c
    by_cases hn : n = x
    · simp [addCall, hn]
    · have hxn : x ≠ n := fun h => hn h.symm
      simp only [addCall, beq_iff_eq, hn, if_false, List.map_cons, ih, List.mem_cons, hxn, false_or]
      split <;> simp

variable (other : CallEdge → Nat) (edges : List CallEdge)

/-- The spans of some edges, if there are any. -/
def spansOf (edges : List CallEdge) : Option (List Span) :=
  if edges = [] then none else some (edges.map (·.span))

private theorem lookup_foldl_addCall :
    (edges.foldl (fun acc e => addCall (other e) e.span acc) calls).lookup y =
      match edges.filter (fun e => other e == y) with
      | [] => calls.lookup y
      | found => some ((calls.lookup y).getD [] ++ found.map (·.span)) := by
  induction edges generalizing calls with
  | nil => rfl
  | cons e rest ih =>
    rw [List.foldl_cons, ih, lookup_addCall]
    by_cases hy : y = other e
    · subst hy
      cases hrest : rest.filter fun d => other d == other e <;> simp [hrest]
    · have hne : other e ≠ y := fun h => hy h.symm
      simp [hy, hne]

/-- Under a node are the spans of the edges to it, in order. -/
theorem lookup_groupCalls :
    (groupCalls other edges).lookup y = spansOf (edges.filter fun e => other e == y) := by
  rw [groupCalls, lookup_foldl_addCall, spansOf]
  cases edges.filter (fun e => other e == y) <;> simp

/-- Each node is listed once. -/
theorem nodup_groupCalls : ((groupCalls other edges).map (·.1)).Nodup := by
  have hfold : ∀ calls : List (Nat × List Span), (calls.map (·.1)).Nodup →
      ((edges.foldl (fun acc e => addCall (other e) e.span acc) calls).map (·.1)).Nodup := by
    induction edges with
    | nil => exact fun _ h => h
    | cons e rest ih =>
      intro calls h
      refine ih _ ?_
      rw [keys_addCall]
      split
      · exact h
      · next hnew =>
        refine List.nodup_append.2 ⟨h, List.nodup_singleton _, fun k hk j hj => ?_⟩
        rw [List.mem_singleton.1 hj]
        rintro rfl
        exact hnew hk
  exact hfold [] List.nodup_nil

end Groups

/-- The edges between two nodes are listed alike from both. -/
theorem lookup_outgoing (g : CallGraph) (x y : Nat) : (g.outgoing x).lookup y =
    spansOf (g.edges.filter fun e => e.caller == x && e.callee == y) := by
  rw [outgoing, lookup_groupCalls, List.filter_filter]
  simp only [Bool.and_comm]

private theorem lookup_incoming (g : CallGraph) (x y : Nat) : (g.incoming y).lookup x =
    spansOf (g.edges.filter fun e => e.caller == x && e.callee == y) := by
  rw [incoming, lookup_groupCalls, List.filter_filter]

end CallGraph

/-! ## The graph of a document -/

namespace Analysis

open CallGraph

/-- The form at a pair calls a definition: it is kept, and its first element is an atom without a
quote that belongs to the definition. -/
structure Calls (a : Analysis) (p : Pair) (b : Binding) : Prop where
  /-- The pair is one of the document. -/
  pair : p ∈ a.source.layout.pairs.pairs
  /-- The mode for collecting does not leave it out. -/
  kept : (a.excluded a.settings.collection).contains p.opening = false
  /-- The definition is found at the first element. -/
  head : ∃ head rest s, a.source.elements p = head :: rest ∧ head.quoted = false ∧
    head.isAtom = true ∧ a.targetAt head.span.start = some (s, b)
  /-- It is global. -/
  global : b.isGlobal = true
  /-- It can be called. -/
  callable : b.kind.isFunctionLike = true

/-- The nodes and edges of a graph are the definitions and calls of a document, and its two lists of
calls say the same. -/
structure CallsAgree (a : Analysis) (g : CallGraph) : Prop where
  /-- The nodes are the document and all definitions that can be called. -/
  nodes : Arranged g.nodes ⟨0, a.source.bytes.length⟩ a.table.callables
  /-- The edges are the calls, each from the smallest node around it to the node of the definition,
  if these are not the same. -/
  edges : ∀ e, e ∈ g.edges ↔ ∃ p b, a.Calls p b ∧ e.span = p.span ∧ IsNodeOf g.nodes e.callee b ∧
    Encloses g.nodes p.opening e.caller ∧ e.caller ≠ e.callee
  /-- They come in the order of their forms. -/
  ordered : g.edges.Pairwise fun d e => d.span.start < e.span.start
  /-- Each definition that is called has one node. -/
  callee : ∀ p b, a.Calls p b → ∃! k, IsNodeOf g.nodes k b
  /-- Around each form there is one smallest node. -/
  caller : ∀ p ∈ a.source.layout.pairs.pairs, ∃! k, Encloses g.nodes p.opening k
  /-- What one node calls of another is listed from both ends alike. -/
  dual : ∀ x y, (g.outgoing x).lookup y = (g.incoming y).lookup x
  /-- These are the forms of the edges from one node to the other. -/
  listed : ∀ x y, ((g.outgoing x).lookup y).getD [] =
    (g.edges.filter fun e => e.caller == x && e.callee == y).map (·.span)
  /-- No node is listed twice. -/
  once : ∀ x, ((g.outgoing x).map (·.1)).Nodup ∧ ((g.incoming x).map (·.1)).Nodup

section Document

variable {a : Analysis} {b : Binding} {offset : Nat}

/-- An offset has a callable when it has a target and the target is a global like a function. -/
theorem callableAt_eq_some_iff : a.callableAt offset = some b ↔
    ∃ s, a.targetAt offset = some (s, b) ∧ b.isGlobal = true ∧ b.kind.isFunctionLike = true := by
  unfold callableAt
  cases htarget : a.targetAt offset with
  | none => simp
  | some found =>
    obtain ⟨s, d⟩ := found
    simp only [Option.ite_none_right_eq_some, Bool.and_eq_true, Option.some.injEq, Prod.mk.injEq]
    constructor
    · rintro ⟨h, rfl⟩
      exact ⟨s, ⟨rfl, rfl⟩, h⟩
    · rintro ⟨-, ⟨-, rfl⟩, h⟩
      exact ⟨h, rfl⟩

/-- What is called is what can be called at the first element. -/
theorem calls_iff {p : Pair} : a.Calls p b ↔ (p ∈ a.source.layout.pairs.pairs ∧
    (a.excluded a.settings.collection).contains p.opening = false) ∧
      ∃ head rest, a.source.elements p = head :: rest ∧ head.quoted = false ∧
        head.isAtom = true ∧ a.callableAt head.span.start = some b := by
  constructor
  · rintro ⟨hp, hkept, ⟨head, rest, s, helements, hquoted, hatom, htarget⟩, hglobal, hkind⟩
    exact ⟨⟨hp, hkept⟩, head, rest, helements, hquoted, hatom,
      callableAt_eq_some_iff.2 ⟨s, htarget, hglobal, hkind⟩⟩
  · rintro ⟨⟨hp, hkept⟩, head, rest, helements, hquoted, hatom, hb⟩
    obtain ⟨s, htarget, hglobal, hkind⟩ := callableAt_eq_some_iff.1 hb
    exact ⟨hp, hkept, ⟨head, rest, s, helements, hquoted, hatom, htarget⟩, hglobal, hkind⟩

/-- A form is an edge if a definition is called there from another node. -/
theorem callEdge_eq_some_iff {nodes : List CallNode} {p : Pair} {e : CallEdge} :
    a.callEdge nodes p = some e ↔ ∃ head rest b, a.source.elements p = head :: rest ∧
      head.quoted = false ∧ head.isAtom = true ∧ a.callableAt head.span.start = some b ∧
      nodeDefinedAt nodes b.site = some e.callee ∧ innermostNode nodes p.opening = e.caller ∧
      e.caller ≠ e.callee ∧ e.span = p.span := by
  unfold callEdge
  cases helements : a.source.elements p with
  | nil => simp
  | cons head rest =>
    simp only [List.cons.injEq]
    split
    · next hhead =>
      refine iff_of_false (by simp) ?_
      rintro ⟨_, _, _, ⟨rfl, -⟩, hquoted, hatom, -⟩
      simp [hquoted, hatom] at hhead
    · next hhead =>
      simp only [Bool.or_eq_true, Bool.not_eq_true', not_or, Bool.not_eq_true,
        Bool.not_eq_false] at hhead
      cases hcallee : (a.callableAt head.span.start).bind fun b => nodeDefinedAt nodes b.site with
      | none =>
        refine iff_of_false (by simp) ?_
        rintro ⟨_, _, b, ⟨rfl, -⟩, -, -, hb, hnode, -⟩
        rw [hb, Option.bind_some, hnode] at hcallee
        cases hcallee
      | some callee =>
        simp only [Option.ite_none_left_eq_some, beq_iff_eq, Option.some.injEq]
        obtain ⟨b, hb, hnode⟩ := Option.bind_eq_some_iff.1 hcallee
        constructor
        · rintro ⟨hne, rfl⟩
          exact ⟨head, rest, b, ⟨rfl, rfl⟩, hhead.1, hhead.2, hb, hnode, rfl, hne, rfl⟩
        · rintro ⟨_, _, d, ⟨rfl, rfl⟩, -, -, hd, hdnode, hcaller, hne, hspan⟩
          obtain rfl := Option.some.inj (hb.symm.trans hd)
          obtain rfl := Option.some.inj (hnode.symm.trans hdnode)
          rw [hcaller, ← hspan]
          exact ⟨hne, rfl⟩

variable (hsrc : a.source.Nests)

include hsrc in
private theorem contains_opening {p : Pair} (hp : p ∈ a.source.layout.pairs.pairs) :
    (⟨0, a.source.bytes.length⟩ : Span).contains p.opening = true := by
  have hlt := hsrc.nests.laminar.lt p hp
  have hfits := ((hsrc.layout.pairs p hp).fits_span hsrc.clean).stop_le_length
  simp only [Pair.span] at hfits
  rw [Span.contains_iff]
  simp only
  omega

include hsrc in
/-- Edges come in the order of their forms. -/
theorem pairwise_edges : a.callGraph.edges.Pairwise fun d e => d.span.start < e.span.start := by
  refine List.Pairwise.filterMap _ ?_ (hsrc.nests.ordered.filter _)
  intro p q hlt d hd e he
  obtain ⟨_, _, _, -, -, -, -, -, -, -, hdspan⟩ := callEdge_eq_some_iff.1 hd
  obtain ⟨_, _, _, -, -, -, -, -, -, -, hespan⟩ := callEdge_eq_some_iff.1 he
  rw [hdspan, hespan]
  exact hlt

variable (htable : a.table = .ofSource a.source a.settings.collection)
include hsrc htable

/-- What is global and can be called is one of the definitions. -/
theorem mem_callables_of_callableAt (h : a.callableAt offset = some b) :
    b ∈ a.table.callables := by
  obtain ⟨s, htarget, hglobal, hkind⟩ := callableAt_eq_some_iff.1 h
  obtain ⟨-, -, hb⟩ := targetAt_eq_some_iff.1 htarget
  refine List.mem_filter.2 ⟨?_, hkind⟩
  unfold bindingOf at hb
  simp only at hb
  split at hb
  · cases hb
  · rcases Table.mem_of_resolve hb with hlocal | hglobal
    · -- A binding that is not a global definition has a scope.
      obtain ⟨c, hc, hbc⟩ := List.mem_flatMap.1 (List.mem_filter.1 hlocal).1
      have hregular := htable ▸ Table.regular_ofSource hsrc a.settings.collection
      obtain ⟨-, q, -, start, hscope, -⟩ := (hregular.bindings c b hbc).lexical
        (by rintro rfl; simp [Collection.lexical] at hc)
      simp [Binding.isGlobal, hscope] at hglobal
    · exact (List.mem_filter.1 (List.mem_of_getLast? hglobal)).1

private theorem Calls.mem_callables {p : Pair} (h : a.Calls p b) : b ∈ a.table.callables := by
  obtain ⟨-, _, _, -, -, -, hb⟩ := calls_iff.1 h
  exact mem_callables_of_callableAt hsrc htable hb

/-- The edges are the calls that have different ends. -/
theorem mem_edges_iff
    (hnodes : Arranged a.callGraph.nodes ⟨0, a.source.bytes.length⟩ a.table.callables)
    {e : CallEdge} : e ∈ a.callGraph.edges ↔ ∃ p b, a.Calls p b ∧ e.span = p.span ∧
      IsNodeOf a.callGraph.nodes e.callee b ∧ Encloses a.callGraph.nodes p.opening e.caller ∧
        e.caller ≠ e.callee := by
  simp only [callGraph, List.mem_filterMap, List.mem_filter, Bool.not_eq_true',
    callEdge_eq_some_iff, calls_iff]
  constructor
  · rintro ⟨p, hp, head, rest, b, helements, hquoted, hatom, hb, hnode, hcaller, hne, hspan⟩
    have hmem := mem_callables_of_callableAt hsrc htable hb
    refine ⟨p, b, ⟨hp, head, rest, helements, hquoted, hatom, hb⟩, hspan,
      (hnodes.nodeDefinedAt_iff hmem).1 hnode, ?_, hne⟩
    exact hcaller ▸ hnodes.encloses_innermostNode (contains_opening hsrc hp.1)
  · rintro ⟨p, b, ⟨hp, head, rest, helements, hquoted, hatom, hb⟩, hspan, hnode, hcaller, hne⟩
    have hmem := mem_callables_of_callableAt hsrc htable hb
    refine ⟨p, hp, head, rest, b, helements, hquoted, hatom, hb,
      (hnodes.nodeDefinedAt_iff hmem).2 hnode, ?_, hne, hspan⟩
    exact hnodes.eq_of_encloses
      (hnodes.encloses_innermostNode (contains_opening hsrc hp.1)) hcaller

/-- The nodes of a document are arranged as they should, if its definitions stand apart. -/
theorem arranged_callNodes (hapart : a.table.callables.Pairwise Binding.Apart) :
    Arranged a.callNodes ⟨0, a.source.bytes.length⟩ a.table.callables := by
  have hregular : ∀ b ∈ a.table.callables, b.Regular a.source .globalDefinition := fun b hb =>
    (htable ▸ Table.regular_ofSource hsrc a.settings.collection).bindings .globalDefinition b
      (List.mem_filter.1 hb).1
  generalize hsorted : a.table.callables.mergeSort
    (fun x y => decide (x.site.start ≤ y.site.start)) = sorted
  have hperm : sorted.Perm a.table.callables := hsorted ▸ List.mergeSort_perm _ _
  have hnodes : a.callNodes =
      ⟨documentName, none, ⟨0, a.source.bytes.length⟩, .point 0⟩ :: sorted.map nodeOf := by
    rw [← hsorted]
    rfl
  have hspan : ∀ n ∈ a.callNodes, n.span = ⟨0, a.source.bytes.length⟩ ∨
      ∃ p ∈ a.source.layout.pairs.pairs, n.span = p.span := by
    rw [hnodes]
    refine List.forall_mem_cons.2 ⟨.inl rfl, List.forall_mem_map.2 fun b hb => .inr ?_⟩
    exact (hregular b (hperm.mem_iff.1 hb)).form
  have hcovered : ∀ n ∈ a.callNodes,
      (⟨0, a.source.bytes.length⟩ : Span).covers n.span = true := by
    intro n hn
    rcases hspan n hn with heq | ⟨p, hp, heq⟩ <;> rw [heq, Span.covers_iff]
    · exact ⟨Nat.le_refl _, Nat.le_refl _⟩
    · exact ⟨Nat.zero_le _, ((hsrc.layout.pairs p hp).fits_span hsrc.clean).stop_le_length⟩
  constructor
  case first =>
    rw [hnodes]
    rfl
  case others =>
    intro n
    rw [hnodes, exists_getElem?_cons_nodeOf]
    simp only [hperm.mem_iff]
  case apart =>
    rw [hnodes]
    exact fun i j m n => apart_of_cons_nodeOf ((hperm.pairwise_iff Binding.Apart.symm).2 hapart)
  case proper => exact fun b hb => (hregular b hb).proper
  case nested =>
    intro m hm n hn
    rcases hspan m hm with hmspan | ⟨p, hp, hmspan⟩
    · exact .inl (hmspan ▸ hcovered n hn)
    rcases hspan n hn with hnspan | ⟨q, hq, hnspan⟩
    · exact .inr (.inl (hnspan ▸ hcovered m hm))
    · have hplt := hsrc.nests.laminar.lt p hp
      have hqlt := hsrc.nests.laminar.lt q hq
      rw [hmspan, hnspan]
      simp only [Span.Laminar, Span.covers_iff, Pair.span]
      rcases hsrc.nests.laminar.laminar p hp q hq with rfl | h | h | h | h <;> omega
  case covered => exact hcovered

end Document

/-- The nodes of a document without block comments are arranged as they should. -/
theorem arranged_analyze (settings : Settings) {text : String}
    (hbar : ¬[Byte.hash, Byte.bar] <:+: bytes text) :
    Arranged (analyze settings text).callGraph.nodes
      ⟨0, (analyze settings text).source.bytes.length⟩ (analyze settings text).table.callables := by
  rw [analyze_eq]
  exact arranged_callNodes (Source.nests_ofText text) rfl
    (Table.pairwise_callables (commentsApart_of_not_isInfix hbar) settings.collection)

/-- The call graph of a document without block comments holds all calls of its definitions and
nothing else, and tells the same from both ends of an edge. -/
theorem callsAgree_analyze (settings : Settings) (text : String)
    (hbar : ¬[Byte.hash, Byte.bar] <:+: bytes text) :
    (analyze settings text).CallsAgree (analyze settings text).callGraph := by
  have hsrc : (analyze settings text).source.Nests := by
    rw [analyze_eq]
    exact Source.nests_ofText text
  have htable : (analyze settings text).table =
      .ofSource (analyze settings text).source (analyze settings text).settings.collection := by
    rw [analyze_eq]
  have hnodes := arranged_analyze settings hbar
  generalize analyze settings text = a at htable hnodes hsrc
  constructor
  case nodes => exact hnodes
  case edges => exact fun e => mem_edges_iff hsrc htable hnodes
  case ordered => exact pairwise_edges hsrc
  case callee =>
    intro p b hcalls
    have hmem := hcalls.mem_callables hsrc htable
    obtain ⟨k, hk⟩ := hnodes.exists_isNodeOf hmem
    exact ⟨k, hk, fun i hi => hnodes.eq_of_selection hmem hk hi.definition hi.node rfl⟩
  case caller =>
    intro p hp
    have hfound := hnodes.encloses_innermostNode (contains_opening hsrc hp)
    exact ⟨_, hfound, fun k hk => hnodes.eq_of_encloses hk hfound⟩
  case dual => exact fun x y => (lookup_outgoing _ x y).trans (lookup_incoming _ x y).symm
  case listed =>
    intro x y
    rw [lookup_outgoing, spansOf]
    split
    · next hnil => rw [hnil]; rfl
    · rfl
  case once => exact fun x => ⟨nodup_groupCalls _ _, nodup_groupCalls _ _⟩

/-- The law applies to a call of one definition in another. -/
theorem callsAgree_analyze_nested :
    ¬[Byte.hash, Byte.bar] <:+: bytes "(defun f ()) (defun g () (f))" ∧
      (analyze {} "(defun f ()) (defun g () (f))").CallsAgree
        (analyze {} "(defun f ()) (defun g () (f))").callGraph := by
  have hbar : ¬[Byte.hash, Byte.bar] <:+: bytes "(defun f ()) (defun g () (f))" := by
    decide +kernel
  exact ⟨hbar, callsAgree_analyze {} _ hbar⟩

end Analysis

end LexScope
