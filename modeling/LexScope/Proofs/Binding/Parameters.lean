import LexScope.Binding.LambdaList

/-!
# Where parameters are found

A lambda list is read by functions that call each other at every level: for its entries, for an
entry in brackets, for the name in it. Whatever the part of the list and whether it destructures,
each of them passes nodes, takes atoms and looks into groups, from left to right. This is said once,
and what holds of all parameters follows from it by one induction.
-/

namespace LexScope.LambdaList

variable {src : Source} {destructuring : Bool} {outer : Option Nat} {visibleFrom : Nat}

/-- A parameter is the text of its place in lower case, which can be bound. -/
theorem mem_parameterAt {site : Span} {p : Parameter} :
    p ∈ parameterAt src site visibleFrom ↔ isBindable (lowerCase (src.slice site)) = true ∧
      p = ⟨lowerCase (src.slice site), site, visibleFrom⟩ := by
  simp only [parameterAt]
  split <;> simp [*]

/-- The parameter made at a site stands at that site. -/
theorem site_of_mem_parameterAt {site : Span} {p : Parameter}
    (h : p ∈ parameterAt src site visibleFrom) : p.site = site :=
  congrArg Parameter.site (mem_parameterAt.1 h).2

/-- The parameters are those of atoms among the nodes and inside of them, from left to right.
`outer` is where an enclosing entry ends. -/
inductive Extracts (src : Source) : Option Nat → List Node → List Parameter → Prop
  /-- There are no more nodes. -/
  | nil (outer : Option Nat) : Extracts src outer [] []
  /-- A node is passed. -/
  | skip {outer : Option Nat} {n : Node} {rest : List Node} {ps : List Parameter}
      (h : Extracts src outer rest ps) : Extracts src outer (n :: rest) ps
  /-- An atom is taken. -/
  | atom {outer : Option Nat} {n : Node} {rest : List Node} {ps : List Parameter}
      (hatom : n.element.isAtom = true) (h : Extracts src outer rest ps) :
      Extracts src outer (n :: rest)
        (parameterAt src n.element.span (outer.getD n.stop) ++ ps)
  /-- Parameters are taken from inside a group. -/
  | group {outer : Option Nat} {n : Node} {rest : List Node} {inner ps : List Parameter} {p : Pair}
      (hkind : n.element.kind = .group p) (h : Extracts src outer rest ps)
      (hitems : Extracts src (some (outer.getD n.stop)) n.items inner) :
      Extracts src outer (n :: rest) (inner ++ ps)

namespace Extracts

variable {nodes : List Node} {ps : List Parameter}

private theorem nothing (outer : Option Nat) (nodes : List Node) : Extracts src outer nodes [] := by
  induction nodes with
  | nil => exact .nil outer
  | cons n rest ih => exact ih.skip

/-- What holds of the nodes and of all that is inside them holds of the atom where a parameter is
found. It may depend on where the parameter becomes visible. -/
theorem exists_atom {P : Nat → Node → Prop} (h : Extracts src outer nodes ps)
    (hitems : ∀ v n, P v n → ∀ m ∈ n.items, P v m)
    (hnodes : ∀ n ∈ nodes, P (outer.getD n.stop) n) :
    ∀ p ∈ ps, ∃ n, P p.visibleFrom n ∧ n.element.isAtom = true ∧
      p ∈ parameterAt src n.element.span p.visibleFrom := by
  induction h with
  | nil => simp
  | skip h ih => exact ih (List.forall_mem_cons.1 hnodes).2
  | atom hatom h ih =>
    obtain ⟨hn, hrest⟩ := List.forall_mem_cons.1 hnodes
    intro p hp
    rcases List.mem_append.1 hp with hp | hp
    · have hfrom : p.visibleFrom = _ := congrArg Parameter.visibleFrom (mem_parameterAt.1 hp).2
      exact ⟨_, hfrom ▸ hn, hatom, by rwa [hfrom]⟩
    · exact ih hrest p hp
  | group hkind h hinner ih ihinner =>
    obtain ⟨hn, hrest⟩ := List.forall_mem_cons.1 hnodes
    intro p hp
    rcases List.mem_append.1 hp with hp | hp
    · exact ihinner (hitems _ _ hn) p hp
    · exact ih hrest p hp

end Extracts

private theorem extracts_suppliedName (part : ListPart) (first : Node) (rest : List Node) :
    Extracts src (some visibleFrom) rest (suppliedName src part visibleFrom (first :: rest)) := by
  match rest with
  | [] => exact .nothing _ _
  | [_] => exact .nothing _ _
  | second :: supplied :: more =>
    rw [suppliedName]
    split
    · next hsupplied =>
      have hatom := (Bool.and_eq_true_iff.1 (Bool.and_eq_true_iff.1 hsupplied).1).2
      rw [← List.append_nil (parameterAt _ _ _)]
      exact ((Extracts.nothing _ more).atom hatom).skip
    · exact .nothing _ _

mutual

/-- The parameters read from a list of nodes are extracted from that list. -/
theorem extracts_ofEntries (outer : Option Nat) (part : ListPart) : ∀ nodes : List Node,
    Extracts src outer nodes (ofEntries src destructuring outer part nodes)
  | [] => by
    rw [ofEntries]
    exact .nil outer
  | n :: rest => by
    rw [ofEntries]
    split
    · exact (extracts_ofEntries outer part rest).skip
    split
    · exact (extracts_ofEntries outer _ rest).skip
    · exact extracts_ofEntry part n (extracts_ofEntries outer part rest)

private theorem extracts_ofEntry {outer : Option Nat} {rest : List Node} {ps : List Parameter}
    (part : ListPart) : ∀ n : Node, Extracts src outer rest ps →
      Extracts src outer (n :: rest)
        (ofEntry src destructuring part (outer.getD n.stop) n ++ ps)
  | .mk e items, h => by
    rw [ofEntry]
    split
    · next hkind => exact h.atom (beq_iff_eq.2 hkind)
    · next hkind =>
      split
      · exact .group hkind h (extracts_ofEntries _ .required items)
      · exact .group hkind h (extracts_ofSpec part items)
    · exact h.skip

private theorem extracts_ofSpec {visibleFrom : Nat} (part : ListPart) : ∀ items : List Node,
    Extracts src (some visibleFrom) items (ofSpec src destructuring part visibleFrom items)
  | [] => by
    rw [ofSpec]
    exact .nil _
  | first :: rest => by
    rw [ofSpec]
    split
    · exact (extracts_suppliedName part first rest).skip
    · exact extracts_ofSpecName part first (extracts_suppliedName part first rest)

private theorem extracts_ofSpecName {visibleFrom : Nat} {rest : List Node} {ps : List Parameter}
    (part : ListPart) : ∀ n : Node, Extracts src (some visibleFrom) rest ps →
      Extracts src (some visibleFrom) (n :: rest)
        (ofSpecName src destructuring part visibleFrom n ++ ps)
  | .mk e items, h => by
    rw [ofSpecName]
    split
    · next hkind => exact h.atom (beq_iff_eq.2 hkind)
    · next hkind =>
      split
      · exact .group hkind h (extracts_ofKeyword items)
      split
      · exact .group hkind h (extracts_ofEntries _ .required items)
      · exact h.skip
    · exact h.skip

private theorem extracts_ofKeyword {visibleFrom : Nat} : ∀ items : List Node,
    Extracts src (some visibleFrom) items (ofKeyword src destructuring visibleFrom items)
  | [] => by
    rw [ofKeyword]
    · exact .nil _
    · simp
  | [_] => by
    rw [ofKeyword]
    · exact .nothing _ _
    · simp
  | _ :: named :: rest => by
    rw [ofKeyword, ← List.append_nil (ofVariable _ _ _ _)]
    exact (extracts_ofVariable named (.nothing _ rest)).skip

private theorem extracts_ofVariable {visibleFrom : Nat} {rest : List Node} {ps : List Parameter} :
    ∀ n : Node, Extracts src (some visibleFrom) rest ps →
      Extracts src (some visibleFrom) (n :: rest)
        (ofVariable src destructuring visibleFrom n ++ ps)
  | .mk e items, h => by
    rw [ofVariable]
    split
    · next hkind => exact h.atom (beq_iff_eq.2 hkind)
    · next hkind =>
      split
      · exact .group hkind h (extracts_ofEntries _ .required items)
      · exact h.skip
    · exact h.skip

end

end LexScope.LambdaList
