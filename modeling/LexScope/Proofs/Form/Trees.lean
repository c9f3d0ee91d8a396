import LexScope.Proofs.Binding.SmallWords
import LexScope.Proofs.Form.Sexp

/-!
# Trees of printed data

A printed datum is read as one tree, and each part of it as it is printed. The offsets are counted
here from left to right, so that they can be computed for given data even where the length of one
datum is a variable: the offsets behind it are sums that start with it.
-/

namespace LexScope

open Byte Utf8

namespace Datum

/-! ## Offsets -/

mutual

/-- Where a datum printed at `pos` ends. -/
def stopAt (pos : Nat) : Datum → Nat
  | atom marks a => pos + marks.length + (encode a.chars).length
  | string marks contents => pos + marks.length + (encode (literal contents)).length
  | list marks gaps items => stopFrom (pos + marks.length + 1) none gaps items + 1

/-- Where neighbours printed at `pos` end. -/
def stopFrom (pos : Nat) (lead : Option Gap) (gaps : Nat → Gap) : List Datum → Nat
  | [] => pos
  | d :: rest =>
    stopFrom (stopAt (pos + (encode (Gap.lead lead)).length) d) (some (gaps 0))
      (fun i => gaps (i + 1)) rest

end

mutual

/-- A datum stops after its width. -/
theorem stopAt_eq : ∀ (pos : Nat) (d : Datum), d.stopAt pos = pos + d.size
  | pos, atom marks a => by rw [stopAt, size_eq, Nat.add_assoc]; rfl
  | pos, string marks contents => by rw [stopAt, size_eq, Nat.add_assoc]; rfl
  | pos, list marks gaps items => by
    rw [stopAt, stopFrom_eq, size_list]
    omega

private theorem stopFrom_eq : ∀ (pos : Nat) (lead : Option Gap) (gaps : Nat → Gap)
    (items : List Datum),
    stopFrom pos lead gaps items = pos + sizeFrom lead gaps items
  | _, _, _, [] => by
    rw [stopFrom]
    rfl
  | pos, lead, gaps, d :: rest => by
    rw [stopFrom, stopFrom_eq, stopAt_eq, sizeFrom_cons]
    omega

end

/-- The brackets of a datum printed at `pos`, if it is a list. -/
def bracket? (pos : Nat) : Datum → Option Pair
  | d@(list marks _ _) => some ⟨pos + marks.length, d.stopAt pos - 1⟩
  | _ => none

mutual

/-- The tree of a datum printed at `pos`. -/
def node (pos : Nat) : Datum → Node
  | d@(atom marks _) => .mk ⟨.atom, ⟨pos + marks.length, d.stopAt pos⟩, pos, !marks.isEmpty⟩ []
  | d@(string marks _) =>
    .mk ⟨.string, ⟨pos + marks.length, d.stopAt pos⟩, pos, !marks.isEmpty⟩ []
  | d@(list marks gaps items) =>
    .mk ⟨.group ⟨pos + marks.length, d.stopAt pos - 1⟩, ⟨pos + marks.length, d.stopAt pos⟩, pos,
      !marks.isEmpty⟩ (nodesFrom (pos + marks.length + 1) none gaps items)

/-- The trees of neighbours printed at `pos`. -/
def nodesFrom (pos : Nat) (lead : Option Gap) (gaps : Nat → Gap) : List Datum → List Node
  | [] => []
  | d :: rest =>
    let start := pos + (encode (Gap.lead lead)).length
    node start d :: nodesFrom (d.stopAt start) (some (gaps 0)) (fun i => gaps (i + 1)) rest

end

mutual

/-- A datum printed at `pos` and all data in it, with the offsets at which they are printed. -/
def parts (pos : Nat) : Datum → List (Nat × Datum)
  | d@(atom ..) => [(pos, d)]
  | d@(string ..) => [(pos, d)]
  | d@(list marks gaps items) => (pos, d) :: partsFrom (pos + marks.length + 1) none gaps items

/-- Neighbours printed at `pos` and all data in them, with the offsets at which they are printed. -/
def partsFrom (pos : Nat) (lead : Option Gap) (gaps : Nat → Gap) : List Datum → List (Nat × Datum)
  | [] => []
  | d :: rest =>
    let start := pos + (encode (Gap.lead lead)).length
    parts start d ++ partsFrom (d.stopAt start) (some (gaps 0)) (fun i => gaps (i + 1)) rest

end

/-! ## Reading -/

variable {src : Source} {pos : Nat}

/-- The node of a datum has its element. -/
theorem element_node (pos : Nat) (d : Datum) : (d.node pos).element = d.element pos := by
  cases d <;> simp only [node, Node.element, element, stopAt_eq, marks]

private theorem PrintedAt.items_list {marks : List Mark} {gaps : Nat → Gap} {items : List Datum}
    (h : PrintedAt src pos (list marks gaps items)) :
    src.items ⟨pos + marks.length, (list marks gaps items).stopAt pos - 1⟩ =
      (elementsFrom (pos + marks.length + 1) none gaps items).map src.node := by
  have helements := h.elements
  rw [Source.elements] at helements
  rw [stopAt_eq, Source.items, Source.nodes_eq, helements]
  rfl

mutual

/-- A printed datum is read as its tree. -/
theorem PrintedAt.node_eq : ∀ {pos : Nat} {d : Datum}, PrintedAt src pos d →
    src.node (d.element pos) = d.node pos
  | pos, atom .., _ => by simp only [node, stopAt_eq]; rfl
  | pos, string .., _ => by simp only [node, stopAt_eq]; rfl
  | pos, list marks gaps items, h => by
    have hitems := h.items_list
    rw [h.items.map_node, stopAt_eq] at hitems
    rw [node, stopAt_eq, ← hitems]
    rfl

/-- Printed neighbours are read as their trees. -/
theorem PrintedFrom.map_node : ∀ {pos : Nat} {lead : Option Gap} {gaps : Nat → Gap}
    {items : List Datum}, PrintedFrom src pos lead gaps items →
    (elementsFrom pos lead gaps items).map src.node = nodesFrom pos lead gaps items
  | _, _, _, [], _ => by rw [elementsFrom, nodesFrom, List.map_nil]
  | pos, lead, gaps, d :: rest, h => by
    rw [elementsFrom, nodesFrom, List.map_cons, h.cons.1.node_eq, h.cons.2.map_node, stopAt_eq]

end

/-- Reading a printed list finds the trees of its items. -/
theorem PrintedAt.items_eq {marks : List Mark} {gaps : Nat → Gap} {items : List Datum}
    (h : PrintedAt src pos (list marks gaps items)) :
    src.items ⟨pos + marks.length, (list marks gaps items).stopAt pos - 1⟩ =
      nodesFrom (pos + marks.length + 1) none gaps items :=
  h.items_list.trans h.items.map_node

/-- An atom or a string is read as it is printed. -/
theorem PrintedAt.textAt {d : Datum} (h : PrintedAt src pos d) :
    src.textAt (d.node pos) = String.ofList d.body := by
  have hstands := h.stands
  rw [chars_eq, encode_append] at hstands
  have hbody := hstands.right
  rw [Mark.length_encode] at hbody
  have hspan : (d.element pos).span = ⟨pos + d.marks.length, pos + d.size⟩ := rfl
  rw [Source.textAt, Source.textOf, element_node, hspan, size_eq, ← Nat.add_assoc]
  exact slice_of_standsAt hbody

mutual

/-- Everything in a printed datum is printed where it stands. -/
theorem PrintedAt.of_mem_parts {x : Nat × Datum} : ∀ {pos : Nat} {d : Datum},
    PrintedAt src pos d → x ∈ d.parts pos → PrintedAt src x.1 x.2
  | pos, atom .., h, hx => by
    rw [parts, List.mem_singleton] at hx
    exact hx ▸ h
  | pos, string .., h, hx => by
    rw [parts, List.mem_singleton] at hx
    exact hx ▸ h
  | pos, list marks gaps items, h, hx => by
    rw [parts] at hx
    rcases List.mem_cons.1 hx with rfl | hx
    · exact h
    · exact h.items.of_mem_partsFrom hx

/-- Everything in printed neighbours is printed where it stands. -/
theorem PrintedFrom.of_mem_partsFrom {x : Nat × Datum} : ∀ {pos : Nat} {lead : Option Gap}
    {gaps : Nat → Gap} {items : List Datum}, PrintedFrom src pos lead gaps items →
    x ∈ partsFrom pos lead gaps items → PrintedAt src x.1 x.2
  | _, _, _, [], _, hx => by
    rw [partsFrom] at hx
    cases hx
  | pos, lead, gaps, d :: rest, h, hx => by
    rw [partsFrom] at hx
    rcases List.mem_append.1 hx with hx | hx
    · exact h.cons.1.of_mem_parts hx
    · rw [stopAt_eq] at hx
      exact h.cons.2.of_mem_partsFrom hx

end

private theorem filterMap_pair?_lead (pos : Nat) (lead : Option Gap) :
    (Gap.pieces pos lead).filterMap Piece.pair? = [] := by
  rcases lead with _ | _ | _ <;> rfl

mutual

/-- The brackets of a printed datum are those of the lists in it. -/
theorem filterMap_pair?_pieces : ∀ (pos : Nat) (d : Datum),
    (d.pieces pos).filterMap Piece.pair? = (d.parts pos).filterMap fun x => x.2.bracket? x.1
  | pos, atom .. => by
    rw [pieces, parts]
    rfl
  | pos, string .. => by
    rw [pieces, parts]
    rfl
  | pos, list marks gaps items => by
    rw [pieces, parts, List.filterMap_cons, List.filterMap_cons, filterMap_pair?_piecesFrom]
    simp only [Piece.pair?, bracket?, stopAt_eq]

/-- The brackets of printed neighbours are those of the lists in them. -/
theorem filterMap_pair?_piecesFrom : ∀ (pos : Nat) (lead : Option Gap) (gaps : Nat → Gap)
    (items : List Datum), (piecesFrom pos lead gaps items).filterMap Piece.pair? =
      (partsFrom pos lead gaps items).filterMap fun x => x.2.bracket? x.1
  | _, _, _, [] => by
    rw [piecesFrom, partsFrom]
    rfl
  | pos, lead, gaps, d :: rest => by
    rw [piecesFrom, partsFrom, List.filterMap_append, List.filterMap_append, List.filterMap_append,
      filterMap_pair?_lead, filterMap_pair?_pieces, filterMap_pair?_piecesFrom, stopAt_eq,
      List.nil_append]

end

/-! ## Documents -/

/-- The layout of a printed datum is made of its pieces. -/
theorem madeOf_ofText (d : Datum) :
    (Source.ofText (String.ofList d.chars)).layout.MadeOf (d.pieces 0) := by
  have hchars : charsFrom none (fun _ => .space) [d] = d.chars := by
    simp [charsFrom, Gap.lead]
  have hpieces : piecesFrom 0 none (fun _ => .space) [d] = d.pieces 0 := by
    simp [piecesFrom, Gap.lead, Gap.pieces, encode]
  have hmade := madeOf_document (fun _ => .space) [d]
  rwa [document, hchars, hpieces] at hmade

/-- The brackets of a document are those of the lists in its datum. -/
theorem pairs_ofText (d : Datum) :
    (Source.ofText (String.ofList d.chars)).layout.pairs.pairs =
      (d.parts 0).filterMap fun x => x.2.bracket? x.1 :=
  (madeOf_ofText d).pairs.trans (filterMap_pair?_pieces 0 d)

end Datum

end LexScope
