import LexScope.Proofs.Form.RoundTrip

/-!
# Data with single spaces

Words, numbers and lists, where one space stands between neighbours. Neighbours are listed with the
offsets at which they are printed, so that what is read from a list is a `map` over its items.
-/

namespace LexScope

open Byte Utf8

/-- An element with everything inside it. -/
def Source.node (src : Source) (e : Element) : Node := .mk e (src.inside e)

namespace Datum

variable {α : Type} {f : α → Datum} {src : Source} {pos : Nat}

/-- Neighbours with the offsets at which they stand, one space apart, the first at `pos`. -/
def place (f : α → Datum) (pos : Nat) : List α → List (Nat × α)
  | [] => []
  | a :: rest => (pos, a) :: place f (pos + (f a).size + 1) rest

private theorem elementsFrom_place_space (items : List α) :
    elementsFrom pos (some .space) (fun _ => .space) (items.map f) =
      (place f (pos + 1) items).map fun x => (f x.2).element x.1 := by
  induction items generalizing pos with
  | nil => rfl
  | cons a rest ih =>
    rw [List.map_cons, elementsFrom, ih]
    rfl

/-- Neighbours are read where they stand. -/
theorem elementsFrom_place (items : List α) :
    elementsFrom pos none (fun _ => .space) (items.map f) =
      (place f pos items).map fun x => (f x.2).element x.1 := by
  cases items with
  | nil => rfl
  | cons a rest =>
    rw [List.map_cons, elementsFrom, elementsFrom_place_space]
    rfl

/-- Neighbours that are printed are printed where they stand. -/
theorem printedAt_of_mem_place {items : List α}
    (h : PrintedFrom src pos none (fun _ => .space) (items.map f)) :
    ∀ x ∈ place f pos items, (f x.2).PrintedAt src x.1 := by
  have htail : ∀ (items : List α) (pos : Nat),
      PrintedFrom src pos (some .space) (fun _ => .space) (items.map f) →
        ∀ x ∈ place f (pos + 1) items, (f x.2).PrintedAt src x.1 := by
    intro items
    induction items with
    | nil => simp [place]
    | cons a rest ih =>
      intro pos h
      rw [List.map_cons] at h
      rw [place, List.forall_mem_cons]
      exact ⟨h.cons.1, ih _ h.cons.2⟩
  cases items with
  | nil => simp [place]
  | cons a rest =>
    rw [List.map_cons] at h
    rw [place, List.forall_mem_cons]
    exact ⟨h.cons.1, htail rest _ h.cons.2⟩

section Lists

variable {items : List α}

/-- The elements of a printed list are its items. -/
theorem PrintedAt.elements_place
    (h : PrintedAt src pos (list [] (fun _ => .space) (items.map f))) :
    src.elements ⟨pos, pos + (list [] (fun _ => .space) (items.map f)).size - 1⟩ =
      (place f (pos + 1) items).map fun x => (f x.2).element x.1 := by
  rw [← elementsFrom_place]
  exact h.elements

/-- What is read from a printed list is its items. -/
theorem PrintedAt.items_place
    (h : PrintedAt src pos (list [] (fun _ => .space) (items.map f))) :
    src.items ⟨pos, pos + (list [] (fun _ => .space) (items.map f)).size - 1⟩ =
      (place f (pos + 1) items).map fun x => src.node ((f x.2).element x.1) := by
  have helements := h.elements_place
  rw [Source.elements] at helements
  rw [Source.items, Source.nodes_eq, helements, List.map_map]
  rfl

end Lists

end Datum

/-- A datum of words, numbers and lists. -/
inductive Sexp where
  /-- A plain word. -/
  | word (w : Word)
  /-- A decimal number. -/
  | number (n : Nat)
  /-- A list, perhaps an empty one. -/
  | list (items : List Sexp)

namespace Sexp

mutual

/-- The datum, with one space in each gap. -/
def datum : Sexp → Datum
  | word w => .atom [] (.word w)
  | number n => .atom [] (.number n)
  | list items => .list [] (fun _ => .space) (data items)

/-- The data of neighbours. -/
def data : List Sexp → List Datum
  | [] => []
  | s :: rest => datum s :: data rest

end

/-- Number of bytes. -/
def size (s : Sexp) : Nat := s.datum.size

/-- Number of bytes of neighbours with a space before each of them. -/
def tailWidth : List Sexp → Nat
  | [] => 0
  | s :: rest => 1 + s.size + tailWidth rest

/-- Number of bytes of neighbours. -/
def width : List Sexp → Nat
  | [] => 0
  | s :: rest => s.size + tailWidth rest

/-- Neighbours with the offsets at which they stand, the first at `pos`. -/
def place (pos : Nat) : List Sexp → List (Nat × Sexp)
  | [] => []
  | s :: rest => (pos, s) :: place (pos + s.size + 1) rest

/-- The brackets of a list printed at `pos`. -/
def pairAt (pos : Nat) (s : Sexp) : Pair := ⟨pos, pos + s.size - 1⟩

/-- The element of a datum printed at `pos`. -/
def element (pos : Nat) (s : Sexp) : Element := s.datum.element pos

section Spaces

variable {pos : Nat}

private theorem sizeFrom_space (items : List Sexp) :
    Datum.sizeFrom (some .space) (fun _ => .space) (data items) = tailWidth items := by
  induction items with
  | nil => rfl
  | cons s rest ih =>
    rw [data, Datum.sizeFrom_cons, ih, tailWidth, size]
    have hlead : (encode (Gap.lead (some .space))).length = 1 := by decide
    omega

private theorem sizeFrom_none (items : List Sexp) :
    Datum.sizeFrom none (fun _ => .space) (data items) = width items := by
  cases items with
  | nil => rfl
  | cons s rest =>
    rw [data, Datum.sizeFrom_cons, sizeFrom_space, width, size]
    exact Nat.zero_add _

/-- The width of a list is that of its items and its brackets. -/
theorem size_list (items : List Sexp) : (list items).size = width items + 2 := by
  rw [size, datum, Datum.size_list, sizeFrom_none, List.length_nil, Nat.zero_add]

/-- Every expression takes up some room. -/
theorem one_le_size (s : Sexp) : 1 ≤ s.size := by
  obtain ⟨b, tail, hbytes, -⟩ := s.datum.exists_startsBody
  have hsize := s.datum.size_eq
  rw [hbytes, List.length_cons] at hsize
  rw [size]
  omega

private theorem data_eq_map (items : List Sexp) : data items = items.map datum := by
  induction items with
  | nil => rfl
  | cons s rest ih => rw [data, ih, List.map_cons]

private theorem datum_list (items : List Sexp) :
    (list items).datum = .list [] (fun _ => .space) (items.map datum) := by
  rw [datum, data_eq_map]

private theorem place_eq (pos : Nat) (items : List Sexp) :
    place pos items = Datum.place datum pos items := by
  induction items generalizing pos with
  | nil => rfl
  | cons s rest ih => rw [place, Datum.place, ih, size]

private theorem piecesFrom_space (items : List Sexp) :
    Datum.piecesFrom pos (some .space) (fun _ => .space) (data items) =
      (place (pos + 1) items).flatMap fun x => x.2.datum.pieces x.1 := by
  induction items generalizing pos with
  | nil => rfl
  | cons s rest ih =>
    rw [data, Datum.piecesFrom, ih]
    rfl

/-- The pieces of the items are those of each at its place. -/
theorem piecesFrom_none (items : List Sexp) :
    Datum.piecesFrom pos none (fun _ => .space) (data items) =
      (place pos items).flatMap fun x => x.2.datum.pieces x.1 := by
  cases items with
  | nil => rfl
  | cons s rest =>
    rw [data, Datum.piecesFrom, piecesFrom_space]
    rfl

end Spaces

/-! ## Brackets -/

/-- The brackets of the lists of a datum printed at `pos`, in order. -/
def pairs (pos : Nat) (s : Sexp) : List Pair := (s.datum.pieces pos).filterMap Piece.pair?

/-- The brackets of the lists of neighbours, in order. -/
def pairsFrom (pos : Nat) (items : List Sexp) : List Pair :=
  (place pos items).flatMap fun x => x.2.pairs x.1

/-- The brackets of a datum, if it is a list. -/
def group? (pos : Nat) : Sexp → Option Pair
  | s@(list _) => some (s.pairAt pos)
  | _ => none

variable {pos : Nat}

/-- A word has no pairs. -/
theorem pairs_word (w : Word) : (word w).pairs pos = [] := by
  rw [pairs, datum, Datum.pieces]
  rfl

/-- A number has no pairs. -/
theorem pairs_number (n : Nat) : (number n).pairs pos = [] := by
  rw [pairs, datum, Datum.pieces]
  rfl

/-- The pairs of a list are its own and those of its items. -/
theorem pairs_list (items : List Sexp) :
    (list items).pairs pos = (list items).pairAt pos :: pairsFrom (pos + 1) items := by
  rw [pairs, datum, Datum.pieces, ← datum, pairsFrom]
  simp only [List.filterMap_cons, Piece.pair?, List.length_nil, Nat.add_zero]
  rw [piecesFrom_none, List.filterMap_flatMap]
  rfl

/-- The pairs of the items are those of the first and of the rest. -/
theorem pairsFrom_cons (s : Sexp) (rest : List Sexp) :
    pairsFrom pos (s :: rest) = s.pairs pos ++ pairsFrom (pos + s.size + 1) rest := rfl

/-- The brackets of a datum stand inside it. -/
theorem bounds_of_mem_pairs {s : Sexp} {p : Pair} (h : p ∈ s.pairs pos) :
    pos ≤ p.opening ∧ p.opening < p.closing ∧ p.closing < pos + s.size := by
  have hplaced := s.datum.placed_pieces pos
  obtain ⟨elements, hmem⟩ := Piece.mem_filterMap_pair.1 h
  exact ⟨hplaced.lo_le _ hmem, hplaced.proper _ hmem, hplaced.le_hi _ hmem⟩

/-- What is placed is one of the items. -/
theorem mem_of_mem_place {items : List Sexp} {x : Nat × Sexp} (h : x ∈ place pos items) :
    x.2 ∈ items := by
  induction items generalizing pos with
  | nil => simp [place] at h
  | cons s rest ih =>
    rw [place] at h
    rcases List.mem_cons.1 h with rfl | h
    · exact List.mem_cons_self
    · exact List.mem_cons_of_mem _ (ih h)

/-- Neighbours stand between the first and the last of them. -/
theorem bounds_of_mem_place {items : List Sexp} {x : Nat × Sexp} (h : x ∈ place pos items) :
    pos ≤ x.1 ∧ x.1 + x.2.size ≤ pos + width items := by
  have htail : ∀ (items : List Sexp) (pos : Nat), x ∈ place (pos + 1) items →
      pos + 1 ≤ x.1 ∧ x.1 + x.2.size ≤ pos + tailWidth items := by
    intro items
    induction items with
    | nil => simp [place]
    | cons s rest ih =>
      intro pos hx
      rw [place] at hx
      rw [tailWidth]
      rcases List.mem_cons.1 hx with rfl | hx
      · simp only
        omega
      · have := ih (pos + 1 + s.size) hx
        omega
  cases items with
  | nil => simp [place] at h
  | cons s rest =>
    rw [place] at h
    rw [width]
    rcases List.mem_cons.1 h with rfl | h
    · simp only
      omega
    · have := htail rest (pos + s.size) h
      omega

private theorem bounds_of_mem_pairsFrom {items : List Sexp} {p : Pair}
    (h : p ∈ pairsFrom pos items) :
    pos ≤ p.opening ∧ p.opening < p.closing ∧ p.closing < pos + width items := by
  obtain ⟨x, hx, hp⟩ := List.mem_flatMap.1 h
  have hplace := bounds_of_mem_place hx
  have hpair := bounds_of_mem_pairs hp
  omega

private theorem siblings_pairs {closing : Nat} {rest : List Pair} (s : Sexp)
    (hs : pos + s.size ≤ closing) (hrest : ∀ p ∈ rest, pos + s.size ≤ p.opening) :
    PairIndex.siblings closing (s.pairs pos ++ rest) =
      (s.group? pos).toList ++ PairIndex.siblings closing rest := by
  cases s with
  | word w => rw [pairs_word]; rfl
  | number n => rw [pairs_number]; rfl
  | list items =>
    have hsize := size_list items
    have hnested : ∀ q ∈ pairsFrom (pos + 1) items,
        decide (q.opening ≤ ((list items).pairAt pos).closing) = true := by
      intro q hq
      have := bounds_of_mem_pairsFrom hq
      apply decide_eq_true
      simp only [pairAt]
      omega
    have hbehind : rest.dropWhile
        (fun q => decide (q.opening ≤ ((list items).pairAt pos).closing)) = rest := by
      cases rest with
      | nil => rfl
      | cons p rest =>
        have := hrest p List.mem_cons_self
        have hlt : ¬p.opening ≤ ((list items).pairAt pos).closing := by
          simp only [pairAt]
          omega
        rw [List.dropWhile_cons_of_neg (by simpa using hlt)]
    rw [pairs_list, List.cons_append, PairIndex.siblings, if_pos (by simp only [pairAt]; omega),
      List.dropWhile_append_of_pos hnested, hbehind]
    rfl

/-- Skipping what is nested finds the lists among neighbours. -/
theorem siblings_pairsFrom {closing : Nat} {after : List Pair} (items : List Sexp)
    (hitems : ∀ x ∈ place pos items, x.1 + x.2.size ≤ closing)
    (hafter : ∀ p ∈ after, closing < p.opening) :
    PairIndex.siblings closing (pairsFrom pos items ++ after) =
      (place pos items).filterMap fun x => x.2.group? x.1 := by
  induction items generalizing pos with
  | nil =>
    cases after with
    | nil => exact PairIndex.siblings.eq_1 _
    | cons p rest =>
      have := hafter p List.mem_cons_self
      simp only [pairsFrom, place, List.flatMap_nil, List.nil_append, List.filterMap_nil]
      rw [PairIndex.siblings, if_neg (by omega)]
  | cons s rest ih =>
    rw [place, List.forall_mem_cons] at hitems
    have hrest : ∀ p ∈ pairsFrom (pos + s.size + 1) rest ++ after, pos + s.size ≤ p.opening := by
      rw [List.forall_mem_append]
      refine ⟨fun p hp => ?_, fun p hp => ?_⟩
      · have := bounds_of_mem_pairsFrom hp
        omega
      · have := hafter p hp
        have := hitems.1
        simp only at this
        omega
    rw [pairsFrom_cons, List.append_assoc, siblings_pairs s hitems.1 hrest, ih hitems.2, place,
      List.filterMap_cons]
    cases s.group? pos <;> rfl

/-! ## Reading -/

/-- The datum is printed in the source at an offset, and the index of brackets holds its lists in
one stretch. -/
structure At (src : Source) (pos : Nat) (s : Sexp) : Prop where
  /-- It is printed there. -/
  printed : s.datum.PrintedAt src pos
  /-- The index holds its lists. -/
  index : ∃ before after, src.layout.pairs.pairs = before ++ (s.pairs pos ++ after) ∧
    (∀ p ∈ before, p.opening < pos) ∧ ∀ p ∈ after, pos + s.size ≤ p.opening

variable {src : Source}

/-- Every placed item is printed at its place. -/
theorem printedAt_of_mem_place {items : List Sexp}
    (h : Datum.PrintedFrom src pos none (fun _ => .space) (data items)) :
    ∀ x ∈ place pos items, x.2.datum.PrintedAt src x.1 := by
  rw [data_eq_map] at h
  rw [place_eq]
  exact Datum.printedAt_of_mem_place h

/-- Every placed item stands in the source, with its own pairs. -/
theorem at_of_mem_place {items : List Sexp} {before after : List Pair}
    (hprinted : ∀ x ∈ place pos items, x.2.datum.PrintedAt src x.1)
    (hindex : src.layout.pairs.pairs = before ++ (pairsFrom pos items ++ after))
    (hbefore : ∀ p ∈ before, p.opening < pos)
    (hafter : ∀ x ∈ place pos items, ∀ p ∈ after, x.1 + x.2.size ≤ p.opening) :
    ∀ x ∈ place pos items, At src x.1 x.2 := by
  induction items generalizing pos before with
  | nil => simp [place]
  | cons s rest ih =>
    rw [place, List.forall_mem_cons] at hprinted hafter ⊢
    rw [pairsFrom_cons, List.append_assoc] at hindex
    refine ⟨⟨hprinted.1, before, _, hindex, hbefore, ?_⟩, ?_⟩
    · rw [List.forall_mem_append]
      refine ⟨fun p hp => ?_, hafter.1⟩
      have := bounds_of_mem_pairsFrom hp
      simp only
      omega
    · rw [← List.append_assoc] at hindex
      refine ih hprinted.2 hindex ?_ hafter.2
      rw [List.forall_mem_append]
      refine ⟨fun p hp => ?_, fun p hp => ?_⟩
      · have := hbefore p hp
        omega
      · have := bounds_of_mem_pairs hp
        omega

namespace At

variable {items : List Sexp}

/-- The items of a list are printed in it. -/
theorem inner (h : At src pos (list items)) : ∀ x ∈ place (pos + 1) items, At src x.1 x.2 := by
  obtain ⟨before, after, hindex, hbefore, hafter⟩ := h.index
  have hprinted := h.printed
  rw [datum] at hprinted
  rw [pairs_list, List.cons_append, ← List.singleton_append, ← List.append_assoc] at hindex
  refine at_of_mem_place (printedAt_of_mem_place hprinted.items) hindex ?_ ?_
  · rw [List.forall_mem_append, List.forall_mem_singleton]
    refine ⟨fun p hp => ?_, Nat.lt_succ_self _⟩
    have := hbefore p hp
    omega
  · intro x hx p hp
    have hplace := bounds_of_mem_place hx
    have hbehind := hafter p hp
    rw [size_list] at hbehind
    omega

/-- The elements of a list are those of its items, each at its place. -/
theorem elements_pairAt (h : At src pos (list items)) :
    src.elements ((list items).pairAt pos) =
      (place (pos + 1) items).map fun x => x.2.element x.1 := by
  have hprinted := h.printed
  rw [datum_list] at hprinted
  rw [place_eq, pairAt, size, datum_list]
  exact hprinted.elements_place

/-- What is read from a list is its items. -/
theorem items_pairAt (h : At src pos (list items)) :
    src.items ((list items).pairAt pos) =
      (place (pos + 1) items).map fun x => src.node (x.2.element x.1) := by
  have hprinted := h.printed
  rw [datum_list] at hprinted
  rw [place_eq, pairAt, size, datum_list]
  exact hprinted.items_place

/-- Inside a list are its items. -/
theorem items_node (h : At src pos (list items)) :
    (src.node ((list items).element pos)).items =
      (place (pos + 1) items).map fun x => src.node (x.2.element x.1) := by
  rw [← h.items_pairAt]
  simp only [Source.node, Node.items, Source.inside, element, datum, Datum.element, Element.group]
  rfl

/-- The lists directly inside a list. -/
theorem children (h : At src pos (list items)) :
    src.layout.pairs.children ((list items).pairAt pos) =
      (place (pos + 1) items).filterMap fun x => x.2.group? x.1 := by
  obtain ⟨before, after, hindex, hbefore, hafter⟩ := h.index
  have hsize := size_list items
  rw [pairs_list, List.cons_append] at hindex
  rw [PairIndex.children_of_pairs hindex hbefore]
  apply siblings_pairsFrom
  · intro x hx
    have := bounds_of_mem_place hx
    simp only [pairAt]
    omega
  · intro p hp
    have := hafter p hp
    simp only [pairAt]
    omega

end At

end Sexp

end LexScope
