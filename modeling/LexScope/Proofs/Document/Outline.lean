import LexScope.Document.Outline
import LexScope.Proofs.Binding.Siblings
import LexScope.Proofs.Form.Exclusion
import LexScope.Proofs.Form.Pieces

/-!
# What an outline shows

An outline lists its items from top to bottom, each with the item directly around it. Building the
forest does not change that list: finishing an item moves a subtree, but everything in it stays
behind its parent and before what comes next. So the list can be read off the sorted items alone,
where the item around another is the first one on a stack that covers it.

From this list follows what an outline shows: every binding once, one numbered container for each
form whose variables have no name around them, parents before their children, and around each item
the smallest one that covers it.
-/

namespace LexScope

/-! ## Items from top to bottom -/

namespace OutlineTree

mutual

/-- The items of a tree from top to bottom, each with the item directly around it. -/
def listing (around : Option OutlineItem) : OutlineTree → List (OutlineItem × Option OutlineItem)
  | .node item children => (item, around) :: listings (some item) children

/-- The items of some trees from top to bottom, each with the item directly around it. -/
def listings (around : Option OutlineItem) :
    List OutlineTree → List (OutlineItem × Option OutlineItem)
  | [] => []
  | t :: rest => listing around t ++ listings around rest

end

/-- The items of a forest from top to bottom. -/
def nodes (forest : List OutlineTree) : List OutlineItem := (listings none forest).map (·.1)

private theorem listings_append (around : Option OutlineItem) (xs ys : List OutlineTree) :
    listings around (xs ++ ys) = listings around xs ++ listings around ys := by
  induction xs with
  | nil => rfl
  | cons t rest ih => rw [List.cons_append, listings, ih, listings, List.append_assoc]

private theorem listings_singleton (around : Option OutlineItem) (t : OutlineTree) :
    listings around [t] = t.listing around := by
  rw [listings, listings, List.append_nil]

end OutlineTree

namespace Outline

open OutlineTree

/-! ## Building the forest -/

/-- What the opened items list, the outermost one first. -/
def openedListing : List Opened → List (OutlineItem × Option OutlineItem)
  | [] => []
  | o :: rest =>
    openedListing rest ++
      (o.item, (rest.head?).map (·.item)) :: listings (some o.item) o.children.reverse

/-- What the finished trees and the opened items list. -/
def stateListing (roots : List OutlineTree) (stack : List Opened) :
    List (OutlineItem × Option OutlineItem) :=
  listings none roots.reverse ++ openedListing stack

/-- Items with the items around them, where `stack` holds those that may be around the next one, the
innermost first. -/
def placedFrom (stack : List OutlineItem) :
    List OutlineItem → List (OutlineItem × Option OutlineItem)
  | [] => []
  | x :: rest =>
    let around := stack.dropWhile fun i => !i.span.covers x.span
    (x, around.head?) :: placedFrom (x :: around) rest

private theorem listing_finish (around : Option OutlineItem) (o : Opened) :
    o.finish.listing around = (o.item, around) :: listings (some o.item) o.children.reverse := by
  rw [Opened.finish, listing]

/-- Handing an item to the one around it does not change what is listed. -/
theorem openedListing_finish (top parent : Opened) (rest : List Opened) :
    openedListing ({ parent with children := top.finish :: parent.children } :: rest) =
      openedListing (top :: parent :: rest) := by
  simp only [openedListing, List.reverse_cons, listings_append, listings_singleton, listing_finish,
    List.head?_cons, Option.map_some, List.append_assoc, List.cons_append]

/-- Nor does finishing an item that nothing is around. -/
theorem stateListing_finish (roots : List OutlineTree) (top : Opened) :
    stateListing (top.finish :: roots) [] = stateListing roots [top] := by
  simp only [stateListing, openedListing, List.reverse_cons, listings_append, listings_singleton,
    listing_finish, List.head?_nil, Option.map_none, List.append_nil, List.nil_append]

/-- Finishing the items that do not cover a span keeps what is listed, and leaves on the stack what
is around the span. -/
theorem stateListing_close (span : Span) (roots : List OutlineTree) (stack : List Opened) :
    stateListing (close span roots stack).roots (close span roots stack).stack =
        stateListing roots stack ∧
      (close span roots stack).stack.map (·.item) =
        (stack.map (·.item)).dropWhile fun i => !i.span.covers span := by
  fun_induction close span roots stack with
  | case1 => exact ⟨rfl, rfl⟩
  | case2 top rest hcovers => exact ⟨rfl, by simp [hcovers]⟩
  | case3 top hcovers => exact ⟨stateListing_finish roots top, by simp [hcovers]⟩
  | case4 top hcovers parent rest ih =>
    refine ⟨ih.1.trans ?_, ih.2.trans (by simp [hcovers])⟩
    simp only [stateListing, openedListing_finish]

/-- Finishing everything keeps what is listed. -/
theorem listings_closeAll (roots : List OutlineTree) (stack : List Opened) :
    listings none (closeAll roots stack) = stateListing roots stack := by
  fun_induction closeAll roots stack with
  | case1 => simp [stateListing, openedListing]
  | case2 top =>
    rw [← stateListing_finish]
    simp [stateListing, openedListing]
  | case3 top parent rest ih =>
    rw [ih]
    simp only [stateListing, openedListing_finish]

/-- Placing items lists them behind the others, each in what is left of the stack. -/
theorem stateListing_foldl_place (items : List OutlineItem) (st : State) :
    stateListing (items.foldl place st).roots (items.foldl place st).stack =
      stateListing st.roots st.stack ++ placedFrom (st.stack.map (·.item)) items := by
  induction items generalizing st with
  | nil => simp [placedFrom]
  | cons x rest ih =>
    obtain ⟨hlisting, hstack⟩ := stateListing_close x.span st.roots st.stack
    rw [List.foldl_cons, ih, placedFrom, ← hstack, ← hlisting]
    simp [place, stateListing, openedListing, listings]

/-- A forest lists the sorted items, each with the one around it. -/
theorem listings_nest (items : List OutlineItem) :
    listings none (nest items) = placedFrom [] (items.mergeSort order) := by
  rw [nest, listings_closeAll, stateListing_foldl_place]
  simp [stateListing, openedListing, listings]

private theorem map_fst_placedFrom (stack items : List OutlineItem) :
    (placedFrom stack items).map (·.1) = items := by
  induction items generalizing stack with
  | nil => rfl
  | cons x rest ih => rw [placedFrom, List.map_cons, ih]

/-- A forest holds the items in order. -/
theorem nodes_nest (items : List OutlineItem) : nodes (nest items) = items.mergeSort order := by
  rw [nodes, listings_nest, map_fst_placedFrom]

/-! ## What is around an item -/

/-- The first item comes no later: it starts earlier, or starts there too and ends no earlier. -/
def Before (x y : OutlineItem) : Prop :=
  x.span.start < y.span.start ∨ x.span.start = y.span.start ∧ y.span.stop ≤ x.span.stop

/-- The item directly around another: the smallest of those that cover it, if there are any. -/
def IsNearest (items : List OutlineItem) (x : OutlineItem) : Option OutlineItem → Prop
  | none => ∀ m ∈ items, m ≠ x → m.span.covers x.span = false
  | some p => p ∈ items ∧ p ≠ x ∧ p.span.covers x.span = true ∧
    ∀ m ∈ items, m ≠ x → m.span.covers x.span = true → m.span.covers p.span = true

private theorem order_iff {x y : OutlineItem} : order x y = true ↔
    x.span.start < y.span.start ∨ x.span.start = y.span.start ∧
      (y.span.stop < x.span.stop ∨ x.span.stop = y.span.stop ∧
        x.selection.start ≤ y.selection.start) := by
  simp [order]

private theorem pairwise_before (items : List OutlineItem) :
    (items.mergeSort order).Pairwise Before := by
  refine (List.pairwise_mergeSort ?_ ?_ items).imp fun {x y} h => ?_
  · intro x y z
    simp only [order_iff]
    omega
  · intro x y
    rw [Bool.or_eq_true, order_iff, order_iff]
    omega
  · rw [order_iff] at h
    unfold Before
    omega

/-- What stands directly around an item covers it. -/
theorem covers_of_mem_placedFrom {stack items : List OutlineItem} {x p : OutlineItem}
    (h : (x, some p) ∈ placedFrom stack items) : p.span.covers x.span = true := by
  induction items generalizing stack with
  | nil => cases h
  | cons y rest ih =>
    rw [placedFrom] at h
    rcases List.mem_cons.1 h with heq | h
    · obtain ⟨rfl, hhead⟩ := Prod.mk.inj heq
      have hcovers := List.head?_dropWhile_not (fun i : OutlineItem => !i.span.covers x.span) stack
      rw [← hhead] at hcovers
      simpa using hcovers
    · exact ih h

/-- Items with spans of their own, of which any two are nested or share no offset. -/
structure Laminar (items : List OutlineItem) : Prop where
  /-- No two items have one span. -/
  distinct : (items.map (·.span)).Nodup
  /-- Any two spans are nested or disjoint. -/
  nested : ∀ x ∈ items, ∀ y ∈ items, x.span.Laminar y.span

/-- What the stack holds between the items before and those to come: a chain of earlier items from
the inside out, among them all that cover any item to come. -/
structure Around (before stack rest : List OutlineItem) : Prop where
  /-- Each one covers those inside it. -/
  chain : stack.Pairwise fun x y => y.span.covers x.span = true
  /-- It holds earlier items. -/
  mem : ∀ m ∈ stack, m ∈ before
  /-- It holds those that cover what is to come. -/
  kept : ∀ m ∈ before, ∀ y ∈ rest, m.span.covers y.span = true → m ∈ stack

section Around

variable {before stack rest : List OutlineItem} {x m : OutlineItem}

private theorem covers_refl (s : Span) : s.covers s = true :=
  Span.covers_iff.2 ⟨Nat.le_refl _, Nat.le_refl _⟩

private theorem covers_trans {r s t : Span} (h : r.covers s = true) (h' : s.covers t = true) :
    r.covers t = true := by
  rw [Span.covers_iff] at h h' ⊢
  omega

/-- On a chain, what is left around a span covers it. -/
theorem covers_of_mem_dropWhile (hchain : stack.Pairwise fun x y => y.span.covers x.span = true)
    {s : Span} (h : m ∈ stack.dropWhile fun i => !i.span.covers s) : m.span.covers s = true := by
  induction stack with
  | nil => cases h
  | cons top rest ih =>
    obtain ⟨htop, hrest⟩ := List.pairwise_cons.1 hchain
    by_cases hcovers : top.span.covers s = true
    · rw [List.dropWhile_cons_of_neg (by simp [hcovers])] at h
      rcases List.mem_cons.1 h with rfl | h
      · exact hcovers
      · exact covers_trans (htop m h) hcovers
    · rw [List.dropWhile_cons_of_pos (by simp [hcovers])] at h
      exact ih hrest h

/-- What covers the span stays on the stack. -/
theorem mem_dropWhile_of_covers {s : Span} (hm : m ∈ stack) (h : m.span.covers s = true) :
    m ∈ stack.dropWhile fun i => !i.span.covers s := by
  induction stack with
  | nil => cases hm
  | cons top rest ih =>
    by_cases hcovers : top.span.covers s = true
    · rwa [List.dropWhile_cons_of_neg (by simp [hcovers])]
    · rw [List.dropWhile_cons_of_pos (by simp [hcovers])]
      rcases List.mem_cons.1 hm with rfl | hm
      · exact absurd h hcovers
      · exact ih hm

/-- Placing an item keeps what the stack holds. -/
theorem Around.step (h : Around before stack (x :: rest)) (hx : x.span.start < x.span.stop)
    (hordered : (before ++ x :: rest).Pairwise Before)
    (hlaminar : ∀ m ∈ before, m.span.Laminar x.span)
    (hproper : ∀ y ∈ rest, y.span.start < y.span.stop) :
    Around (before ++ [x]) (x :: stack.dropWhile fun i => !i.span.covers x.span) rest where
  chain := List.pairwise_cons.2 ⟨fun m hm => covers_of_mem_dropWhile h.chain hm,
    h.chain.sublist (List.dropWhile_sublist _)⟩
  mem m hm := by
    rcases List.mem_cons.1 hm with rfl | hm
    · simp
    · exact List.mem_append_left _ (h.mem m ((List.dropWhile_sublist _).subset hm))
  kept m hm y hy hcovers := by
    rcases List.mem_append.1 hm with hm | hm
    · refine List.mem_cons_of_mem _ ?_
      have hstack := h.kept m hm y (List.mem_cons_of_mem _ hy) hcovers
      refine mem_dropWhile_of_covers hstack ?_
      -- An earlier item that reaches over a later one reaches over all that start between them.
      have hmx := (List.pairwise_append.1 hordered).2.2 m hm x List.mem_cons_self
      have hxy := (List.pairwise_cons.1 (List.pairwise_append.1 hordered).2.1).1 y hy
      have hy := hproper y hy
      have hnested := hlaminar m hm
      unfold Before at hmx hxy
      simp only [Span.Laminar, Span.covers_iff] at hnested hcovers ⊢
      omega
    · rw [List.mem_singleton.1 hm]
      exact List.mem_cons_self

/-- What is left of the stack starts with the smallest item around the next one. -/
theorem Around.isNearest (h : Around before stack (x :: rest))
    (hordered : (before ++ x :: rest).Pairwise Before)
    (hdistinct : ((before ++ x :: rest).map (·.span)).Nodup) :
    IsNearest (before ++ x :: rest) x (stack.dropWhile fun i => !i.span.covers x.span).head? := by
  have hne : ∀ m ∈ before, m ≠ x := by
    rintro m hm rfl
    rw [List.map_append, List.nodup_append] at hdistinct
    exact hdistinct.2.2 _ (List.mem_map_of_mem hm) _ (List.mem_map_of_mem List.mem_cons_self) rfl
  -- Only earlier items cover the item.
  have hearlier : ∀ m ∈ before ++ x :: rest, m ≠ x → m.span.covers x.span = true →
      m ∈ before := by
    intro m hm hmx hcovers
    rcases List.mem_append.1 hm with hm | hm
    · exact hm
    · have hm := (List.mem_cons.1 hm).resolve_left hmx
      have hbehind := (List.pairwise_cons.1 (List.pairwise_append.1 hordered).2.1).1 m hm
      rw [List.map_append, List.nodup_append, List.map_cons, List.nodup_cons] at hdistinct
      refine absurd (List.mem_map.2 ⟨m, hm, ?_⟩) hdistinct.2.1.1
      rw [Span.covers_iff] at hcovers
      unfold Before at hbehind
      have hstart : m.span.start = x.span.start := by omega
      have hstop : m.span.stop = x.span.stop := by omega
      cases hms : m.span
      cases hxs : x.span
      simp only [hms, hxs] at hstart hstop
      rw [hstart, hstop]
  have hleft : ∀ m ∈ before ++ x :: rest, m ≠ x → m.span.covers x.span = true →
      m ∈ stack.dropWhile fun i => !i.span.covers x.span := fun m hm hmx hcovers =>
    mem_dropWhile_of_covers (h.kept m (hearlier m hm hmx hcovers) x List.mem_cons_self hcovers)
      hcovers
  have hmem : ∀ m ∈ stack.dropWhile (fun i => !i.span.covers x.span), m ∈ before :=
    fun m hm => h.mem m ((List.dropWhile_sublist _).subset hm)
  have hcovers : ∀ m ∈ stack.dropWhile (fun i => !i.span.covers x.span),
      m.span.covers x.span = true := fun m hm => covers_of_mem_dropWhile h.chain hm
  have hchain := h.chain.sublist (List.dropWhile_sublist fun i => !i.span.covers x.span)
  cases hstack : stack.dropWhile fun i => !i.span.covers x.span with
  | nil =>
    intro m hm hmx
    rw [Bool.eq_false_iff]
    intro hcovers
    have := hleft m hm hmx hcovers
    rw [hstack] at this
    cases this
  | cons p outer =>
    rw [hstack] at hmem hcovers hchain hleft
    refine ⟨List.mem_append_left _ (hmem p List.mem_cons_self), hne p (hmem p List.mem_cons_self),
      hcovers p List.mem_cons_self, fun m hm hmx hmcovers => ?_⟩
    rcases List.mem_cons.1 (hleft m hm hmx hmcovers) with rfl | hm
    · exact covers_refl _
    · exact (List.pairwise_cons.1 hchain).1 m hm

end Around

/-- Of items that nest, each is placed in the smallest one around it. -/
theorem isNearest_of_mem_placedFrom {before stack rest : List OutlineItem}
    (hlaminar : Laminar (before ++ rest)) (hproper : ∀ x ∈ rest, x.span.start < x.span.stop)
    (hordered : (before ++ rest).Pairwise Before) (haround : Around before stack rest)
    {x : OutlineItem} {around : Option OutlineItem}
    (h : (x, around) ∈ placedFrom stack rest) : IsNearest (before ++ rest) x around := by
  induction rest generalizing before stack with
  | nil => cases h
  | cons y rest ih =>
    rw [placedFrom] at h
    rcases List.mem_cons.1 h with heq | h
    · obtain ⟨rfl, rfl⟩ := Prod.mk.inj heq
      exact haround.isNearest hordered hlaminar.distinct
    · obtain ⟨hy, hproper⟩ := List.forall_mem_cons.1 hproper
      have hstep := haround.step hy hordered
        (fun m hm => hlaminar.nested m (List.mem_append_left _ hm) y (by simp)) hproper
      rw [List.append_cons] at hlaminar hordered ⊢
      exact ih hlaminar hproper hordered hstep h

/-! ## Containers -/

/-- The containers before a binding is added, and those after it: its container gets one more
member, or comes as a new one. -/
theorem addMember_cases (b : Binding) (cs : List Container) :
    (∃ before c after, cs = before ++ c :: after ∧ c.form = b.form ∧
        addMember b cs = before ++ { c with members := c.members ++ [b] } :: after) ∨
      (∀ c ∈ cs, c.form ≠ b.form) ∧
        addMember b cs = cs ++ [⟨b.form, b.container.getD "", [b]⟩] := by
  induction cs with
  | nil => exact .inr ⟨List.forall_mem_nil _, rfl⟩
  | cons c rest ih =>
    by_cases hform : c.form = b.form
    · exact .inl ⟨[], c, rest, rfl, hform, by simp [addMember, hform]⟩
    · rcases ih with ⟨before, d, after, hcs, hd, hadd⟩ | ⟨hnone, hadd⟩
      · exact .inl ⟨c :: before, d, after, by rw [hcs]; rfl, hd, by simp [addMember, hform, hadd]⟩
      · exact .inr ⟨List.forall_mem_cons.2 ⟨hform, hnone⟩, by simp [addMember, hform, hadd]⟩

/-- The containers hold the bindings, each in the container of its form. -/
structure Groups (bindings : List Binding) (cs : List Container) : Prop where
  /-- Each binding is a member once. -/
  members : (cs.flatMap (·.members)).Perm bindings
  /-- Members belong to the form. -/
  form : ∀ c ∈ cs, ∀ b ∈ c.members, b.form = c.form
  /-- The keyword is that of a member. -/
  keyword : ∀ c ∈ cs, ∃ b ∈ c.members, b.container.getD "" = c.keyword
  /-- Each form has one container. -/
  apart : cs.Pairwise fun c d => c.form ≠ d.form

private theorem Groups.add {bindings : List Binding} {cs : List Container} (h : Groups bindings cs)
    (b : Binding) : Groups (bindings ++ [b]) (addMember b cs) := by
  rcases addMember_cases b cs with ⟨before, c, after, rfl, hform, hadd⟩ | ⟨hnone, hadd⟩
  · obtain ⟨hmembers, hforms, hkeyword, hapart⟩ := h
    rw [hadd]
    have hold {d : Container} (hd : d ∈ before ∨ d ∈ after) : d ∈ before ++ c :: after := by
      rcases hd with hd | hd <;> simp [hd]
    have hc : c ∈ before ++ c :: after := by simp
    have hcases {d : Container}
        (hd : d ∈ before ++ { c with members := c.members ++ [b] } :: after) :
        d ∈ before ++ c :: after ∨ d = { c with members := c.members ++ [b] } := by
      rcases List.mem_append.1 hd with hd | hd
      · exact .inl (hold (.inl hd))
      · exact (List.mem_cons.1 hd).symm.imp (fun hd => hold (.inr hd)) id
    constructor
    case members =>
      simp only [List.flatMap_append, List.flatMap_cons, List.append_assoc] at hmembers ⊢
      refine .trans ?_ (hmembers.append_right [b])
      simp only [List.append_assoc]
      have hswap : ([b] ++ after.flatMap (·.members)).Perm (after.flatMap (·.members) ++ [b]) :=
        List.perm_append_comm
      exact (hswap.append_left _).append_left _
    case form =>
      intro d hd m hm
      rcases hcases hd with hd | rfl
      · exact hforms d hd m hm
      · rcases List.mem_append.1 hm with hm | hm
        · exact hforms c hc m hm
        · rw [List.mem_singleton.1 hm]
          exact hform.symm
    case keyword =>
      intro d hd
      rcases hcases hd with hd | rfl
      · exact hkeyword d hd
      · obtain ⟨m, hm, hkey⟩ := hkeyword c hc
        exact ⟨m, List.mem_append_left _ hm, hkey⟩
    case apart =>
      rw [List.pairwise_append, List.pairwise_cons] at hapart ⊢
      refine ⟨hapart.1, hapart.2.1, fun d hd e he => ?_⟩
      rcases List.mem_cons.1 he with rfl | he
      · exact hapart.2.2 d hd c List.mem_cons_self
      · exact hapart.2.2 d hd e (List.mem_cons_of_mem _ he)
  · rw [hadd]
    constructor
    case members =>
      rw [List.flatMap_append]
      exact h.members.append_right [b]
    case form =>
      intro d hd m hm
      rcases List.mem_append.1 hd with hd | hd
      · exact h.form d hd m hm
      · obtain rfl := List.mem_singleton.1 hd
        rw [List.mem_singleton.1 hm]
    case keyword =>
      intro d hd
      rcases List.mem_append.1 hd with hd | hd
      · exact h.keyword d hd
      · obtain rfl := List.mem_singleton.1 hd
        exact ⟨b, List.mem_singleton_self b, rfl⟩
    case apart =>
      refine List.pairwise_append.2 ⟨h.apart, List.pairwise_singleton _ _, fun d hd e he => ?_⟩
      rw [List.mem_singleton.1 he]
      exact hnone d hd

private theorem groups_foldl (bindings seen : List Binding) (cs : List Container)
    (h : Groups seen cs) :
    Groups (seen ++ bindings) (bindings.foldl (fun cs b => addMember b cs) cs) := by
  induction bindings generalizing seen cs with
  | nil => rwa [List.append_nil]
  | cons b rest ih =>
    rw [List.append_cons]
    exact ih _ _ (h.add b)

private theorem Groups.perm {bindings : List Binding} {cs ds : List Container}
    (h : Groups bindings cs)
    (hperm : ds.Perm cs) : Groups bindings ds where
  members := (hperm.flatMap_right _).trans h.members
  form c hc := h.form c (hperm.mem_iff.1 hc)
  keyword c hc := h.keyword c (hperm.mem_iff.1 hc)
  apart := (hperm.pairwise_iff fun h => h.symm).2 h.apart

private theorem groups_containers (bindings : List Binding) : Groups bindings
    (containers bindings) := by
  have hempty : Groups [] [] :=
    ⟨.refl _, List.forall_mem_nil _, List.forall_mem_nil _, List.Pairwise.nil⟩
  exact (groups_foldl bindings [] [] hempty).perm (List.mergeSort_perm _ _)

private theorem pairwise_containers (bindings : List Binding) :
    (containers bindings).Pairwise fun c d => c.form.start ≤ d.form.start := by
  refine (List.pairwise_mergeSort ?_ ?_ _).imp of_decide_eq_true
  · intro c d e
    simp only [decide_eq_true_eq]
    exact Nat.le_trans
  · intro c d
    simpa only [Bool.or_eq_true, decide_eq_true_eq] using Nat.le_total _ _

/-- Forms with their keywords as containers, where each one is numbered among those of its
keyword. -/
def numbered (forms : List (Span × String)) : List OutlineItem :=
  forms.mapIdx fun i f =>
    ⟨s!"{f.2} {((forms.take i).map (·.2)).count f.2 + 1}", none, f.1, f.1⟩

/-- The items of containers are their members and, in order, the containers themselves. -/
theorem containerItems_spec (before : List String) (cs : List Container) :
    ((containerItems before cs).filter (·.kind.isSome)) =
        (cs.flatMap (·.members)).map (fun b => leaf b b.site) ∧
      ((containerItems before cs).filter (·.kind.isNone)) =
        cs.mapIdx fun i c => ⟨s!"{c.keyword} {before.count c.keyword +
          ((cs.take i).map (·.keyword)).count c.keyword + 1}", none, c.form, c.form⟩ := by
  have hleaves (bs : List Binding) :
      (bs.map fun b => leaf b b.site).filter (·.kind.isSome) = bs.map (fun b => leaf b b.site) ∧
        (bs.map fun b => leaf b b.site).filter (·.kind.isNone) = [] := by
    constructor
    · exact List.filter_eq_self.2 (List.forall_mem_map.2 fun b _ => rfl)
    · exact List.filter_eq_nil_iff.2 (List.forall_mem_map.2 fun b _ => by simp [leaf])
  induction cs generalizing before with
  | nil => exact ⟨rfl, rfl⟩
  | cons c rest ih =>
    obtain ⟨hsome, hnone⟩ := hleaves c.members
    rw [containerItems]
    constructor
    · simp only [List.filter_append, hsome, List.flatMap_cons, List.map_append]
      rw [List.filter_cons_of_neg (by simp), (ih _).1]
    · simp only [List.filter_append, hnone, List.nil_append, List.mapIdx_cons]
      rw [List.filter_cons_of_pos (by simp), (ih _).2]
      refine congrArg₂ _ (by simp) (congrArg (List.mapIdx · rest) ?_)
      funext i d
      simp only [List.take_succ_cons, List.map_cons, List.count_cons]
      congr 3
      omega

end Outline

/-! ## Forms and their keywords -/

/-- The collections whose variables have no name around them. -/
def Collection.unnamed : List Collection := [anonymousVariable, singleVariable, loopBinding]

/-- A variable among the entries that has no name around it belongs to the form and carries its
keyword. -/
def Entry.Carries (form : Span) (keyword : String) (e : Entry) : Prop :=
  ∀ c b, e = .binding c b → c ∈ Collection.unnamed → b.form = form ∧ b.container = some keyword

section Carries

variable {src : Source} {form : Pair} {keyword : String}

private theorem Entry.carries_lexical {c : Collection} {kind : BindingKind} {start : Nat}
    {n : NameSite} :
    ∀ e ∈ Entry.lexical c kind keyword form form.span start n, e.Carries form.span keyword := by
  intro e he d b hb _
  unfold Entry.lexical at he
  split at he
  · rw [List.mem_singleton.1 he] at hb
    cases hb
    exact ⟨rfl, rfl⟩
  · cases he

namespace Variable

variable {operands : List Node} {kind : BindingKind}

private theorem carries_letEntries {sequential : Bool} :
    ∀ e ∈ letEntries src form keyword sequential kind operands, e.Carries form.span keyword := by
  intro e he
  unfold letEntries at he
  split at he
  · cases he
  · obtain ⟨spec, -, he⟩ := List.mem_flatMap.1 he
    exact Entry.carries_lexical e he

private theorem carries_doEntries {sequential : Bool} :
    ∀ e ∈ doEntries src form keyword sequential operands, e.Carries form.span keyword := by
  intro e he d b hb _
  unfold doEntries at he
  split at he
  · cases he
  · obtain ⟨spec, -, he⟩ := List.mem_flatMap.1 he
    unfold doEntry at he
    rcases List.mem_append.1 he with hstep | hbinding
    · split at hstep
      · obtain ⟨n, -, rfl⟩ := List.mem_map.1 hstep
        cases hb
      · cases hstep
    · split at hbinding
      · rw [List.mem_singleton.1 hbinding] at hb
        cases hb
        exact ⟨rfl, rfl⟩
      · cases hbinding

private theorem carries_lambdaEntries :
    ∀ e ∈ lambdaEntries src form operands, e.Carries form.span "lambda" := by
  intro e he
  obtain ⟨p, -, he⟩ := List.mem_flatMap.1 he
  exact Entry.carries_lexical e he

private theorem carries_valueEntries {destructuring : Bool} :
    ∀ e ∈ valueEntries src form keyword destructuring operands, e.Carries form.span keyword := by
  intro e he
  unfold valueEntries at he
  split at he
  · split at he
    · cases he
    · obtain ⟨param, -, he⟩ := List.mem_flatMap.1 he
      exact Entry.carries_lexical e he
  · cases he

private theorem carries_singleEntries {iterates : Bool} :
    ∀ e ∈ singleEntries src form keyword iterates kind operands, e.Carries form.span keyword := by
  intro e he
  unfold singleEntries at he
  split at he
  · cases he
  · split at he
    · cases he
    · exact Entry.carries_lexical e he

end Variable

namespace Loop

variable {kind : BindingKind}

mutual

private theorem carries_bindTarget : ∀ n : Node,
    ∀ e ∈ bindTarget src form kind n, e.Carries form.span "loop"
  | .mk element items => by
    intro e he
    unfold bindTarget at he
    split at he
    · obtain ⟨name, -, he⟩ := List.mem_flatMap.1 he
      exact Entry.carries_lexical e he
    · split at he
      · cases he
      · exact carries_bindTargets items e he
    · cases he

private theorem carries_bindTargets : ∀ nodes : List Node,
    ∀ e ∈ bindTargets src form kind nodes, e.Carries form.span "loop"
  | [] => by simp [bindTargets]
  | n :: rest => by
    intro e he
    unfold bindTargets at he
    rcases List.mem_append.1 he with he | he
    · exact carries_bindTarget n e he
    · exact carries_bindTargets rest e he

end

private theorem carries_clauses {st : State} {nodes : List Node} :
    ∀ e ∈ clauses src form st nodes, e.Carries form.span "loop" := by
  induction nodes generalizing st with
  | nil => simp [clauses]
  | cons n rest ih =>
    intro e he
    unfold clauses at he
    split at he
    case h_1 | h_2 => exact (List.mem_append.1 he).elim (carries_bindTarget n e) (ih e)
    case h_3 =>
      rcases List.mem_append.1 he with he | he
      · split at he
        · obtain ⟨m, -, he⟩ := List.mem_flatMap.1 he
          exact carries_bindTarget m e he
        · cases he
      · exact ih e he
    case h_4 => exact ih e he

end Loop

/-- The variables of a form that have no name around them carry one keyword. -/
theorem BindingForm.exists_carries (hsrc : src.Nests) {f : BindingForm}
    (hf : f.pair ∈ src.layout.pairs.pairs) :
    ∃ keyword, ∀ e ∈ f.entries src, e.Carries f.pair.span keyword := by
  obtain ⟨_, _, _, hbinds⟩ := BindingForm.exists_bindsLike hsrc hf
  have hnamed (h : ∀ c ∈ f.head.collections, c ∉ Collection.unnamed) :
      ∃ keyword, ∀ e ∈ f.entries src, e.Carries f.pair.span keyword := by
    refine ⟨"", fun e he c b hb hc => ?_⟩
    exact absurd hc (h c (hbinds c b (hb ▸ he)).1)
  cases hhead : f.head with
  | global d => exact hnamed (by simp [hhead, Head.collections, Collection.unnamed])
  | localFunctions form => exact hnamed (by simp [hhead, Head.collections, Collection.unnamed])
  | _ =>
    unfold BindingForm.entries
    rw [hhead]
    split
    · exact ⟨"", List.forall_mem_nil _⟩
    · first
      | exact ⟨_, Variable.carries_letEntries⟩
      | exact ⟨_, Variable.carries_doEntries⟩
      | exact ⟨_, Variable.carries_lambdaEntries⟩
      | exact ⟨_, Variable.carries_valueEntries⟩
      | exact ⟨_, Variable.carries_singleEntries⟩
      | exact ⟨_, Loop.carries_clauses⟩

/-- Variables of one form that have no name around them have one container. -/
theorem Table.container_eq_of_form_eq (hsrc : src.Nests) {mode : Mode} {c d : Collection}
    (hc : c ∈ Collection.unnamed) (hd : d ∈ Collection.unnamed) {b e : Binding}
    (hb : b ∈ (Table.ofSource src mode).get c) (he : e ∈ (Table.ofSource src mode).get d)
    (hform : b.form = e.form) : b.container = e.container := by
  obtain ⟨f, hf, hfpair, hfentry⟩ := exists_form hb
  obtain ⟨g, hg, hgpair, hgentry⟩ := exists_form he
  obtain ⟨keyword, hkeyword⟩ := BindingForm.exists_carries hsrc hfpair
  obtain ⟨keyword', hkeyword'⟩ := BindingForm.exists_carries hsrc hgpair
  obtain ⟨hbform, hbcontainer⟩ := hkeyword _ hfentry c b rfl hc
  obtain ⟨heform, -⟩ := hkeyword' _ hgentry d e rfl hd
  have hclosing : f.pair.closing = g.pair.closing := by
    have hstop := congrArg Span.stop (hbform.symm.trans (hform.trans heform))
    exact Nat.succ.inj hstop
  obtain rfl := BindingForm.eq_of_closing hsrc hf hg hclosing
  rw [hbcontainer, (hkeyword _ hgentry d e rfl hd).2]

end Carries

namespace Outline

open OutlineTree

/-! ## All items -/

/-- A binding as a line of the outline. A definition stands for its form, anything else for its
name. -/
def line (c : Collection) (b : Binding) : OutlineItem :=
  match c with
  | .globalDefinition | .localDefinition => leaf b (b.form.hull b.site)
  | _ => leaf b b.site

/-- All bindings as lines of the outline. -/
def lines (t : Table) : List OutlineItem :=
  Collection.all.flatMap fun c => (t.get c).map (line c)

/-- What an outline shows of the bindings of a document. -/
structure Shows (t : Table) (forest : List OutlineTree) : Prop where
  /-- Each binding is shown once. -/
  bindings : ((nodes forest).filter (·.kind.isSome)).Perm (lines t)
  /-- Beside them, each form with variables that have no name around them is shown once, as the
  container of its variables, and numbered among the forms of its keyword. -/
  containers : ∃ forms : List (Span × String),
    (forms.Pairwise fun f g => f.1.start < g.1.start) ∧
      (∀ f, f ∈ forms ↔ ∃ c ∈ Collection.unnamed, ∃ b ∈ t.get c,
        b.form = f.1 ∧ b.container = some f.2) ∧
      (nodes forest).filter (·.kind.isNone) = numbered forms
  /-- Items come by their starts, and the longer ones first where they start together. -/
  ordered : (nodes forest).Pairwise Before
  /-- An item covers those directly inside it. -/
  inside : ∀ x p, (x, some p) ∈ listings none forest → p.span.covers x.span = true
  /-- An item covers what is selected when it is chosen. -/
  selection : ∀ x ∈ nodes forest, x.span.covers x.selection = true
  /-- If the spans of the items nest, an item stands directly inside the smallest one around it. -/
  nearest : Laminar (nodes forest) → ∀ x around, (x, around) ∈ listings none forest →
    IsNearest (nodes forest) x around

section Items

variable {t : Table}

/-- The variables that have no name around them. -/
def unnamed (t : Table) : List Binding := Collection.unnamed.flatMap t.get

private theorem items_eq (t : Table) : items t =
    ((t.globalDefinitions ++ t.localDefinitions).map fun b => leaf b (b.form.hull b.site)) ++
      ((t.globalParameters ++ t.localParameters).map fun b => leaf b b.site) ++
        containerItems [] (Outline.containers (unnamed t)) := by
  simp [items, unnamed, Collection.unnamed, Table.get]

private theorem filter_isSome_items (t : Table) :
    ((items t).filter (·.kind.isSome)).Perm (lines t) := by
  have hleaves (bs : List Binding) (span : Binding → Span) :
      (bs.map fun b => leaf b (span b)).filter (·.kind.isSome) = bs.map fun b => leaf b (span b) :=
    List.filter_eq_self.2 (List.forall_mem_map.2 fun b _ => rfl)
  have hmembers := (groups_containers (unnamed t)).members.map fun b => leaf b b.site
  rw [items_eq, List.filter_append, List.filter_append, hleaves, hleaves,
    (containerItems_spec [] _).1]
  refine (hmembers.append_left _).trans ?_
  simp only [lines, Collection.all, Collection.lexical, unnamed, Collection.unnamed, Table.get,
    List.flatMap_cons, List.flatMap_nil, List.map_append, List.append_nil, List.append_assoc]
  exact (List.perm_append_comm_assoc _ _ _).append_left _

private theorem filter_isNone_items (t : Table) : (items t).filter (·.kind.isNone) =
    numbered ((Outline.containers (unnamed t)).map fun c => (c.form, c.keyword)) := by
  have hleaves (bs : List Binding) (span : Binding → Span) :
      (bs.map fun b => leaf b (span b)).filter (·.kind.isNone) = [] :=
    List.filter_eq_nil_iff.2 (List.forall_mem_map.2 fun b _ => by simp [leaf])
  rw [items_eq, List.filter_append, List.filter_append, hleaves, hleaves,
    (containerItems_spec [] _).2, numbered]
  refine List.ext_getElem (by simp) fun i _ _ => ?_
  simp [List.getElem_mapIdx, ← List.map_take, Function.comp_def]

/-- Each item is the line of a binding or the container of a form. -/
theorem mem_items {x : OutlineItem} (h : x ∈ items t) :
    (∃ c, ∃ b ∈ t.get c, x = line c b) ∨
      ∃ c ∈ Outline.containers (unnamed t), ∃ name, x = ⟨name, none, c.form, c.form⟩ := by
  cases hkind : x.kind.isSome with
  | true =>
    have hline := (filter_isSome_items t).mem_iff.1 (List.mem_filter.2 ⟨h, hkind⟩)
    obtain ⟨c, -, hx⟩ := List.mem_flatMap.1 hline
    obtain ⟨b, hb, rfl⟩ := List.mem_map.1 hx
    exact .inl ⟨c, b, hb, rfl⟩
  | false =>
    have hcontainer : x ∈ (items t).filter (·.kind.isNone) :=
      List.mem_filter.2 ⟨h, by simpa using hkind⟩
    rw [items_eq, List.filter_append, List.mem_append, (containerItems_spec [] _).2] at hcontainer
    rcases hcontainer with hleaf | hcontainer
    · simp only [List.filter_append, List.mem_append, List.mem_filter, List.mem_map] at hleaf
      rcases hleaf with ⟨⟨b, -, rfl⟩, hnone⟩ | ⟨⟨b, -, rfl⟩, hnone⟩ <;> cases hnone
    · obtain ⟨i, hi, rfl⟩ := List.mem_mapIdx.1 hcontainer
      exact .inr ⟨_, List.getElem_mem hi, _, rfl⟩

private theorem numbered_pairwise {forms : List (Span × String)}
    (h : forms.Pairwise fun f g => f.1.start < g.1.start) :
    (numbered forms).Pairwise fun x y => x.span.start < y.span.start := by
  rw [List.pairwise_iff_getElem] at h ⊢
  intro i j hi hj hij
  simpa [numbered] using h i j (by simpa [numbered] using hi) (by simpa [numbered] using hj) hij

end Items

section Document

variable {src : Source} {mode : Mode}

/-- A variable that has no name around it has a container, and its form is a bracketed form. -/
theorem unnamed_regular (hsrc : src.Nests) {c : Collection} (hc : c ∈ Collection.unnamed)
    {b : Binding} (hb : b ∈ (Table.ofSource src mode).get c) :
    (∃ p ∈ src.layout.pairs.pairs, b.form = p.span) ∧ ∃ keyword, b.container = some keyword := by
  have hregular := (Table.regular_ofSource hsrc mode).bindings c b hb
  refine ⟨hregular.form, Option.isSome_iff_exists.1 (hregular.lexical ?_).1⟩
  rintro rfl
  simp [Collection.unnamed] at hc

/-- The containers of a document are those of the forms whose variables have no name around them, in
the order of the forms. -/
theorem exists_forms (hsrc : src.Nests) (mode : Mode) : ∃ forms : List (Span × String),
    (forms.Pairwise fun f g => f.1.start < g.1.start) ∧
      (∀ f, f ∈ forms ↔ ∃ c ∈ Collection.unnamed, ∃ b ∈ (Table.ofSource src mode).get c,
        b.form = f.1 ∧ b.container = some f.2) ∧
      (items (Table.ofSource src mode)).filter (·.kind.isNone) = numbered forms := by
  have hgroups := groups_containers (unnamed (Table.ofSource src mode))
  -- A container is that of any variable of its form.
  have hmember : ∀ k ∈ Outline.containers (unnamed (Table.ofSource src mode)),
      ∃ c ∈ Collection.unnamed, ∃ b ∈ (Table.ofSource src mode).get c,
        b.form = k.form ∧ b.container = some k.keyword := by
    intro k hk
    obtain ⟨b, hb, hkeyword⟩ := hgroups.keyword k hk
    have hform := hgroups.form k hk b hb
    obtain ⟨c, hc, hb⟩ :=
      List.mem_flatMap.1 (hgroups.members.mem_iff.1 (List.mem_flatMap.2 ⟨k, hk, hb⟩))
    obtain ⟨-, keyword, hcontainer⟩ := unnamed_regular hsrc hc hb
    rw [hcontainer, Option.getD_some] at hkeyword
    exact ⟨c, hc, b, hb, hform, hkeyword ▸ hcontainer⟩
  refine ⟨_, ?_, fun f => ?_, filter_isNone_items (Table.ofSource src mode)⟩
  · rw [List.pairwise_map]
    refine ((pairwise_containers _).and hgroups.apart).imp_of_mem fun {c d} hc hd ⟨hle, hne⟩ => ?_
    refine Nat.lt_of_le_of_ne hle fun hstart => hne ?_
    obtain ⟨_, hc, b, hb, hbform, -⟩ := hmember c hc
    obtain ⟨_, hd, e, he, heform, -⟩ := hmember d hd
    obtain ⟨⟨p, hp, hbspan⟩, -⟩ := unnamed_regular hsrc hc hb
    obtain ⟨⟨q, hq, hespan⟩, -⟩ := unnamed_regular hsrc hd he
    rw [← hbform, ← heform, hbspan, hespan] at hstart ⊢
    rw [hsrc.nests.laminar.eq_of_shared hp hq (.inl hstart) (.inl rfl)]
  · constructor
    · intro hf
      obtain ⟨k, hk, rfl⟩ := List.mem_map.1 hf
      exact hmember k hk
    · rintro ⟨c, hc, b, hb, hform, hcontainer⟩
      obtain ⟨k, hk, hbk⟩ := List.mem_flatMap.1
        (hgroups.members.mem_iff.2 (List.mem_flatMap.2 ⟨c, hc, hb⟩))
      obtain ⟨d, hd, e, he, heform, hecontainer⟩ := hmember k hk
      have hbform := hgroups.form k hk b hbk
      have hsame := Table.container_eq_of_form_eq hsrc hc hd hb he (hbform.trans heform.symm)
      have hkeyword : f.2 = k.keyword :=
        Option.some.inj (hcontainer.symm.trans (hsame.trans hecontainer))
      exact List.mem_map.2 ⟨k, hk, Prod.ext (hbform.symm.trans hform) hkeyword.symm⟩

/-- The items of a document have spans that are not empty and cover what is selected. -/
theorem covers_of_mem_items (hsrc : src.Nests) {x : OutlineItem}
    (h : x ∈ items (Table.ofSource src mode)) :
    x.span.start < x.span.stop ∧ x.span.covers x.selection = true := by
  rcases mem_items h with ⟨c, b, hb, rfl⟩ | ⟨k, hk, name, rfl⟩
  · have hproper := ((Table.regular_ofSource hsrc mode).bindings c b hb).proper
    cases c <;>
      simp only [line, leaf, Span.covers_iff, Span.hull] <;>
      omega
  · obtain ⟨b, hb, -⟩ := (groups_containers _).keyword k hk
    have hform := (groups_containers _).form k hk b hb
    obtain ⟨c, hc, hb⟩ := List.mem_flatMap.1
      ((groups_containers _).members.mem_iff.1 (List.mem_flatMap.2 ⟨k, hk, hb⟩))
    obtain ⟨⟨p, hp, hspan⟩, -⟩ := unnamed_regular hsrc hc hb
    have hlt := hsrc.nests.laminar.lt p hp
    refine ⟨?_, covers_refl _⟩
    rw [← hform, hspan]
    simp only [Pair.span]
    omega

end Document

end Outline

open Outline OutlineTree in
/-- The outline of a document shows every binding once, beside one numbered container for each form
whose variables have no name around them; parents come before their children and cover them, and
where the spans nest, an item stands in the smallest one around it. -/
theorem Analysis.shows_outline (settings : Settings) (text : String) :
    Shows (analyze settings text).table (analyze settings text).outline := by
  rw [analyze_eq, Analysis.outline]
  have hsrc := Source.nests_ofText text
  generalize Source.ofText text = src at hsrc ⊢
  have hnodes := nodes_nest (items (Table.ofSource src settings.collection))
  have hperm := List.mergeSort_perm (items (Table.ofSource src settings.collection)) order
  have hordered := pairwise_before (items (Table.ofSource src settings.collection))
  rw [← hnodes] at hperm hordered
  have hitems : ∀ x ∈ nodes (nest (items (Table.ofSource src settings.collection))),
      x.span.start < x.span.stop ∧ x.span.covers x.selection = true :=
    fun x hx => covers_of_mem_items hsrc (hperm.mem_iff.1 hx)
  constructor
  case bindings => exact (hperm.filter _).trans (filter_isSome_items _)
  case containers =>
    obtain ⟨forms, hpairwise, hmem, hforms⟩ := exists_forms hsrc settings.collection
    refine ⟨forms, hpairwise, hmem, ?_⟩
    -- Both lists hold the containers by their starts, and no two of these are equal.
    have hstrict := numbered_pairwise hpairwise
    have hcontainers := hperm.filter fun x => x.kind.isNone
    rw [hforms] at hcontainers
    have hstarts : ((nodes (nest (items (Table.ofSource src settings.collection)))).filter
        (·.kind.isNone)).Pairwise fun x y => x.span.start ≤ y.span.start :=
      (hordered.filter _).imp fun h => by
        unfold Before at h
        omega
    refine hcontainers.eq_of_pairwise (fun x y hx hy hle hge => ?_) hstarts
      (hstrict.imp Nat.le_of_lt)
    rcases eq_or_rel_of_pairwise hstrict (hcontainers.mem_iff.1 hx) hy with heq | h | h
    · exact heq
    all_goals omega
  case ordered => exact hordered
  case inside =>
    intro x p h
    rw [listings_nest] at h
    exact covers_of_mem_placedFrom h
  case selection => exact fun x hx => (hitems x hx).2
  case nearest =>
    intro hlaminar x around h
    rw [listings_nest, ← hnodes] at h
    have haround : Around [] [] (nodes (nest (items (Table.ofSource src settings.collection)))) :=
      ⟨List.Pairwise.nil, List.forall_mem_nil _, by simp⟩
    exact isNearest_of_mem_placedFrom hlaminar (fun x hx => (hitems x hx).1) hordered haround h

end LexScope
