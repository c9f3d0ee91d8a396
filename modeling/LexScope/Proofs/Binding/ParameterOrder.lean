import LexScope.Proofs.Binding.Parameters
import LexScope.Proofs.Binding.Siblings
import Mathlib

/-!
# The order of parameters

The parameters of a lambda list come in the order in which they are written and become visible in
that order, so that binding them one after the other is what the list says. A list that destructures
looks into more groups and finds every parameter that is found without: a group that is an entry in
brackets otherwise starts with the name that it has as a lambda list, since a marker is no name.
-/

namespace LexScope

open Loop (InOrder)

/-- The first parameter is written before the second one, and visible no later. -/
def Parameter.Before (p q : Parameter) : Prop :=
  p.site.stop ≤ q.site.start ∧ p.visibleFrom ≤ q.visibleFrom

/-- Entries of a part whose groups may be lambda lists have no third name. -/
theorem ListPart.hasSuppliedName_of_nests {part : ListPart} (h : part.nests = true) :
    part.hasSuppliedName = false := by
  cases part with
  | required | rest => rfl
  | optional | key | aux => cases h

namespace LambdaList

variable {src : Source} {outer : Option Nat} {visibleFrom : Nat} {part : ListPart}

/-! ## Order -/

namespace Extracts

variable {nodes : List Node} {ps : List Parameter}

/-- A parameter is written in one of the nodes, and visible from the end of that node on, unless an
enclosing entry ends later. -/
theorem exists_node (h : Extracts src outer nodes ps) (hnested : ∀ n ∈ nodes, n.Nested) :
    ∀ p ∈ ps, ∃ n ∈ nodes, n.element.isString = false ∧ n.element.span.covers p.site = true ∧
      p.visibleFrom = outer.getD n.stop := by
  induction h with
  | nil => simp
  | @skip outer n rest ps h ih =>
    intro p hp
    obtain ⟨m, hm, hfound⟩ := ih (List.forall_mem_cons.1 hnested).2 p hp
    exact ⟨m, List.mem_cons_of_mem n hm, hfound⟩
  | @atom outer n rest ps hatom h ih =>
    intro p hp
    rcases List.mem_append.1 hp with hp | hp
    · have hstring : n.element.isString = false := by
        simp [Element.isString, beq_iff_eq.1 hatom]
      obtain ⟨-, rfl⟩ := mem_parameterAt.1 hp
      exact ⟨n, List.mem_cons_self, hstring,
        Span.covers_iff.2 ⟨Nat.le_refl _, Nat.le_refl _⟩, rfl⟩
    · obtain ⟨m, hm, hfound⟩ := ih (List.forall_mem_cons.1 hnested).2 p hp
      exact ⟨m, List.mem_cons_of_mem n hm, hfound⟩
  | @group outer n rest inner ps pair hkind h hinner ih ihinner =>
    obtain ⟨hn, hrest⟩ := List.forall_mem_cons.1 hnested
    intro p hp
    rcases List.mem_append.1 hp with hp | hp
    · have hstring : n.element.isString = false := by simp [Element.isString, hkind]
      obtain ⟨m, hm, -, hcovers, hfrom⟩ := ihinner hn.items p hp
      have hinside := hn.inside m hm
      rw [Span.covers_iff] at hcovers
      exact ⟨n, List.mem_cons_self, hstring, Span.covers_iff.2 ⟨by omega, by omega⟩, hfrom⟩
    · obtain ⟨m, hm, hfound⟩ := ih hrest p hp
      exact ⟨m, List.mem_cons_of_mem n hm, hfound⟩

/-- What is taken from a node comes before what is taken from the nodes behind it. -/
theorem before {n : Node} {p q : Parameter} (hn : InOrder src (n :: nodes)) (hsrc : src.Nests)
    (h : Extracts src outer nodes ps) (hsite : p.site.stop ≤ n.element.span.stop)
    (hfrom : p.visibleFrom = outer.getD n.stop) (hq : q ∈ ps) : p.Before q := by
  obtain ⟨m, hm, hstring, hcovers, hvisible⟩ := h.exists_node (hn.tail.nested hsrc) q hq
  have hle := (List.pairwise_cons.1 hn.ordered).1 m hm hstring
  have hproper := (hn.tail.nested hsrc m hm).proper
  rw [Span.covers_iff] at hcovers
  rw [Node.stop, Element.stop] at hle
  refine ⟨by omega, ?_⟩
  rw [hfrom, hvisible]
  cases outer with
  | none =>
    simp only [Option.getD_none, Node.stop, Element.stop]
    omega
  | some v => exact Nat.le_refl v

/-- Parameters come in the order in which they are written. -/
theorem pairwise_before (h : Extracts src outer nodes ps) (hsrc : src.Nests)
    (hnodes : InOrder src nodes) : ps.Pairwise Parameter.Before := by
  induction h with
  | nil => exact List.Pairwise.nil
  | skip h ih => exact ih hnodes.tail
  | @atom outer n rest ps hatom h ih =>
    refine List.pairwise_append.2 ⟨?_, ih hnodes.tail, fun p hp q hq => ?_⟩
    · simp only [parameterAt]
      split
      · exact List.pairwise_singleton _ _
      · exact List.Pairwise.nil
    · obtain ⟨-, rfl⟩ := mem_parameterAt.1 hp
      exact h.before hnodes hsrc (Nat.le_refl _) rfl hq
  | @group outer n rest inner ps pair hkind h hinner ih ihinner =>
    have hn := hnodes.nested hsrc n List.mem_cons_self
    refine List.pairwise_append.2
      ⟨ihinner (hnodes.items hsrc), ih hnodes.tail, fun p hp q hq => ?_⟩
    obtain ⟨m, hm, -, hcovers, hfrom⟩ := hinner.exists_node hn.items p hp
    have hinside := (hn.inside m hm).2
    rw [Span.covers_iff] at hcovers
    exact h.before hnodes hsrc (by omega) hfrom hq

end Extracts

/-! ## Destructuring -/

/-- A marker cannot be bound. -/
theorem isBindable_lowerCase_of_marker {word : String} (h : word.toList.head? = some '&') :
    isBindable (lowerCase word) = false := by
  obtain ⟨rest, hrest⟩ := List.head?_eq_some_iff.1 h
  have hlower : lowerChar '&' = '&' := by decide
  have hhead : (lowerCase word).toList.head? = some '&' := by
    rw [lowerCase, hrest, String.toList_ofList, lowerChars]
    simp [hlower]
  simp [isBindable, hhead]

/-- A name that can be bound opens no part of the list. -/
theorem partAfter_eq_none {n : Node} (h : isBindable (lowerCase (src.textAt n)) = true) :
    partAfter src part n = none := by
  rw [partAfter]
  split
  · next hmarker =>
    have hhead := beq_iff_eq.1 (Bool.and_eq_true_iff.1 hmarker).2
    rw [isBindable_lowerCase_of_marker hhead] at h
    cases h
  · rfl

private theorem isAtom_of_partAfter {n : Node} {opened : ListPart}
    (h : partAfter src part n = some opened) : n.element.isAtom = true := by
  rw [partAfter] at h
  split at h
  · next hmarker => exact (Bool.and_eq_true_iff.1 hmarker).1
  · cases h

/-- A node that opens a part names no parameter. -/
theorem parameterAt_of_partAfter {n : Node} {opened : ListPart}
    (h : partAfter src part n = some opened) :
    parameterAt src n.element.span visibleFrom = [] := by
  refine List.eq_nil_iff_forall_not_mem.2 fun p hp => ?_
  rw [partAfter_eq_none (mem_parameterAt.1 hp).1] at h
  cases h

private theorem sublist_ofVariable (n : Node) :
    (ofVariable src false visibleFrom n).Sublist (ofVariable src true visibleFrom n) := by
  cases n with
  | mk e items =>
    unfold ofVariable
    cases e.kind with
    | atom => exact List.Sublist.refl _
    | group => exact List.nil_sublist _
    | string => exact List.Sublist.refl _

private theorem sublist_ofKeyword (items : List Node) :
    (ofKeyword src false visibleFrom items).Sublist (ofKeyword src true visibleFrom items) := by
  cases items with
  | nil => simp [ofKeyword]
  | cons _ rest =>
    cases rest with
    | nil => simp [ofKeyword]
    | cons named _ =>
      rw [ofKeyword, ofKeyword]
      exact sublist_ofVariable named

private theorem sublist_ofSpecName (n : Node) :
    (ofSpecName src false part visibleFrom n).Sublist
      (ofSpecName src true part visibleFrom n) := by
  cases n with
  | mk e items =>
    unfold ofSpecName
    cases e.kind with
    | atom => exact List.Sublist.refl _
    | group =>
      simp only
      split
      · exact sublist_ofKeyword items
      · exact List.nil_sublist _
    | string => exact List.Sublist.refl _

private theorem sublist_ofSpec (items : List Node) :
    (ofSpec src false part visibleFrom items).Sublist (ofSpec src true part visibleFrom items) := by
  cases items with
  | nil => simp [ofSpec]
  | cons first rest =>
    rw [ofSpec, ofSpec]
    refine List.Sublist.append ?_ (List.Sublist.refl _)
    split
    · exact List.Sublist.refl _
    · exact sublist_ofSpecName first

/-- Where groups are lambda lists, the name that an entry in brackets starts with is an entry of the
lambda list. -/
theorem sublist_ofSpecName_ofEntry (hpart : part.nests = true) (n : Node) :
    (ofSpecName src false part visibleFrom n).Sublist
      (ofEntry src true .required visibleFrom n) := by
  cases n with
  | mk e items =>
    unfold ofSpecName ofEntry
    cases e.kind with
    | atom => exact List.Sublist.refl _
    | group =>
      cases part with
      | required | rest => exact List.nil_sublist _
      | optional | key | aux => cases hpart
    | string => exact List.Sublist.refl _

/-- An entry in brackets loses nothing when it is read as a lambda list. -/
theorem sublist_ofSpec_ofEntries (hpart : part.nests = true) (items : List Node) :
    (ofSpec src false part visibleFrom items).Sublist
      (ofEntries src true (some visibleFrom) .required items) := by
  cases items with
  | nil => simp [ofSpec]
  | cons first rest =>
    have hsupplied : suppliedName src part visibleFrom (first :: rest) = [] := by
      unfold suppliedName
      split <;> simp [ListPart.hasSuppliedName_of_nests hpart]
    rw [ofSpec, hsupplied, List.append_nil, ofEntries]
    split
    · exact List.nil_sublist _
    · split
      · next opened hafter =>
        have hatom := isAtom_of_partAfter hafter
        have hnothing : parameterAt src first.element.span visibleFrom = [] :=
          parameterAt_of_partAfter hafter
        cases first with
        | mk e inner =>
          simp only [Node.element, Element.isAtom, beq_iff_eq] at hatom hnothing
          simp [ofSpecName, hatom, hnothing]
      · exact List.sublist_append_of_sublist_left (sublist_ofSpecName_ofEntry hpart first)

private theorem sublist_ofEntry (n : Node) :
    (ofEntry src false part visibleFrom n).Sublist (ofEntry src true part visibleFrom n) := by
  cases n with
  | mk e items =>
    unfold ofEntry
    cases e.kind with
    | atom => exact List.Sublist.refl _
    | group =>
      cases hpart : part.nests with
      | true => exact sublist_ofSpec_ofEntries hpart items
      | false => exact sublist_ofSpec items
    | string => exact List.Sublist.refl _

/-- Entries have the same parameters, and perhaps more, where the list destructures. -/
theorem sublist_ofEntries (nodes : List Node) :
    (ofEntries src false outer part nodes).Sublist (ofEntries src true outer part nodes) := by
  induction nodes generalizing part with
  | nil => simp [ofEntries]
  | cons n rest ih =>
    rw [ofEntries, ofEntries]
    split
    · exact ih
    · split
      · exact ih
      · exact (sublist_ofEntry n).append ih

/-! ## The parameters of a list -/

/-- A name that can be bound and is itself an entry is a parameter. -/
theorem mem_ofEntries_of_isAtom {destructuring : Bool} {nodes : List Node} {n : Node}
    (hn : n ∈ nodes) (hatom : n.element.isAtom = true) (hquoted : n.quoted = false)
    (hbindable : isBindable (lowerCase (src.textAt n)) = true) :
    ⟨lowerCase (src.textAt n), n.element.span, outer.getD n.stop⟩ ∈
      ofEntries src destructuring outer part nodes := by
  induction nodes generalizing part with
  | nil => cases hn
  | cons m rest ih =>
    rw [ofEntries]
    rcases List.mem_cons.1 hn with rfl | hn
    · rw [hquoted, partAfter_eq_none hbindable]
      refine List.mem_append_left _ ?_
      cases n with
      | mk e items =>
        unfold ofEntry
        simp only [Node.element, Element.isAtom, beq_iff_eq] at hatom
        rw [hatom]
        exact mem_parameterAt.2 ⟨hbindable, rfl⟩
    · split
      · exact ih hn
      · split
        · exact ih hn
        · exact List.mem_append_right _ (ih hn)

/-- What holds of the parameters of the lambda list between two brackets. -/
structure Listed (src : Source) (p : Pair) (parameters : List Parameter) : Prop where
  /-- No name is empty. -/
  proper : ∀ q ∈ parameters, q.site.start < q.site.stop
  /-- Names are written between the brackets. -/
  inside : ∀ q ∈ parameters, p.opening < q.site.start ∧ q.site.stop ≤ p.closing
  /-- Each name ends before the next one starts. -/
  ordered : parameters.Pairwise fun q r => q.site.stop ≤ r.site.start
  /-- Names are in lower case, and can be bound. -/
  name : ∀ q ∈ parameters, q.name = lowerCase (src.slice q.site) ∧ isBindable q.name = true
  /-- A parameter is visible from a place behind its name on, -/
  visible : ∀ q ∈ parameters, q.site.stop ≤ q.visibleFrom ∧ q.visibleFrom ≤ p.closing
  /-- which is the end of the entry that the name stands in. -/
  entry : ∀ q ∈ parameters, ∃ n ∈ src.items p,
    n.element.span.covers q.site = true ∧ q.visibleFrom = n.stop
  /-- Parameters become visible one after the other. -/
  sequential : parameters.Pairwise fun q r => q.visibleFrom ≤ r.visibleFrom
  /-- A name that is itself an entry, is not quoted and can be bound is among them. -/
  complete : ∀ n ∈ src.items p, n.element.isAtom = true → n.quoted = false →
    isBindable (lowerCase (src.textAt n)) = true →
      ⟨lowerCase (src.textAt n), n.element.span, n.stop⟩ ∈ parameters

private theorem listed_ofItems (hsrc : src.Nests) {p : Pair} (hp : p ∈ src.layout.pairs.pairs)
    (destructuring : Bool) :
    Listed src p (ofEntries src destructuring none .required (src.items p)) := by
  have hextracts : Extracts src none (src.items p)
      (ofEntries src destructuring none .required (src.items p)) := extracts_ofEntries _ _ _
  have hwithin := hsrc.items hp
  have hnode := hextracts.exists_node fun n hn => (hwithin n hn).nested
  have hbefore := hextracts.pairwise_before hsrc ⟨⟨p, hp, fun _ hn => hn⟩, hsrc.pairwise_items p⟩
  have hwritten : ∀ q ∈ ofEntries src destructuring none .required (src.items p),
      q.Written src (p.opening + 1) p.closing := written_ofItems hwithin
  constructor
  case proper => exact fun q hq => (hwritten q hq).proper
  case inside =>
    intro q hq
    have hle := (hwritten q hq).le_hi
    exact ⟨(hwritten q hq).lo_le, Nat.le_trans hle (Nat.min_le_left _ _)⟩
  case ordered => exact hbefore.imp And.left
  case name => exact fun q hq => ⟨(hwritten q hq).name, (hwritten q hq).bindable⟩
  case visible =>
    intro q hq
    obtain ⟨n, hn, -, -, hfrom⟩ := hnode q hq
    have hle := (hwritten q hq).le_hi
    refine ⟨Nat.le_trans hle (Nat.min_le_right _ _), ?_⟩
    rw [hfrom]
    exact (hwithin n hn).le_hi
  case entry =>
    intro q hq
    obtain ⟨n, hn, -, hcovers, hfrom⟩ := hnode q hq
    exact ⟨n, hn, hcovers, hfrom⟩
  case sequential => exact hbefore.imp And.right
  case complete => exact fun n hn hatom hquoted => mem_ofEntries_of_isAtom hn hatom hquoted

/-- Every list in matched brackets has parameters, with and without destructuring, and those that
are found without it are found with it too, in the same order. -/
theorem listed_parse (text : String) {p : Pair}
    (hp : p ∈ (Source.ofText text).layout.pairs.pairs) :
    ∃ plain nested, parse (.ofText text) p.opening false = some plain ∧
      parse (.ofText text) p.opening true = some nested ∧
      Listed (.ofText text) p plain ∧ Listed (.ofText text) p nested ∧ plain.Sublist nested := by
  have hsrc := Source.nests_ofText text
  have hget : (Source.ofText text).layout.pairs.get? p.opening = some p :=
    PairIndex.get?_of_closingOf ((hsrc.nests.laminar.closingOf_iff).2 hp)
  refine ⟨_, _, ?_, ?_, listed_ofItems hsrc hp false, listed_ofItems hsrc hp true,
    sublist_ofEntries _⟩
  · rw [parse, hget, Option.map_some]
  · rw [parse, hget, Option.map_some]

/-- The law applies to a list whose first group starts with a marker. -/
theorem listed_parse_marked :
    ⟨0, 33⟩ ∈ (Source.ofText "((&rest a) 'b &key ((:k (c)) 1 d))").layout.pairs.pairs ∧
      ∃ plain nested,
        parse (.ofText "((&rest a) 'b &key ((:k (c)) 1 d))") 0 false = some plain ∧
        parse (.ofText "((&rest a) 'b &key ((:k (c)) 1 d))") 0 true = some nested ∧
        Listed (.ofText "((&rest a) 'b &key ((:k (c)) 1 d))") ⟨0, 33⟩ plain ∧
        Listed (.ofText "((&rest a) 'b &key ((:k (c)) 1 d))") ⟨0, 33⟩ nested ∧
        plain.Sublist nested := by
  have hpairs : (Source.ofText "((&rest a) 'b &key ((:k (c)) 1 d))").layout.pairs.pairs =
      [⟨0, 33⟩, ⟨1, 9⟩, ⟨19, 32⟩, ⟨20, 27⟩, ⟨24, 26⟩] := by cbv
  have hp : ⟨0, 33⟩ ∈
      (Source.ofText "((&rest a) 'b &key ((:k (c)) 1 d))").layout.pairs.pairs := by
    rw [hpairs]
    exact List.mem_cons_self
  exact ⟨hp, listed_parse _ hp⟩

end LambdaList

end LexScope
