import LexScope.Proofs.Form.Nesting
import LexScope.Proofs.Form.Pieces
import Mathlib.Data.List.Nodup

/-!
# What surrounds a pair of brackets

Queries of the index of brackets never compare a pair with all others. They follow the chain of
pairs around one of them, which a single sweep over the sorted pairs has built, and they skip what
is nested. That their answers are the innermost pair, the smallest one around, the outermost one
and those directly inside rests on what the sweep keeps: a pair that has left the stack closes
before the pairs to come, so the chain of a pair holds exactly the pairs around it.
-/

namespace LexScope

/-! ## Pairs that nest -/

namespace Pair

/-- The offset stands between the brackets of the pair, or at one of them. -/
def Holds (p : Pair) (offset : Nat) : Prop := p.opening ≤ offset ∧ offset ≤ p.closing

instance (p : Pair) (offset : Nat) : Decidable (p.Holds offset) :=
  inferInstanceAs (Decidable (_ ∧ _))

/-- The first pair lies strictly between the brackets of the second. -/
def Inside (p q : Pair) : Prop := q.opening < p.opening ∧ p.closing < q.closing

/-- Pairs as they may be handed to an index, in any order. -/
structure WellNested (pairs : List Pair) : Prop where
  /-- Brackets are in order. -/
  lt : ∀ p ∈ pairs, p.opening < p.closing
  /-- All brackets stand at different offsets. -/
  distinct : (pairs.flatMap fun p => [p.opening, p.closing]).Nodup
  /-- Any two pairs are nested or disjoint. -/
  nested : ∀ p ∈ pairs, ∀ q ∈ pairs,
    p.encloses q = true ∨ q.encloses p = true ∨ p.closing < q.opening ∨ q.closing < p.opening

/-- Of all the pairs but `p` itself that enclose `p`, the pair `q` is the smallest. -/
structure IsParent (pairs : List Pair) (p q : Pair) : Prop where
  /-- It is one of the pairs. -/
  mem : q ∈ pairs
  /-- It is another one. -/
  ne : q ≠ p
  /-- It encloses `p`. -/
  encloses : q.encloses p = true
  /-- Others that do so are no smaller. -/
  smallest : ∀ r ∈ pairs, r ≠ p → r.encloses p = true →
    q.closing - q.opening ≤ r.closing - r.opening

variable {pairs : List Pair} {p q : Pair}

private theorem encloses_iff :
    p.encloses q = true ↔ p.opening ≤ q.opening ∧ q.closing ≤ p.closing := by
  simp [encloses]

/-- The parent of a pair does not depend on the order of the pairs. -/
theorem IsParent.congr {others : List Pair} (h : ∀ p, p ∈ pairs ↔ p ∈ others) :
    IsParent pairs p q ↔ IsParent others p q where
  mp hq := ⟨(h q).1 hq.mem, hq.ne, hq.encloses, fun r hr => hq.smallest r ((h r).2 hr)⟩
  mpr hq := ⟨(h q).2 hq.mem, hq.ne, hq.encloses, fun r hr => hq.smallest r ((h r).1 hr)⟩

private theorem Inside.asymm (h : p.Inside q) : ¬ q.Inside p := fun h' => Nat.lt_asymm h.1 h'.1

/-- Of pairs that nest, one encloses another if it is the same or lies around it. -/
theorem Laminar.inside_iff (h : p.Laminar q) (hp : p.opening < p.closing)
    (hq : q.opening < q.closing) : p.Inside q ↔ q ≠ p ∧ q.encloses p = true := by
  rw [encloses_iff, Inside]
  rcases h with rfl | h | h | h | h
  · exact ⟨fun h => absurd h.1 (Nat.lt_irrefl _), fun h => absurd rfl h.1⟩
  all_goals
    constructor
    · intro hinside
      exact ⟨by rintro rfl; omega, by omega⟩
    · intro hencloses
      omega

/-- Pairs that nest, in order of their opening brackets. -/
structure Sorted (pairs : List Pair) : Prop where
  /-- Brackets are in order. -/
  lt : ∀ p ∈ pairs, p.opening < p.closing
  /-- Any two pairs are nested or disjoint. -/
  laminar : ∀ p ∈ pairs, ∀ q ∈ pairs, p.Laminar q
  /-- Each pair opens behind those before it. -/
  ordered : pairs.Pairwise fun p q => p.opening < q.opening

namespace Sorted

variable (h : Sorted pairs)

include h

private theorem sublist {some : List Pair} (hsub : some.Sublist pairs) : Sorted some where
  lt p hp := h.lt p (hsub.subset hp)
  laminar p hp q hq := h.laminar p (hsub.subset hp) q (hsub.subset hq)
  ordered := h.ordered.sublist hsub

private theorem eq_of_opening (hp : p ∈ pairs) (hq : q ∈ pairs) (heq : p.opening = q.opening) :
    p = q :=
  (h.laminar p hp q hq).eq_of_shared (h.lt p hp) (h.lt q hq) (.inl heq) (.inl rfl)

private theorem inside_iff (hp : p ∈ pairs) (hq : q ∈ pairs) :
    p.Inside q ↔ q ≠ p ∧ q.encloses p = true :=
  (h.laminar p hp q hq).inside_iff (h.lt p hp) (h.lt q hq)

/-- A pair lies inside another if it holds its opening bracket. -/
theorem inside_iff_opening (hp : p ∈ pairs) (hq : q ∈ pairs) :
    p.Inside q ↔ q.opening < p.opening ∧ p.opening ≤ q.closing := by
  have hplt := h.lt p hp
  have hqlt := h.lt q hq
  rcases h.laminar p hp q hq with rfl | hcase | hcase | hcase | hcase
  all_goals
    unfold Inside
    omega

/-- Of two pairs around a pair one lies inside the other. -/
theorem around_total {r : Pair} (hq : q ∈ pairs) (hr : r ∈ pairs) (hpq : p.Inside q)
    (hpr : p.Inside r) (hp : p.opening < p.closing) : r = q ∨ q.Inside r ∨ r.Inside q := by
  unfold Inside at hpq hpr ⊢
  rcases h.laminar q hq r hr with heq | hcase | hcase | hcase | hcase
  · exact .inl heq.symm
  · exact .inr (.inr hcase)
  · exact .inr (.inl hcase)
  all_goals omega

/-- The parent of a pair is the pair around it that lies inside all others around it. -/
theorem isParent_iff (hp : p ∈ pairs) :
    IsParent pairs p q ↔ (q ∈ pairs ∧ p.Inside q) ∧
      ∀ r, r ∈ pairs ∧ p.Inside r → r = q ∨ q.Inside r := by
  constructor
  · intro hq
    have hinside := (h.inside_iff hp hq.mem).2 ⟨hq.ne, hq.encloses⟩
    refine ⟨⟨hq.mem, hinside⟩, fun r ⟨hr, hpr⟩ => ?_⟩
    have hsmallest := hq.smallest r hr ((h.inside_iff hp hr).1 hpr).1
      ((h.inside_iff hp hr).1 hpr).2
    have hlt := h.lt r hr
    rcases h.around_total hq.mem hr hinside hpr (h.lt p hp) with heq | hqr | hrq
    · exact .inl heq
    · exact .inr hqr
    · unfold Inside at hrq
      omega
  · rintro ⟨⟨hq, hinside⟩, hothers⟩
    obtain ⟨hne, hencloses⟩ := (h.inside_iff hp hq).1 hinside
    refine ⟨hq, hne, hencloses, fun r hr hrne hr' => ?_⟩
    rcases hothers r ⟨hr, (h.inside_iff hp hr).2 ⟨hrne, hr'⟩⟩ with rfl | hqr
    · exact Nat.le_refl _
    · unfold Inside at hqr
      omega

end Sorted

/-- Two pairs with different brackets share none. -/
private theorem ne_of_disjoint (h : List.Disjoint [p.opening, p.closing] [q.opening, q.closing]) :
    p.opening ≠ q.opening ∧ p.closing ≠ q.closing := by
  simp only [List.disjoint_cons_left, List.mem_cons, List.not_mem_nil, or_false, not_or] at h
  exact ⟨h.1.1, h.2.1.2⟩

/-- An index puts pairs that nest in order. -/
theorem WellNested.sorted (h : WellNested pairs) : Sorted (PairIndex.ofPairs pairs).pairs := by
  have hne : pairs.Pairwise fun p q => p.opening ≠ q.opening ∧ p.closing ≠ q.closing :=
    (List.nodup_flatMap.1 h.distinct).2.imp ne_of_disjoint
  have hmem (p : Pair) : p ∈ (PairIndex.ofPairs pairs).pairs ↔ p ∈ pairs := by
    rw [PairIndex.pairs_ofPairs, List.mem_mergeSort]
  refine ⟨fun p hp => h.lt p ((hmem p).1 hp), fun p hp q hq => ?_,
    PairIndex.pairwise_pairs_ofPairs (hne.imp And.left)⟩
  rw [hmem] at hp hq
  have hbrackets : p = q ∨ (p.opening ≠ q.opening ∧ p.closing ≠ q.closing) := by
    rcases eq_or_rel_of_pairwise hne hp hq with heq | hne | hne
    · exact .inl heq
    · exact .inr hne
    · exact .inr ⟨hne.1.symm, hne.2.symm⟩
  rcases hbrackets with rfl | hbrackets
  · exact .inl rfl
  · have hnested := h.nested p hp q hq
    rw [encloses_iff, encloses_iff] at hnested
    unfold Laminar
    omega

end Pair

/-! ## The sweep -/

namespace PairIndex

variable {pairs before stack : List Pair} {p q : Pair} {e : Nested}

/-- A chain of pairs from the inside out. -/
abbrev IsChain (chain : List Pair) : Prop := chain.Pairwise Pair.Inside

/-- What the stack of the sweep holds after some pairs. -/
structure Swept (before stack : List Pair) : Prop where
  /-- It holds some of these pairs. -/
  mem : ∀ q ∈ stack, q ∈ before
  /-- They form a chain. -/
  chain : IsChain stack
  /-- The others close before one of the pairs opens. -/
  passed : ∀ q ∈ before, q ∈ stack ∨ ∃ r ∈ before, q.closing < r.opening

/-- The entry of a pair knows the pairs around it. -/
structure Knows (pairs : List Pair) (e : Nested) : Prop where
  /-- The pair is one of the pairs. -/
  mem : e.pair ∈ pairs
  /-- The pairs around it are listed. -/
  mem_around : ∀ q, q ∈ e.around ↔ q ∈ pairs ∧ e.pair.Inside q
  /-- They form a chain. -/
  chain : IsChain e.around

private theorem Swept.nil : Swept [] [] := ⟨by simp, List.Pairwise.nil, by simp⟩

section Step

variable {rest : List Pair} (h : Swept before stack) (hsorted : Pair.Sorted (before ++ p :: rest))

include h

/-- The pairs that leave the stack are those that close too early. -/
theorem Swept.mem_dropWhile_iff (offset : Nat) :
    q ∈ stack.dropWhile (fun q => decide (q.closing < offset)) ↔
      q ∈ stack ∧ offset ≤ q.closing := by
  have hchain : stack.Pairwise fun a b =>
      decide (b.closing < offset) = true → decide (a.closing < offset) = true := by
    refine h.chain.imp fun {a b} hab hb => ?_
    rw [decide_eq_true_eq] at hb ⊢
    exact Nat.lt_trans hab.2 hb
  rw [(takeWhile_dropWhile_eq_filter hchain).2, List.mem_filter]
  simp

include hsorted

/-- What stays on the stack when a pair comes is what lies around the pair. -/
theorem Swept.mem_around_iff : q ∈ stack.dropWhile (fun q => decide (q.closing < p.opening)) ↔
    q ∈ before ++ p :: rest ∧ p.Inside q := by
  have hp : p ∈ before ++ p :: rest := List.mem_append_right _ List.mem_cons_self
  obtain ⟨-, hbehind, hbefore⟩ := List.pairwise_append.1 hsorted.ordered
  rw [h.mem_dropWhile_iff]
  constructor
  · rintro ⟨hq, hclosing⟩
    have hmem := h.mem q hq
    have hopening := hbefore q hmem p List.mem_cons_self
    have hq : q ∈ before ++ p :: rest := List.mem_append_left _ hmem
    exact ⟨hq, (hsorted.inside_iff_opening hp hq).2 ⟨hopening, hclosing⟩⟩
  · rintro ⟨hq, hinside⟩
    have hlt := hsorted.lt p hp
    unfold Pair.Inside at hinside
    -- A pair that opens before `p` has been read.
    have hmem : q ∈ before := by
      rcases List.mem_append.1 hq with hq | hq
      · exact hq
      · rcases List.mem_cons.1 hq with rfl | hq
        · omega
        · have := (List.pairwise_cons.1 hbehind).1 q hq
          omega
    refine ⟨?_, by omega⟩
    rcases h.passed q hmem with hstack | ⟨r, hr, hpassed⟩
    · exact hstack
    · have := hbefore r hr p List.mem_cons_self
      omega

/-- One step of the sweep. -/
theorem Swept.step : Swept (before ++ [p])
    (p :: stack.dropWhile fun q => decide (q.closing < p.opening)) where
  mem := by
    refine List.forall_mem_cons.2 ⟨by simp, fun q hq => ?_⟩
    exact List.mem_append_left _ (h.mem q ((List.dropWhile_sublist _).subset hq))
  chain := List.pairwise_cons.2
    ⟨fun q hq => ((h.mem_around_iff hsorted).1 hq).2, h.chain.sublist (List.dropWhile_sublist _)⟩
  passed q hq := by
    rcases List.mem_append.1 hq with hq | hq
    · rcases h.passed q hq with hstack | ⟨r, hr, hpassed⟩
      · by_cases hclosing : q.closing < p.opening
        · exact .inr ⟨p, by simp, hclosing⟩
        · exact .inl (List.mem_cons_of_mem _
            ((h.mem_dropWhile_iff _).2 ⟨hstack, Nat.not_lt.1 hclosing⟩))
      · exact .inr ⟨r, List.mem_append_left _ hr, hpassed⟩
    · exact .inl (by simp [List.mem_singleton.1 hq])

end Step

/-- All entries that the sweep makes know the pairs around them. -/
theorem Swept.knows_nestFrom {rest : List Pair} (h : Swept before stack)
    (hsorted : Pair.Sorted (before ++ rest)) :
    ∀ e ∈ nestFrom stack rest, Knows (before ++ rest) e := by
  induction rest generalizing before stack with
  | nil => simp [nestFrom]
  | cons p rest ih =>
    rw [nestFrom]
    refine List.forall_mem_cons.2 ⟨⟨by simp, fun q => h.mem_around_iff hsorted, ?_⟩, ?_⟩
    · exact h.chain.sublist (List.dropWhile_sublist _)
    · have hsplit : before ++ p :: rest = before ++ [p] ++ rest := by simp
      rw [hsplit] at hsorted ⊢
      refine ih ?_ hsorted
      rw [List.append_assoc] at hsorted
      exact h.step hsorted

/-- An index whose entries know the pairs around them. -/
structure Complete (index : PairIndex) : Prop where
  /-- The pairs are in order. -/
  sorted : Pair.Sorted index.pairs
  /-- The chains are those of the pairs. -/
  knows : ∀ e ∈ index.entries, Knows index.pairs e

private theorem complete_ofPairs (h : Pair.WellNested pairs) : (ofPairs pairs).Complete where
  sorted := h.sorted
  knows := by
    have hsorted := h.sorted
    rw [pairs_ofPairs] at hsorted ⊢
    exact Swept.nil.knows_nestFrom hsorted

/-! ## Queries -/

/-- The parent of a pair is first in its chain. -/
theorem Knows.head?_iff (h : Knows pairs e) (hsorted : Pair.Sorted pairs) :
    e.around.head? = some q ↔ Pair.IsParent pairs e.pair q := by
  rw [head?_eq_some_iff_of_pairwise (fun _ _ => Pair.Inside.asymm) h.chain,
    hsorted.isParent_iff h.mem, h.mem_around]
  simp only [h.mem_around]

/-- A pair with what is around it forms a chain too. -/
theorem Knows.chain_cons (h : Knows pairs e) : IsChain (e.pair :: e.around) :=
  List.pairwise_cons.2 ⟨fun q hq => ((h.mem_around q).1 hq).2, h.chain⟩

variable {index : PairIndex} {offset : Nat}

/-- The pairs that nothing is around are listed in order. -/
theorem topLevel_sublist : index.topLevel.Sublist index.pairs :=
  List.filter_sublist.map _

namespace Complete

variable (h : index.Complete)

include h

private theorem pairwise_entries :
    index.entries.Pairwise fun d e => d.pair.opening < e.pair.opening := by
  have hordered := h.sorted.ordered
  rwa [PairIndex.pairs, List.pairwise_map] at hordered

private theorem entryAt_iff : index.entryAt offset = some e ↔
    e ∈ index.entries ∧ e.pair.opening = offset := by
  constructor
  · intro hfind
    exact ⟨List.mem_of_find?_eq_some hfind, by simpa using List.find?_some hfind⟩
  · rintro ⟨he, rfl⟩
    rw [entryAt, ← List.head?_filter, head?_eq_some_iff_of_pairwise (fun _ _ => Nat.lt_asymm)
      (h.pairwise_entries.sublist List.filter_sublist)]
    refine ⟨by simp [he], fun d hd => ?_⟩
    obtain ⟨hd, hopening⟩ := List.mem_filter.1 hd
    rw [beq_iff_eq] at hopening
    rcases eq_or_rel_of_pairwise h.pairwise_entries hd he with heq | hlt | hlt
    · exact .inl heq
    all_goals omega

private theorem parent_iff : index.parent offset = some q ↔
    ∃ p ∈ index.pairs, p.opening = offset ∧ Pair.IsParent index.pairs p q := by
  rw [parent, Option.bind_eq_some_iff]
  constructor
  · rintro ⟨e, he, hhead⟩
    obtain ⟨he, hopening⟩ := h.entryAt_iff.1 he
    exact ⟨e.pair, (h.knows e he).mem, hopening, ((h.knows e he).head?_iff h.sorted).1 hhead⟩
  · rintro ⟨p, hp, hopening, hq⟩
    obtain ⟨e, he, rfl⟩ := List.mem_map.1 hp
    exact ⟨e, h.entryAt_iff.2 ⟨he, hopening⟩, ((h.knows e he).head?_iff h.sorted).2 hq⟩

/-- The last pair that opens no later than an offset, with those around it, comes with all pairs
that hold the offset. -/
theorem mem_cons_around_iff (he : e ∈ index.entries) (hopening : e.pair.opening ≤ offset)
    (hlast : ∀ q ∈ index.pairs, q.opening ≤ offset → q.opening ≤ e.pair.opening) :
    q ∈ e.pair :: e.around ∧ offset ≤ q.closing ↔ q ∈ index.pairs ∧ q.Holds offset := by
  have hknows := h.knows e he
  rw [List.mem_cons, hknows.mem_around, Pair.Holds]
  constructor
  · rintro ⟨rfl | ⟨hq, hinside⟩, hclosing⟩
    · exact ⟨hknows.mem, hopening, hclosing⟩
    · exact ⟨hq, Nat.le_trans (Nat.le_of_lt hinside.1) hopening, hclosing⟩
  · rintro ⟨hq, hqopening, hclosing⟩
    refine ⟨?_, hclosing⟩
    rcases Nat.lt_or_eq_of_le (hlast q hq hqopening) with hlt | heq
    · exact .inr ⟨hq, (h.sorted.inside_iff_opening hknows.mem hq).2 ⟨hlt, by omega⟩⟩
    · exact .inl (h.sorted.eq_of_opening hq hknows.mem heq)

/-- The pairs that hold an offset form a chain, and the search for the innermost one finds its
head. -/
theorem exists_chain (offset : Nat) : ∃ chain, IsChain chain ∧
    (∀ q, q ∈ chain ↔ q ∈ index.pairs ∧ q.Holds offset) ∧
      index.enclosing offset = chain.head? := by
  have htake : index.entries.takeWhile (fun e => decide (e.pair.opening ≤ offset)) =
      index.entries.filter fun e => decide (e.pair.opening ≤ offset) := by
    refine (takeWhile_dropWhile_eq_filter (h.pairwise_entries.imp ?_)).1
    intro d e hlt he
    rw [decide_eq_true_eq] at he ⊢
    omega
  have hordered := h.pairwise_entries.sublist
    (List.filter_sublist (p := fun e => decide (e.pair.opening ≤ offset)))
  unfold enclosing
  rw [htake]
  split
  · next hlast =>
    refine ⟨[], List.Pairwise.nil, fun q => ⟨by simp, fun ⟨hq, hopening, _⟩ => ?_⟩, rfl⟩
    obtain ⟨e, he, rfl⟩ := List.mem_map.1 hq
    have := List.filter_eq_nil_iff.1 (List.getLast?_eq_none_iff.1 hlast) e he
    exact absurd hopening (by simpa using this)
  · next e hlast =>
    obtain ⟨he, hlast⟩ :=
      (getLast?_eq_some_iff_of_pairwise (fun _ _ => Nat.lt_asymm) hordered).1 hlast
    simp only [List.mem_filter, decide_eq_true_eq] at he hlast
    refine ⟨(e.pair :: e.around).filter fun p => decide (offset ≤ p.closing),
      (h.knows e he.1).chain_cons.sublist List.filter_sublist, fun q => ?_, ?_⟩
    · rw [List.mem_filter, decide_eq_true_eq]
      refine h.mem_cons_around_iff he.1 he.2 fun r hr hopening => ?_
      obtain ⟨d, hd, rfl⟩ := List.mem_map.1 hr
      rcases hlast d ⟨hd, hopening⟩ with rfl | hlt
      · exact Nat.le_refl _
      · exact Nat.le_of_lt hlt
    · rw [List.head?_filter]

/-- The search for the innermost pair finds the one that opens last. -/
theorem enclosing_iff : index.enclosing offset = some p ↔ (p ∈ index.pairs ∧ p.Holds offset) ∧
    ∀ q, q ∈ index.pairs ∧ q.Holds offset → q = p ∨ p.Inside q := by
  obtain ⟨chain, hchain, hmem, henclosing⟩ := h.exists_chain offset
  rw [henclosing, head?_eq_some_iff_of_pairwise (fun _ _ => Pair.Inside.asymm) hchain, hmem]
  simp only [hmem]

/-- The search for the outermost pair finds the last one of the chain. -/
theorem topLevelAt_iff : index.topLevelAt offset = some p ↔ (p ∈ index.pairs ∧ p.Holds offset) ∧
    ∀ q, q ∈ index.pairs ∧ q.Holds offset → q = p ∨ q.Inside p := by
  obtain ⟨chain, hchain, hmem, henclosing⟩ := h.exists_chain offset
  suffices hlast : index.topLevelAt offset = chain.getLast? by
    rw [hlast, getLast?_eq_some_iff_of_pairwise (fun _ _ => Pair.Inside.asymm) hchain, hmem]
    simp only [hmem]
  rw [topLevelAt, henclosing]
  cases chain with
  | nil => rfl
  | cons inner rest =>
    have hinner := (hmem inner).1 List.mem_cons_self
    obtain ⟨e, he, rfl⟩ := List.mem_map.1 hinner.1
    have hknows := h.knows e he
    -- The chain of the entry consists of the same pairs.
    have hsame (q : Pair) : q ∈ e.pair :: e.around ↔ q ∈ e.pair :: rest := by
      rw [List.mem_cons, hknows.mem_around]
      constructor
      · rintro (rfl | ⟨hq, hinside⟩)
        · exact List.mem_cons_self
        · have hholds := hinner.2
          unfold Pair.Inside at hinside
          unfold Pair.Holds at hholds
          exact (hmem q).2 ⟨hq, by omega, by omega⟩
      · intro hq
        rcases List.mem_cons.1 hq with heq | hrest
        · exact .inl heq
        · exact .inr ⟨((hmem q).1 hq).1, (List.pairwise_cons.1 hchain).1 q hrest⟩
    have hlast : (e.pair :: e.around).getLast? = (e.pair :: rest).getLast? := by
      refine Option.ext fun q => ?_
      rw [getLast?_eq_some_iff_of_pairwise (fun _ _ => Pair.Inside.asymm) hknows.chain_cons,
        getLast?_eq_some_iff_of_pairwise (fun _ _ => Pair.Inside.asymm) hchain]
      simp only [hsame]
    rw [← hlast, List.getLast?_cons, List.head?_cons, Option.map_some, h.entryAt_iff.2 ⟨he, rfl⟩,
      Option.bind_some]

private theorem mem_topLevel_iff : p ∈ index.topLevel ↔
    p ∈ index.pairs ∧ ∀ q, ¬ Pair.IsParent index.pairs p q := by
  have hempty : ∀ e ∈ index.entries, e.around.isEmpty = true ↔
      ∀ q, ¬ Pair.IsParent index.pairs e.pair q := by
    intro e he
    simp only [← (h.knows e he).head?_iff h.sorted]
    cases e.around <;> simp
  simp only [topLevel, PairIndex.pairs, List.mem_map, List.mem_filter]
  constructor
  · rintro ⟨e, ⟨he, hnone⟩, rfl⟩
    exact ⟨⟨e, he, rfl⟩, (hempty e he).1 hnone⟩
  · rintro ⟨⟨e, he, rfl⟩, hnone⟩
    exact ⟨e, ⟨he, (hempty e he).2 hnone⟩, rfl⟩

end Complete

/-! ## Pairs directly inside -/

section Siblings

variable {first : Pair} {rest : List Pair} (h : Pair.Sorted (first :: rest))

include h

/-- The pairs inside the first pair are those that the walk skips. -/
private theorem inside_first_iff (hq : q ∈ rest) :
    q.Inside first ↔ q.opening ≤ first.closing := by
  have hopening := (List.pairwise_cons.1 h.ordered).1 q hq
  rw [h.inside_iff_opening (List.mem_cons_of_mem _ hq) List.mem_cons_self]
  omega

private theorem mem_behind_first_iff :
    q ∈ rest.dropWhile (fun q => decide (q.opening ≤ first.closing)) ↔
      q ∈ rest ∧ first.closing < q.opening := by
  have hmono : rest.Pairwise fun a b =>
      decide (b.opening ≤ first.closing) = true → decide (a.opening ≤ first.closing) = true := by
    refine (List.pairwise_cons.1 h.ordered).2.imp fun {a b} hab hb => ?_
    rw [decide_eq_true_eq] at hb ⊢
    omega
  rw [(takeWhile_dropWhile_eq_filter hmono).2, List.mem_filter]
  simp

/-- A pair behind the first one is inside none of the pairs that the walk skips. -/
private theorem not_inside_of_behind_first (hmem : q ∈ rest) (hbehind : first.closing < q.opening)
    (hq : ∀ r ∈ rest.dropWhile (fun q => decide (q.opening ≤ first.closing)), ¬ q.Inside r) :
    ∀ r ∈ first :: rest, ¬ q.Inside r := by
  have hlt := h.lt q (List.mem_cons_of_mem _ hmem)
  refine List.forall_mem_cons.2 ⟨fun hinside => ?_, fun r hr hinside => ?_⟩
  · unfold Pair.Inside at hinside
    omega
  · by_cases hbefore : r.opening ≤ first.closing
    · have hfirst := (inside_first_iff h hr).2 hbefore
      unfold Pair.Inside at hinside hfirst
      omega
    · exact hq r ((mem_behind_first_iff h).2 ⟨hr, Nat.not_le.1 hbefore⟩) hinside

end Siblings

/-- The walk over the pairs behind a bracket keeps those that lie inside none of them. -/
theorem mem_siblings_iff {closing : Nat} {pairs : List Pair} (h : Pair.Sorted pairs) :
    q ∈ siblings closing pairs ↔ (q ∈ pairs ∧ q.opening < closing) ∧ ∀ r ∈ pairs, ¬ q.Inside r := by
  fun_induction siblings closing pairs with
  | case1 => simp
  | case2 first rest hlt ih =>
    rw [List.mem_cons, ih (h.sublist ((List.dropWhile_sublist _).cons _)), mem_behind_first_iff h]
    have hfirst := (List.pairwise_cons.1 h.ordered).1
    constructor
    · rintro (rfl | ⟨⟨⟨hq, hbehind⟩, hclosing⟩, hnone⟩)
      · refine ⟨⟨List.mem_cons_self, hlt⟩, fun r hr hinside => ?_⟩
        unfold Pair.Inside at hinside
        rcases List.mem_cons.1 hr with rfl | hr
        · omega
        · have := hfirst r hr
          omega
      · exact ⟨⟨List.mem_cons_of_mem _ hq, hclosing⟩, not_inside_of_behind_first h hq hbehind hnone⟩
    · rintro ⟨⟨hq, hclosing⟩, hnone⟩
      refine (List.mem_cons.1 hq).imp_right fun hq => ?_
      have hbehind : first.closing < q.opening := Nat.not_le.1 fun hle =>
        hnone first List.mem_cons_self ((inside_first_iff h hq).2 hle)
      exact ⟨⟨⟨hq, hbehind⟩, hclosing⟩, fun r hr =>
        hnone r (List.mem_cons_of_mem _ ((List.dropWhile_sublist _).subset hr))⟩
  | case3 first rest hge =>
    constructor
    · intro hq
      cases hq
    · rintro ⟨⟨hq, hlt⟩, -⟩
      rcases List.mem_cons.1 hq with rfl | hq
      · exact absurd hlt hge
      · have := (List.pairwise_cons.1 h.ordered).1 q hq
        omega

/-- The pairs directly inside a pair are those that it is the parent of. -/
theorem mem_children_iff (h : Pair.Sorted index.pairs) (hp : p ∈ index.pairs) :
    q ∈ index.children p ↔ q ∈ index.pairs ∧ Pair.IsParent index.pairs q p := by
  obtain ⟨before, rest, hindex⟩ := List.append_of_mem hp
  have hordered := h.ordered
  rw [hindex, List.pairwise_append] at hordered
  have hbefore : ∀ r ∈ before, r.opening < p.opening := fun r hr =>
    hordered.2.2 r hr p List.mem_cons_self
  have hbehind := (List.pairwise_cons.1 hordered.2.1).1
  -- The walk goes over the pairs that open behind `p`.
  have hrest (r : Pair) : r ∈ rest ↔ r ∈ index.pairs ∧ p.opening < r.opening := by
    rw [hindex, List.mem_append, List.mem_cons]
    constructor
    · exact fun hr => ⟨.inr (.inr hr), hbehind r hr⟩
    · rintro ⟨hr | rfl | hr, hlt⟩
      · exact absurd hlt (Nat.lt_asymm (hbefore r hr))
      · exact absurd hlt (Nat.lt_irrefl _)
      · exact hr
  have hsub : rest.Sublist index.pairs :=
    hindex ▸ (List.sublist_cons_self p rest).trans (List.sublist_append_right _ _)
  rw [children_of_pairs hindex hbefore, mem_siblings_iff (h.sublist hsub)]
  simp only [hrest]
  constructor
  · rintro ⟨⟨⟨hq, hlt⟩, hclosing⟩, hnone⟩
    have hinside := (h.inside_iff_opening hq hp).2 ⟨hlt, Nat.le_of_lt hclosing⟩
    refine ⟨hq, (h.isParent_iff hq).2 ⟨⟨hp, hinside⟩, fun r ⟨hr, hqr⟩ => ?_⟩⟩
    rcases h.around_total hp hr hinside hqr (h.lt q hq) with heq | hpr | hrp
    · exact .inl heq
    · exact .inr hpr
    · exact absurd hqr (hnone r ⟨hr, hrp.1⟩)
  · rintro ⟨hq, hparent⟩
    obtain ⟨⟨-, hinside⟩, hothers⟩ := (h.isParent_iff hq).1 hparent
    have hlt := h.lt q hq
    refine ⟨⟨⟨hq, hinside.1⟩, Nat.lt_trans hlt hinside.2⟩, fun r ⟨hr, hpr⟩ hqr => ?_⟩
    rcases hothers r ⟨hr, hqr⟩ with rfl | houter
    · exact absurd hpr (Nat.lt_irrefl _)
    · exact absurd hpr (Nat.lt_asymm houter.1)

/-! ## What the queries mean -/

/-- The answers of an index, as the pairs alone determine them. -/
structure Answers (index : PairIndex) (pairs : List Pair) : Prop where
  /-- The innermost pair at an offset is the one that opens last. -/
  enclosing : ∀ offset p, index.enclosing offset = some p ↔
    p ∈ pairs ∧ p.Holds offset ∧ ∀ q ∈ pairs, q.Holds offset → q.opening ≤ p.opening
  /-- There is none where no pair holds the offset. -/
  enclosing_none : ∀ offset, index.enclosing offset = none ↔ ∀ p ∈ pairs, ¬ p.Holds offset
  /-- The outermost pair at an offset encloses all those that hold it. -/
  topLevelAt : ∀ offset p, index.topLevelAt offset = some p ↔
    p ∈ pairs ∧ p.Holds offset ∧ ∀ q ∈ pairs, q.Holds offset → p.encloses q = true
  /-- There is none where no pair holds the offset. -/
  topLevelAt_none : ∀ offset, index.topLevelAt offset = none ↔ ∀ p ∈ pairs, ¬ p.Holds offset
  /-- The parent of a pair is the smallest other one that encloses it. -/
  parent : ∀ opening q, index.parent opening = some q ↔
    ∃ p ∈ pairs, p.opening = opening ∧ Pair.IsParent pairs p q
  /-- There is none where no other pair encloses it. -/
  parent_none : ∀ p ∈ pairs, index.parent p.opening = none ↔
    ∀ q ∈ pairs, q ≠ p → q.encloses p = false
  /-- The pairs at the top are those without a parent. -/
  topLevel : ∀ p, p ∈ index.topLevel ↔ p ∈ pairs ∧ ∀ q, ¬ Pair.IsParent pairs p q
  /-- They are in order. -/
  topLevel_ordered : index.topLevel.Pairwise fun p q => p.opening < q.opening
  /-- The pairs directly inside a pair are those that it is the parent of. -/
  children : ∀ p ∈ pairs, ∀ q, q ∈ index.children p ↔ q ∈ pairs ∧ Pair.IsParent pairs q p
  /-- They are in order. -/
  children_ordered : ∀ p ∈ pairs, (index.children p).Pairwise fun p q => p.opening < q.opening

/-- The answers do not depend on the order of the pairs. -/
theorem Answers.congr {others : List Pair} (h : index.Answers pairs)
    (hmem : ∀ p, p ∈ pairs ↔ p ∈ others) : index.Answers others := by
  have hparent (p q : Pair) := Pair.IsParent.congr (p := p) (q := q) hmem
  exact
    { enclosing := by simpa only [hmem] using h.enclosing
      enclosing_none := by simpa only [hmem] using h.enclosing_none
      topLevelAt := by simpa only [hmem] using h.topLevelAt
      topLevelAt_none := by simpa only [hmem] using h.topLevelAt_none
      parent := by simpa only [hmem, hparent] using h.parent
      parent_none := by simpa only [hmem] using h.parent_none
      topLevel := by simpa only [hmem, hparent] using h.topLevel
      topLevel_ordered := h.topLevel_ordered
      children := by simpa only [hmem, hparent] using h.children
      children_ordered := by simpa only [hmem] using h.children_ordered }

namespace Complete

variable (h : index.Complete)

include h

private theorem enclosing_eq_none_iff :
    index.enclosing offset = none ↔ ∀ p ∈ index.pairs, ¬ p.Holds offset := by
  obtain ⟨chain, -, hmem, henclosing⟩ := h.exists_chain offset
  rw [henclosing, List.head?_eq_none_iff, List.eq_nil_iff_forall_not_mem]
  simp only [hmem, not_and]

private theorem parent_eq_none_iff (hp : p ∈ index.pairs) : index.parent p.opening = none ↔
    ∀ q ∈ index.pairs, q ≠ p → q.encloses p = false := by
  obtain ⟨e, he, rfl⟩ := List.mem_map.1 hp
  rw [parent, h.entryAt_iff.2 ⟨he, rfl⟩, Option.bind_some, List.head?_eq_none_iff,
    List.eq_nil_iff_forall_not_mem]
  simp only [(h.knows e he).mem_around, not_and, ← Bool.not_eq_true]
  refine forall_congr' fun q => forall_congr' fun hq => ?_
  rw [h.sorted.inside_iff hp hq, not_and]

private theorem answers : index.Answers index.pairs where
  enclosing offset p := by
    rw [h.enclosing_iff, and_assoc]
    refine and_congr_right fun hp => and_congr_right fun hholds => ⟨?_, ?_⟩
    · intro hinner q hq hq'
      rcases hinner q ⟨hq, hq'⟩ with rfl | hinside
      · exact Nat.le_refl _
      · exact Nat.le_of_lt hinside.1
    · rintro hlast q ⟨hq, hq'⟩
      rcases Nat.lt_or_eq_of_le (hlast q hq hq') with hlt | heq
      · exact .inr ((h.sorted.inside_iff_opening hp hq).2 ⟨hlt, Nat.le_trans hholds.1 hq'.2⟩)
      · exact .inl (h.sorted.eq_of_opening hq hp heq)
  enclosing_none offset := h.enclosing_eq_none_iff
  topLevelAt offset p := by
    rw [h.topLevelAt_iff, and_assoc]
    refine and_congr_right fun hp => and_congr_right fun hholds => ⟨?_, ?_⟩
    · intro houter q hq hq'
      rcases houter q ⟨hq, hq'⟩ with rfl | hinside
      · simp [Pair.encloses]
      · exact ((h.sorted.inside_iff hq hp).1 hinside).2
    · rintro houter q ⟨hq, hq'⟩
      by_cases heq : p = q
      · exact .inl heq.symm
      · exact .inr ((h.sorted.inside_iff hq hp).2 ⟨heq, houter q hq hq'⟩)
  topLevelAt_none offset := by
    rw [topLevelAt, Option.map_eq_none_iff, h.enclosing_eq_none_iff]
  parent opening q := h.parent_iff
  parent_none p hp := h.parent_eq_none_iff hp
  topLevel p := h.mem_topLevel_iff
  topLevel_ordered := h.sorted.ordered.sublist topLevel_sublist
  children p hp q := mem_children_iff h.sorted hp
  children_ordered p hp := by
    refine (pairwise_children h.sorted.ordered p).imp_of_mem fun hq _ hlt => ?_
    exact Nat.lt_trans (h.sorted.lt _ (mem_of_mem_children hq)) hlt

end Complete

/-- An index of well-nested pairs answers each query by its definition. -/
theorem answers_ofPairs (h : Pair.WellNested pairs) : (ofPairs pairs).Answers pairs := by
  refine (complete_ofPairs h).answers.congr fun p => ?_
  rw [pairs_ofPairs, List.mem_mergeSort]

/-- Between two forms in a form the innermost pair is the one around both. -/
theorem answers_ofPairs_nested :
    (ofPairs [⟨10, 12⟩, ⟨3, 5⟩, ⟨7, 13⟩, ⟨0, 14⟩, ⟨17, 19⟩]).enclosing 6 = some ⟨0, 14⟩ :=
  ((answers_ofPairs ⟨by decide, by decide, by decide⟩).enclosing 6 ⟨0, 14⟩).2 (by decide)

end PairIndex

end LexScope
