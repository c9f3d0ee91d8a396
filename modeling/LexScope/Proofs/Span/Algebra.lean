import LexScope.Proofs.Span.Membership
import Mathlib.Data.Set.Basic

/-!
# The algebra of sets of spans

A set of offsets has one form: its maximal stretches in order. Making a set from spans, joining two
sets and taking one from another all lead to that form, and a query reads off it whether an offset,
or a whole span, belongs to the set.

The difference walks over both lists once. What it has passed of the first list is decided, and a
hole that reaches over the end of a span stays for the next one; the pieces that it keeps lie in the
spans that they are cut from, so they keep apart as those do.
-/

namespace LexScope.SpanSet

/-- The offsets of a set. -/
def offsets (set : SpanSet) : Set Nat := {p | ∃ s ∈ set.spans, s.contains p = true}

/-- The set is in its one form and has exactly these offsets. -/
structure Represents (set : SpanSet) (offsets : Set Nat) : Prop where
  /-- Its stretches are not empty, are in order, and leave gaps. -/
  separated : Separated set.spans
  /-- They hold these offsets and no others. -/
  offsets_eq : set.offsets = offsets

/-! ## One form -/

section Form

variable {s t : Span} {a b : List Span}

/-- Spans that hold the start of another one start no later, if they are in order. -/
private theorem start_le_of_contains (hproper : s.start < s.stop) (hb : Separated (t :: b))
    (h : ∀ p, (∃ u ∈ s :: a, u.contains p = true) → ∃ u ∈ t :: b, u.contains p = true) :
    t.start ≤ s.start := by
  obtain ⟨u, hu, hcontains⟩ := h s.start
    ⟨s, List.mem_cons_self, Span.contains_iff.2 ⟨Nat.le_refl _, hproper⟩⟩
  have hstart := (Span.contains_iff.1 hcontains).1
  rcases List.mem_cons.1 hu with rfl | hu
  · exact hstart
  · have := (List.pairwise_cons.1 hb.apart).1 u hu
    have := hb.proper t List.mem_cons_self
    omega

/-- The first of some spans reaches as far as another one that starts with it and whose offsets
they hold, since a gap follows. -/
private theorem stop_le_of_contains (ha : Separated (s :: a)) (hstart : s.start = t.start)
    (h : ∀ p, (∃ u ∈ t :: b, u.contains p = true) → ∃ u ∈ s :: a, u.contains p = true) :
    t.stop ≤ s.stop := by
  rw [← Nat.not_lt]
  intro hlt
  have hproper := ha.proper s List.mem_cons_self
  obtain ⟨u, hu, hcontains⟩ := h s.stop
    ⟨t, List.mem_cons_self, Span.contains_iff.2 ⟨by omega, hlt⟩⟩
  rw [Span.contains_iff] at hcontains
  rcases List.mem_cons.1 hu with rfl | hu
  · exact Nat.lt_irrefl _ hcontains.2
  · have := (List.pairwise_cons.1 ha.apart).1 u hu
    omega

/-- Spans behind the first one hold nothing that it holds. -/
private theorem exists_tail_iff (ha : Separated (s :: a)) {p : Nat} :
    (∃ u ∈ a, u.contains p = true) ↔ (∃ u ∈ s :: a, u.contains p = true) ∧ s.stop < p := by
  simp only [List.mem_cons, exists_eq_or_imp, Span.contains_iff]
  constructor
  · rintro ⟨u, hu, hcontains⟩
    have := (List.pairwise_cons.1 ha.apart).1 u hu
    exact ⟨.inr ⟨u, hu, hcontains⟩, by omega⟩
  · rintro ⟨hhead | htail, hlt⟩
    · omega
    · exact htail

private theorem Separated.tail (ha : Separated (s :: a)) : Separated a :=
  ⟨fun u hu => ha.proper u (List.mem_cons_of_mem _ hu), (List.pairwise_cons.1 ha.apart).2⟩

/-- Separate spans are determined by the offsets that they hold. -/
theorem Separated.eq_of_contains_iff (ha : Separated a) (hb : Separated b)
    (h : ∀ p, (∃ s ∈ a, s.contains p = true) ↔ ∃ s ∈ b, s.contains p = true) : a = b := by
  have hstart {u : Span} {c : List Span} (hc : Separated (u :: c)) : u.contains u.start = true :=
    Span.contains_iff.2 ⟨Nat.le_refl _, hc.proper u List.mem_cons_self⟩
  induction a generalizing b with
  | nil =>
    cases b with
    | nil => rfl
    | cons t b => simpa using (h t.start).2 ⟨t, List.mem_cons_self, hstart hb⟩
  | cons s a ih =>
    cases b with
    | nil => simpa using (h s.start).1 ⟨s, List.mem_cons_self, hstart ha⟩
    | cons t b =>
      have hstarts : s.start = t.start := Nat.le_antisymm
        (start_le_of_contains (hb.proper t List.mem_cons_self) ha fun p => (h p).2)
        (start_le_of_contains (ha.proper s List.mem_cons_self) hb fun p => (h p).1)
      have hstops : s.stop = t.stop := Nat.le_antisymm
        (stop_le_of_contains hb hstarts.symm fun p => (h p).1)
        (stop_le_of_contains ha hstarts fun p => (h p).2)
      have hhead : s = t := by
        cases s
        cases t
        simp only at hstarts hstops
        rw [hstarts, hstops]
      subst hhead
      rw [ih ha.tail hb.tail fun p => by rw [exists_tail_iff ha, exists_tail_iff hb, h p]]

end Form

/-! ## Taking spans away -/

/-- What is left of some spans when holes are cut out of them. -/
structure Cuts (spans holes left : List Span) : Prop where
  /-- The pieces keep apart. -/
  separated : Separated left
  /-- Each piece lies in one of the spans. -/
  covered : ∀ s ∈ left, ∃ t ∈ spans, t.covers s = true
  /-- They hold what the spans hold and no hole does. -/
  contains_iff : ∀ p, (∃ s ∈ left, s.contains p = true) ↔
    (∃ s ∈ spans, s.contains p = true) ∧ ¬∃ hole ∈ holes, hole.contains p = true

namespace Cuts

variable {spans holes left : List Span}

private theorem covers_self (s : Span) : s.covers s = true :=
  Span.covers_iff.2 ⟨Nat.le_refl _, Nat.le_refl _⟩

private theorem nil (holes : List Span) : Cuts [] holes [] :=
  ⟨⟨by simp, List.Pairwise.nil⟩, by simp, by simp⟩

/-- Without holes everything is left. -/
theorem keepAll (hspans : Separated spans) : Cuts spans [] spans :=
  ⟨hspans, fun s hs => ⟨s, hs, covers_self s⟩, by simp⟩

/-- A piece before the spans that no hole meets is kept, unless it is empty. -/
theorem keep (h : Cuts spans holes left) (start stop : Nat)
    (hbefore : ∀ t ∈ spans, stop < t.start)
    (hfree : ∀ hole ∈ holes, stop ≤ hole.start ∨ hole.stop ≤ start) :
    Cuts (⟨start, stop⟩ :: spans) holes
      ((if start < stop then [⟨start, stop⟩] else []) ++ left) where
  separated := by
    split
    · next hlt =>
      refine ⟨List.forall_mem_cons.2 ⟨hlt, h.separated.proper⟩,
        List.pairwise_cons.2 ⟨fun s hs => ?_, h.separated.apart⟩⟩
      obtain ⟨t, ht, hcovers⟩ := h.covered s hs
      exact Nat.lt_of_lt_of_le (hbefore t ht) (Span.covers_iff.1 hcovers).1
    · exact h.separated
  covered s hs := by
    rcases List.mem_append.1 hs with hs | hs
    · split at hs
      · rw [List.mem_singleton.1 hs]
        exact ⟨_, List.mem_cons_self, covers_self _⟩
      · cases hs
    · obtain ⟨t, ht, hcovers⟩ := h.covered s hs
      exact ⟨t, List.mem_cons_of_mem _ ht, hcovers⟩
  contains_iff p := by
    have hpiece : (∃ s ∈ if start < stop then [(⟨start, stop⟩ : Span)] else [],
        s.contains p = true) ↔ start ≤ p ∧ p < stop := by
      split
      · simp [Span.contains_iff]
      · simp only [List.not_mem_nil, false_and, exists_false, false_iff]
        omega
    have hin : start ≤ p ∧ p < stop → ¬∃ hole ∈ holes, hole.contains p = true := by
      rintro hp ⟨hole, hhole, hcontains⟩
      rw [Span.contains_iff] at hcontains
      have := hfree hole hhole
      omega
    simp only [List.mem_append, or_and_right, exists_or]
    rw [hpiece, h.contains_iff]
    simp only [List.mem_cons, exists_eq_or_imp, Span.contains_iff (s := ⟨start, stop⟩)]
    constructor
    · rintro (hp | ⟨hspan, hhole⟩)
      · exact ⟨.inl hp, hin hp⟩
      · exact ⟨.inr hspan, hhole⟩
    · rintro ⟨hp | hspan, hhole⟩
      · exact .inl hp
      · exact .inr ⟨hspan, hhole⟩

/-- Spans and holes may be changed where the holes decide anyway. -/
theorem congr (h : Cuts spans holes left) {spans' holes' : List Span}
    (hcovered : ∀ s ∈ spans, ∃ t ∈ spans', t.covers s = true)
    (hiff : ∀ p, ((∃ s ∈ spans, s.contains p = true) ∧ ¬∃ hole ∈ holes, hole.contains p = true) ↔
      (∃ s ∈ spans', s.contains p = true) ∧ ¬∃ hole ∈ holes', hole.contains p = true) :
    Cuts spans' holes' left where
  separated := h.separated
  covered s hs := by
    obtain ⟨t, ht, hts⟩ := h.covered s hs
    obtain ⟨u, hu, hut⟩ := hcovered t ht
    rw [Span.covers_iff] at hts hut
    exact ⟨u, hu, Span.covers_iff.2 ⟨by omega, by omega⟩⟩
  contains_iff p := (h.contains_iff p).trans (hiff p)

section Hole

variable {start stop : Nat} {rest : List Span} {hole : Span}

/-- A hole that ends before anything that is left changes nothing. -/
theorem pass (h : Cuts (⟨start, stop⟩ :: rest) holes left) (hle : start ≤ stop)
    (hapart : ∀ s ∈ rest, stop < s.start) (hpassed : hole.stop ≤ start) :
    Cuts (⟨start, stop⟩ :: rest) (hole :: holes) left := by
  refine h.congr (fun s hs => ⟨s, hs, covers_self s⟩) fun p => ?_
  refine and_congr_right fun hp => not_congr ?_
  simp only [List.mem_cons, exists_eq_or_imp, Span.contains_iff] at hp ⊢
  refine ⟨.inr, fun hin => hin.resolve_left fun hhole => ?_⟩
  rcases hp with hp | ⟨s, hs, hp⟩
  · omega
  · have := hapart s hs
    omega

/-- A hole that reaches over the end of the first span leaves what is before it, and stays for the
next span. -/
theorem overhang (h : Cuts rest (hole :: holes) left) (hapart : ∀ s ∈ rest, stop < s.start)
    (hholes : Separated (hole :: holes)) (hmeets : hole.start < stop) (hover : stop < hole.stop) :
    Cuts (⟨start, stop⟩ :: rest) (hole :: holes)
      ((if start < hole.start then [⟨start, hole.start⟩] else []) ++ left) := by
  have hfree : ∀ later ∈ hole :: holes, hole.start ≤ later.start ∨ later.stop ≤ start := by
    refine List.forall_mem_cons.2 ⟨.inl (Nat.le_refl _), fun later hl => .inl ?_⟩
    have := (List.pairwise_cons.1 hholes.apart).1 later hl
    omega
  have hkept := h.keep start hole.start (fun s hs => by have := hapart s hs; omega) hfree
  refine hkept.congr (List.forall_mem_cons.2 ⟨⟨⟨start, stop⟩, List.mem_cons_self, ?_⟩,
    fun s hs => ⟨s, List.mem_cons_of_mem _ hs, covers_self s⟩⟩) fun p => ?_
  · exact Span.covers_iff.2 ⟨Nat.le_refl _, Nat.le_of_lt hmeets⟩
  · refine and_congr_left fun hout => ?_
    simp only [List.mem_cons, exists_eq_or_imp, Span.contains_iff, not_or] at hout ⊢
    exact or_congr_left (by omega)

/-- A hole that ends within the first span leaves what is before it, and the rest of the span. -/
theorem within (h : Cuts (⟨hole.stop, stop⟩ :: rest) holes left)
    (hapart : ∀ s ∈ rest, stop < s.start) (hholes : Separated (hole :: holes))
    (hopen : start < hole.stop) (hmeets : hole.start < stop) (hwithin : hole.stop ≤ stop) :
    Cuts (⟨start, stop⟩ :: rest) (hole :: holes)
      ((if start < hole.start then [⟨start, hole.start⟩] else []) ++ left) := by
  have hproper := hholes.proper hole List.mem_cons_self
  have hfree : ∀ later ∈ holes, hole.start ≤ later.start ∨ later.stop ≤ start := by
    intro later hl
    have := (List.pairwise_cons.1 hholes.apart).1 later hl
    omega
  have hkept := h.keep start hole.start
    (List.forall_mem_cons.2 ⟨hproper, fun s hs => by have := hapart s hs; omega⟩) hfree
  refine hkept.congr (List.forall_mem_cons.2 ⟨⟨⟨start, stop⟩, List.mem_cons_self, ?_⟩,
    List.forall_mem_cons.2 ⟨⟨⟨start, stop⟩, List.mem_cons_self, ?_⟩,
      fun s hs => ⟨s, List.mem_cons_of_mem _ hs, covers_self s⟩⟩⟩) fun p => ?_
  · exact Span.covers_iff.2 ⟨Nat.le_refl _, Nat.le_of_lt hmeets⟩
  · exact Span.covers_iff.2 ⟨Nat.le_of_lt hopen, Nat.le_refl _⟩
  · simp only [List.mem_cons, exists_eq_or_imp, Span.contains_iff, not_or]
    have hbehind : (∃ s ∈ rest, s.start ≤ p ∧ p < s.stop) → stop < p := by
      rintro ⟨s, hs, hp⟩
      have := hapart s hs
      omega
    rw [← or_assoc, ← and_assoc]
    refine and_congr_left fun _ => ?_
    constructor
    · rintro (hp | hp)
      · exact ⟨.inl (by omega), by omega⟩
      · have := hbehind hp
        exact ⟨.inr hp, by omega⟩
    · rintro ⟨hp | hp, hout⟩
      · exact .inl (by omega)
      · exact .inr hp

end Hole

end Cuts

/-- The holes are cut out of the spans, the first of which may be empty by now. -/
theorem cuts_cut {start stop : Nat} {rest holes : List Span} (hle : start ≤ stop)
    (hrest : Separated rest) (hapart : ∀ s ∈ rest, stop < s.start) (hholes : Separated holes) :
    Cuts (⟨start, stop⟩ :: rest) holes (cut start stop rest holes) := by
  fun_induction cut start stop rest holes with
  | case1 start stop rest => exact (Cuts.keepAll hrest).keep start stop hapart (by simp)
  | case2 start stop rest hole holes hpassed ih =>
    exact (ih hle hrest hapart hholes.tail).pass hle hapart hpassed
  | case3 start stop rest hole holes hopen hbehind ih =>
    have hfree : ∀ later ∈ hole :: holes, stop ≤ later.start ∨ later.stop ≤ start := by
      refine List.forall_mem_cons.2 ⟨.inl hbehind, fun later hl => .inl ?_⟩
      have := (List.pairwise_cons.1 hholes.apart).1 later hl
      have := hholes.proper hole List.mem_cons_self
      omega
    cases rest with
    | nil => exact (Cuts.nil _).keep start stop hapart hfree
    | cons s rest =>
      have hnext := ih (Nat.le_of_lt (hrest.proper s List.mem_cons_self)) hrest.tail
        (List.pairwise_cons.1 hrest.apart).1 hholes
      exact hnext.keep start stop hapart hfree
  | case4 start stop rest hole holes hopen hmeets ihRest ih =>
    rw [Nat.not_le] at hopen hmeets
    by_cases hover : stop < hole.stop
    · rw [if_pos hover]
      cases rest with
      | nil => exact (Cuts.nil _).overhang hapart hholes hmeets hover
      | cons s rest =>
        have hnext := ihRest (Nat.le_of_lt (hrest.proper s List.mem_cons_self)) hrest.tail
          (List.pairwise_cons.1 hrest.apart).1 hholes
        exact hnext.overhang hapart hholes hmeets hover
    · rw [if_neg hover]
      have hwithin := Nat.not_lt.1 hover
      exact (ih hwithin hrest hapart hholes.tail).within hapart hholes hopen hmeets hwithin

/-! ## Operations and queries -/

section Operations

variable {a b : SpanSet}

private theorem represents_ofList {spans : List Span} (h : ∀ s ∈ spans, s.start ≤ s.stop) :
    (ofList spans).Represents {p | ∃ s ∈ spans, s.contains p = true} where
  separated := separated_ofList h
  offsets_eq := by
    ext p
    exact (contains_iff_of_separated (separated_ofList h)).symm.trans (contains_ofList h)

/-- A union holds the offsets of both sets. -/
theorem represents_union (ha : Separated a.spans) (hb : Separated b.spans) :
    (a.union b).Represents (a.offsets ∪ b.offsets) := by
  have hordered : ∀ s ∈ a.spans ++ b.spans, s.start ≤ s.stop :=
    List.forall_mem_append.2
      ⟨fun s hs => Nat.le_of_lt (ha.proper s hs), fun s hs => Nat.le_of_lt (hb.proper s hs)⟩
  have h := represents_ofList hordered
  refine ⟨h.separated, h.offsets_eq.trans ?_⟩
  ext p
  simp [offsets, or_and_right, exists_or]

private theorem represents_diff (ha : Separated a.spans) (hb : Separated b.spans) :
    (a.diff b).Represents (a.offsets \ b.offsets) := by
  obtain ⟨spans⟩ := a
  cases spans with
  | nil =>
    refine ⟨⟨by simp [diff, empty], by simp [diff, empty]⟩, ?_⟩
    ext p
    simp [offsets, diff, empty]
  | cons s rest =>
    have hcuts := cuts_cut (Nat.le_of_lt (ha.proper s List.mem_cons_self)) ha.tail
      (List.pairwise_cons.1 ha.apart).1 hb
    exact ⟨hcuts.separated, Set.ext hcuts.contains_iff⟩

/-- A set of separate spans holds the offsets of its spans. -/
theorem contains_iff_mem_offsets (ha : Separated a.spans) {p : Nat} :
    a.contains p = true ↔ p ∈ a.offsets :=
  contains_iff_of_separated ha

/-- Sets whose spans keep apart are equal if they hold the same offsets. -/
theorem eq_of_contains_iff (ha : Separated a.spans) (hb : Separated b.spans)
    (h : ∀ p, a.contains p = true ↔ b.contains p = true) : a = b := by
  simp only [contains_iff_of_separated ha, contains_iff_of_separated hb] at h
  cases a
  cases b
  exact congrArg _ (ha.eq_of_contains_iff hb h)

/-- A span that is not empty meets a set if they share an offset. -/
theorem meets_iff (ha : Separated a.spans) {q : Span} (hq : q.start < q.stop) :
    a.meets q = true ↔ ∃ p ∈ a.offsets, q.contains p = true := by
  constructor
  · intro hmeets
    by_contra hnone
    rw [meets_eq_false ha hq fun p hp => ?_] at hmeets
    · cases hmeets
    · rw [Bool.eq_false_iff]
      exact fun hcontains => hnone ⟨p, (contains_iff_mem_offsets ha).1 hcontains, hp⟩
  · rintro ⟨p, ⟨s, hs, hsp⟩, hqp⟩
    rw [Span.contains_iff] at hsp hqp
    have hempty : q.isEmpty = false := by
      simp only [Span.isEmpty, beq_eq_false_iff_ne]
      omega
    rw [meets, hempty, if_neg (by simp), firstAfter]
    cases hfirst : a.spans.find? fun s => decide (q.start < s.stop) with
    | none =>
      have := List.find?_eq_none.1 hfirst s hs
      simp only [decide_eq_true_eq] at this
      omega
    | some t =>
      -- The first stretch that ends behind the start of the span starts no later than this one.
      obtain ⟨-, before, after, hsplit, hbefore⟩ := List.find?_eq_some_iff_append.1 hfirst
      have hle : t.start ≤ s.start := by
        have hapart := ha.apart
        rw [hsplit] at hs hapart
        rcases List.mem_append.1 hs with hs | hs
        · have := hbefore s hs
          simp only [Bool.not_eq_true', decide_eq_false_iff_not] at this
          omega
        · rcases List.mem_cons.1 hs with rfl | hs
          · exact Nat.le_refl _
          · have := (List.pairwise_cons.1 (List.pairwise_append.1 hapart).2.1).1 s hs
            have := ha.proper t (hsplit ▸ List.mem_append_right _ List.mem_cons_self)
            omega
      simp only [Option.any_some, decide_eq_true_eq]
      omega

/-- A span that is not empty is covered by a set if all of its offsets belong to the set: they lie
in one stretch, as stretches leave gaps. -/
theorem covers_iff_forall (ha : Separated a.spans) {q : Span} (hq : q.start < q.stop) :
    a.covers q = true ↔ ∀ p, q.contains p = true → p ∈ a.offsets := by
  have hcovers : a.covers q = true ↔
      ∃ s, a.spanAt q.start = some s ∧ q.stop ≤ s.stop := by
    simp [covers, Option.any_eq_true]
  rw [hcovers]
  constructor
  · rintro ⟨s, hs, hstop⟩ p hp
    obtain ⟨hmem, hstart, -⟩ := (spanAt_eq_some_iff ha).1 hs
    rw [Span.contains_iff] at hp
    exact ⟨s, hmem, Span.contains_iff.2 ⟨by omega, by omega⟩⟩
  · intro hall
    obtain ⟨s, hs, hcontains⟩ := hall q.start (Span.contains_iff.2 ⟨Nat.le_refl _, hq⟩)
    rw [Span.contains_iff] at hcontains
    refine ⟨s, (spanAt_eq_some_iff ha).2 ⟨hs, hcontains⟩, ?_⟩
    rw [← Nat.not_lt]
    intro hlt
    obtain ⟨t, ht, hcontains'⟩ := hall s.stop (Span.contains_iff.2 ⟨by omega, hlt⟩)
    rw [Span.contains_iff] at hcontains'
    have hproper := ha.proper s hs
    rcases eq_or_rel_of_pairwise ha.apart hs ht with rfl | hlt | hlt
    · exact Nat.lt_irrefl _ hcontains'.2
    all_goals omega

/-- What the operations and queries do, for sets in their one form and any spans to make a set
from. -/
structure Algebra (spans : List Span) (a b : SpanSet) : Prop where
  /-- A set made from spans has their offsets. -/
  made : (ofList spans).Represents {p | ∃ s ∈ spans, s.contains p = true}
  /-- No other set in its one form has them. -/
  unique : ∀ set : SpanSet, set.Represents {p | ∃ s ∈ spans, s.contains p = true} →
    set = ofList spans
  /-- The union has the offsets of either set. -/
  union : (a.union b).Represents (a.offsets ∪ b.offsets)
  /-- The difference has the offsets of the first set that the second one lacks. -/
  diff : (a.diff b).Represents (a.offsets \ b.offsets)
  /-- Membership is that of the offsets. -/
  contains : ∀ p, a.contains p = true ↔ p ∈ a.offsets
  /-- What is found at an offset is the one stretch that holds it. -/
  spanAt : ∀ p s, a.spanAt p = some s ↔ s ∈ a.spans ∧ s.contains p = true
  /-- A span meets the set if they share an offset, where an empty span stands for its start. -/
  meets : ∀ q : Span, q.start ≤ q.stop → (a.meets q = true ↔
    (q.start = q.stop ∧ q.start ∈ a.offsets) ∨ ∃ p ∈ a.offsets, q.contains p = true)
  /-- A span that is not empty is covered if the set has all of its offsets. -/
  covers : ∀ q : Span, q.start < q.stop →
    (a.covers q = true ↔ ∀ p, q.contains p = true → p ∈ a.offsets)

/-- The operations on sets are those on their offsets. -/
theorem algebra_of_separated {spans : List Span} (hspans : ∀ s ∈ spans, s.start ≤ s.stop)
    (ha : Separated a.spans) (hb : Separated b.spans) : Algebra spans a b where
  made := represents_ofList hspans
  unique set hset := by
    have hmade := represents_ofList hspans
    obtain ⟨stretches⟩ := set
    refine congrArg SpanSet.mk (hset.separated.eq_of_contains_iff hmade.separated fun p => ?_)
    exact Set.ext_iff.1 (hset.offsets_eq.trans hmade.offsets_eq.symm) p
  union := represents_union ha hb
  diff := represents_diff ha hb
  contains p := contains_iff_mem_offsets ha
  spanAt p s := by rw [spanAt_eq_some_iff ha, Span.contains_iff]
  meets q hq := by
    rcases Nat.eq_or_lt_of_le hq with hempty | hproper
    · have hnone : ∀ p, ¬q.contains p = true := fun p hp => by
        rw [Span.contains_iff] at hp
        omega
      rw [SpanSet.meets, if_pos (by simpa [Span.isEmpty] using hempty),
        contains_iff_mem_offsets ha]
      simp [hempty, hnone]
    · rw [meets_iff ha hproper, or_iff_right fun h => absurd h.1 (Nat.ne_of_lt hproper)]
  covers q hq := covers_iff_forall ha hq

/-- The laws apply to spans in any order that overlap, touch or are empty, and to holes that reach
over several stretches. -/
theorem algebra_of_separated_holes :
    Separated [⟨0, 10⟩, ⟨20, 30⟩] ∧ Separated [⟨2, 4⟩, ⟨8, 22⟩, ⟨25, 26⟩] ∧
      Algebra [⟨10, 12⟩, ⟨0, 3⟩, ⟨2, 5⟩, ⟨5, 6⟩, ⟨8, 8⟩] ⟨[⟨0, 10⟩, ⟨20, 30⟩]⟩
        ⟨[⟨2, 4⟩, ⟨8, 22⟩, ⟨25, 26⟩]⟩ := by
  have ha : Separated [⟨0, 10⟩, ⟨20, 30⟩] := ⟨by decide, by decide⟩
  have hb : Separated [⟨2, 4⟩, ⟨8, 22⟩, ⟨25, 26⟩] := ⟨by decide, by decide⟩
  exact ⟨ha, hb, algebra_of_separated (by decide) ha hb⟩

example : (diff ⟨[⟨0, 10⟩, ⟨20, 30⟩]⟩ ⟨[⟨2, 4⟩, ⟨8, 22⟩, ⟨25, 26⟩]⟩).spans =
    [⟨0, 2⟩, ⟨4, 8⟩, ⟨22, 25⟩, ⟨26, 30⟩] := by cbv

end Operations

end LexScope.SpanSet
