import LexScope.Proofs.Form.Pieces

/-!
# The offsets of a set of spans

A set made from spans holds exactly the offsets of these spans. Sorting and joining change how the
offsets are cut into stretches, and afterwards the stretches keep apart, which is why the first
stretch that ends after an offset is the only one to look at.
-/

namespace LexScope.SpanSet

/-- The set holds an offset if one of its stretches does. -/
theorem contains_iff_of_separated {set : SpanSet} (h : Separated set.spans) {offset : Nat} :
    set.contains offset = true ↔ ∃ s ∈ set.spans, s.contains offset = true := by
  simp only [contains, Option.isSome_iff_exists, spanAt_eq_some_iff h, Span.contains_iff]

/-- A span whose offsets are all outside does not meet the set. -/
theorem meets_eq_false {set : SpanSet} (h : Separated set.spans) {s : Span}
    (hproper : s.start < s.stop)
    (hout : ∀ offset, s.contains offset = true → set.contains offset = false) :
    set.meets s = false := by
  have hempty : s.isEmpty = false := by
    simp only [Span.isEmpty, beq_eq_false_iff_ne]
    omega
  rw [meets, if_neg (by simp [hempty]), Bool.eq_false_iff]
  intro hany
  obtain ⟨t, hfirst, hlt⟩ := (Option.any_eq_true _ _).1 hany
  have hmem : t ∈ set.spans := List.mem_of_find?_eq_some hfirst
  have hafter := List.find?_some hfirst
  have ht := h.proper t hmem
  simp only [decide_eq_true_eq] at hlt hafter
  have hcontains : set.contains (max s.start t.start) = true :=
    (contains_iff_of_separated h).2 ⟨t, hmem, Span.contains_iff.2 ⟨by omega, by omega⟩⟩
  rw [hout _ (Span.contains_iff.2 ⟨by omega, by omega⟩)] at hcontains
  cases hcontains

/-- What joining sorted spans onto a stretch gives. -/
structure Joined (current : Span) (rest joined : List Span) : Prop where
  /-- The stretches keep apart. -/
  separated : Separated joined
  /-- None starts before the first span. -/
  start_le : ∀ s ∈ joined, current.start ≤ s.start
  /-- They hold the offsets of the spans. -/
  contains_iff : ∀ offset, (∃ s ∈ joined, s.contains offset = true) ↔
    ∃ s ∈ current :: rest, s.contains offset = true

private theorem joined_mergeFrom {current : Span} {rest : List Span}
    (hproper : ∀ s ∈ current :: rest, s.start < s.stop)
    (hsorted : (current :: rest).Pairwise fun s t => s.start ≤ t.start) :
    Joined current rest (mergeFrom current rest) := by
  induction rest generalizing current with
  | nil =>
    exact ⟨⟨hproper, by simp [mergeFrom]⟩, by simp [mergeFrom], by simp [mergeFrom]⟩
  | cons s rest ih =>
    obtain ⟨hcurrent, hrest⟩ := List.forall_mem_cons.1 hproper
    obtain ⟨hs, hproperRest⟩ := List.forall_mem_cons.1 hrest
    obtain ⟨hfirst, hsortedRest⟩ := List.pairwise_cons.1 hsorted
    have hle := hfirst s List.mem_cons_self
    unfold mergeFrom
    split
    · next htouch =>
      -- The two spans leave no gap, so their hull holds nothing else.
      have hhull : ∀ t ∈ (⟨current.start, max current.stop s.stop⟩ : Span) :: rest,
          t.start < t.stop :=
        List.forall_mem_cons.2 ⟨by simp only; omega, hproperRest⟩
      have hjoined := ih hhull
        (List.pairwise_cons.2
          ⟨fun t ht => hfirst t (List.mem_cons_of_mem _ ht), hsortedRest.tail⟩)
      refine ⟨hjoined.separated, hjoined.start_le, fun offset => ?_⟩
      rw [hjoined.contains_iff]
      simp only [List.mem_cons, exists_eq_or_imp, Span.contains_iff]
      rw [← or_assoc]
      exact or_congr_left (by omega)
    · next hgap =>
      have hjoined := ih hrest hsortedRest
      refine ⟨⟨?_, ?_⟩, ?_, fun offset => ?_⟩
      · exact List.forall_mem_cons.2 ⟨hcurrent, hjoined.separated.proper⟩
      · refine List.pairwise_cons.2 ⟨fun t ht => ?_, hjoined.separated.apart⟩
        have := hjoined.start_le t ht
        omega
      · refine List.forall_mem_cons.2 ⟨Nat.le_refl _, fun t ht => ?_⟩
        exact Nat.le_trans hle (hjoined.start_le t ht)
      · have hiff := hjoined.contains_iff offset
        simp only [List.mem_cons, exists_eq_or_imp] at hiff ⊢
        rw [hiff]

private theorem start_le_of_atMost {s t : Span} (h : Span.atMost s t = true) :
    s.start ≤ t.start := by
  simp only [Span.atMost, Span.precedes, Bool.not_eq_true', Bool.or_eq_false_iff,
    decide_eq_false_iff_not] at h
  omega

private theorem pairwise_mergeSort_atMost (spans : List Span) :
    (spans.mergeSort Span.atMost).Pairwise fun s t => Span.atMost s t = true := by
  apply List.pairwise_mergeSort
  · intro a b c
    simp [Span.atMost, Span.precedes]
    omega
  · intro a b
    simp [Span.atMost, Span.precedes]
    omega

variable {spans : List Span}

private theorem ofList_spec (hordered : ∀ s ∈ spans, s.start ≤ s.stop) :
    Separated (ofList spans).spans ∧
      ∀ offset, (∃ s ∈ (ofList spans).spans, s.contains offset = true) ↔
        ∃ s ∈ spans, s.contains offset = true := by
  have hsorted := (pairwise_mergeSort_atMost (spans.filter fun s => !s.isEmpty)).imp
    start_le_of_atMost
  have hmem : ∀ s, s ∈ (spans.filter fun s => !s.isEmpty).mergeSort Span.atMost ↔
      s ∈ spans ∧ s.start < s.stop := by
    intro s
    rw [List.mem_mergeSort, List.mem_filter, and_congr_right_iff]
    intro hs
    have := hordered s hs
    simp only [Span.isEmpty, Bool.not_eq_true', beq_eq_false_iff_ne]
    omega
  have hoffsets : ∀ offset,
      (∃ s ∈ (spans.filter fun s => !s.isEmpty).mergeSort Span.atMost,
          s.contains offset = true) ↔ ∃ s ∈ spans, s.contains offset = true := by
    intro offset
    simp only [hmem, Span.contains_iff]
    constructor
    · rintro ⟨s, ⟨hs, -⟩, hoffset⟩
      exact ⟨s, hs, hoffset⟩
    · rintro ⟨s, hs, hoffset⟩
      exact ⟨s, ⟨hs, by omega⟩, hoffset⟩
  unfold ofList merge
  split
  · next hnil =>
    rw [hnil] at hoffsets
    exact ⟨⟨by simp, by simp⟩, hoffsets⟩
  · next first rest hcons =>
    rw [hcons] at hsorted hoffsets hmem
    have hjoined := joined_mergeFrom (fun s hs => ((hmem s).1 hs).2) hsorted
    exact ⟨hjoined.separated, fun offset => (hjoined.contains_iff offset).trans (hoffsets offset)⟩

/-- The stretches of a set made from spans keep apart. -/
theorem separated_ofList (hordered : ∀ s ∈ spans, s.start ≤ s.stop) :
    Separated (ofList spans).spans :=
  (ofList_spec hordered).1

/-- A set made from spans holds their offsets and no others. -/
theorem contains_ofList (hordered : ∀ s ∈ spans, s.start ≤ s.stop) {offset : Nat} :
    (ofList spans).contains offset = true ↔ ∃ s ∈ spans, s.contains offset = true := by
  rw [contains_iff_of_separated (separated_ofList hordered), (ofList_spec hordered).2]

end LexScope.SpanSet
