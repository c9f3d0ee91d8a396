import LexScope.Proofs.Span.Membership
import Mathlib

/-!
# The innermost marker decides

Which offsets are data is found in one sweep over the marker spans, with a stack of those around a
cursor. If the spans nest, the sweep says of each offset what the innermost span around it makes of
it. The spans come in order of their starts, so the innermost one around an offset is the last one
that holds it, and the sweep is followed in these terms: what lies before the cursor is decided, and
what lies after it is decided by the first span of the stack that reaches it.
-/

namespace LexScope

/-- The two spans are nested, or share no offset. -/
def Span.Laminar (s t : Span) : Prop :=
  s.covers t = true ∨ t.covers s = true ∨ s.stop ≤ t.start ∨ t.stop ≤ s.start

instance (s t : Span) : Decidable (s.Laminar t) :=
  inferInstanceAs (Decidable (_ ∨ _ ∨ _ ∨ _))

/-- Of two spans around an offset that are nested or disjoint, the one that starts first covers the
other. -/
theorem Span.Laminar.covers_of_lt {s t : Span} (h : s.Laminar t) (hlt : s.start < t.start) {p : Nat}
    (hs : s.contains p = true) (ht : t.contains p = true) : s.covers t = true := by
  rw [Span.contains_iff] at hs ht
  rcases h with h | h | h | h
  · exact h
  · have := (Span.covers_iff.1 h).1
    omega
  all_goals omega

/-! ## The sweep -/

/-- What the last of the layers around an offset makes of it. Without one it is code. -/
def Layer.decides (layers : List Layer) (p : Nat) : Bool :=
  (layers.filter fun l => l.span.contains p).getLast?.any (·.isData)

private theorem Layer.decides_concat (layers : List Layer) (l : Layer) (p : Nat) :
    decides (layers ++ [l]) p = if l.span.contains p then l.isData else decides layers p := by
  unfold decides
  rw [List.filter_append]
  split <;> simp [*]

namespace LayerState

/-- What the layers on the stack make of an offset after the cursor. -/
def above (around : List (Nat × Bool)) (p : Nat) : Bool :=
  (around.find? fun e => decide (p < e.1)).any (·.2)

private theorem above_cons (e : Nat × Bool) (around : List (Nat × Bool)) (p : Nat) :
    above (e :: around) p = if p < e.1 then e.2 else above around p := by
  by_cases hp : p < e.1 <;> simp [above, hp]

/-- The sweep has taken in the given layers, and what it has found agrees with them. -/
structure Swept (layers : List Layer) (st : LayerState) : Prop where
  /-- What lies before the cursor is decided. -/
  behind : ∀ p < st.cursor,
    (∃ s ∈ st.data, s.contains p = true) ↔ Layer.decides layers p = true
  /-- What lies after it is left to the stack. -/
  ahead : ∀ p, st.cursor ≤ p → Layer.decides layers p = above st.around p
  /-- The data found lie before the cursor. -/
  data : ∀ s ∈ st.data, s.start < s.stop ∧ s.stop ≤ st.cursor
  /-- The layers on the stack end after the cursor. -/
  cursor_le : ∀ e ∈ st.around, st.cursor ≤ e.1
  /-- A layer ends no later than those around it. -/
  ascending : st.around.Pairwise fun e f => e.1 ≤ f.1
  /-- The stack is made of the given layers. -/
  taken : ∀ e ∈ st.around, ∃ l ∈ layers, l.span.stop = e.1

namespace Swept

variable {layers : List Layer} {st : LayerState}

private theorem empty : Swept [] {} := by
  constructor <;> simp [Layer.decides, above]

/-- The cursor moves over a stretch that one layer decides, and may leave layers that end there. -/
theorem advance (h : st.Swept layers) {stop : Nat} {isData : Bool} {around : List (Nat × Bool)}
    (hle : st.cursor ≤ stop) (hsub : around.Sublist st.around)
    (hstop : ∀ e ∈ around, stop ≤ e.1)
    (hdecides : ∀ p, st.cursor ≤ p → p < stop → above st.around p = isData)
    (habove : ∀ p, stop ≤ p → above st.around p = above around p) :
    Swept layers { st.advance stop isData with around := around } where
  behind p hp := by
    have hcursor : (∃ s ∈ st.data, s.contains p = true) → p < st.cursor := by
      rintro ⟨s, hs, hcontains⟩
      have := (h.data s hs).2
      have := (Span.contains_iff.1 hcontains).2
      omega
    simp only [LayerState.advance] at hp ⊢
    rcases Nat.lt_or_ge p st.cursor with hbefore | hafter
    · -- The new stretch starts at the cursor and adds nothing here.
      rw [← h.behind p hbefore]
      split
      · simp only [List.mem_cons, exists_eq_or_imp, Span.contains_iff, or_iff_right_iff_imp]
        omega
      · rfl
    · rw [h.ahead p hafter, hdecides p hafter hp]
      cases isData with
      | false =>
        simp only [Bool.false_and, Bool.false_eq_true, if_false, iff_false]
        exact fun hfound => Nat.not_lt.2 hafter (hcursor hfound)
      | true =>
        rw [if_pos (by simp; omega)]
        simpa using .inl (Span.contains_iff.2 ⟨hafter, hp⟩)
  ahead p hp := by
    simp only [LayerState.advance] at hp ⊢
    rw [h.ahead p (by omega), habove p hp]
  data s hs := by
    simp only [LayerState.advance] at hs ⊢
    have hold : s ∈ st.data → s.start < s.stop ∧ s.stop ≤ stop := fun hs =>
      (h.data s hs).imp_right fun hstop => Nat.le_trans hstop hle
    split at hs
    · next hnew =>
      simp only [Bool.and_eq_true, decide_eq_true_eq] at hnew
      rcases List.mem_cons.1 hs with rfl | hs
      · exact ⟨hnew.2, Nat.le_refl _⟩
      · exact hold hs
    · exact hold hs
  cursor_le := hstop
  ascending := h.ascending.sublist hsub
  taken e he := h.taken e (hsub.subset he)

private theorem foldl_advance_with (ended : List (Nat × Bool)) (st : LayerState)
    (around : List (Nat × Bool)) :
    ended.foldl (fun acc e => acc.advance e.1 e.2) { st with around := around } =
      { ended.foldl (fun acc e => acc.advance e.1 e.2) st with around := around } := by
  induction ended generalizing st with
  | nil => rfl
  | cons e ended ih => exact ih (st.advance e.1 e.2)

/-- The cursor leaves the innermost layers one after the other. -/
theorem pass (h : st.Swept layers) {ended rest : List (Nat × Bool)}
    (hsplit : st.around = ended ++ rest) {bound : Nat} (hcursor : st.cursor ≤ bound)
    (hended : ∀ e ∈ ended, e.1 ≤ bound) :
    Swept layers { ended.foldl (fun acc e => acc.advance e.1 e.2) st with around := rest } ∧
      (ended.foldl (fun acc e => acc.advance e.1 e.2) st).cursor ≤ bound := by
  induction ended generalizing st with
  | nil => exact ⟨by rw [← List.nil_append rest, ← hsplit]; exact h, hcursor⟩
  | cons e ended ih =>
    obtain ⟨he, hended⟩ := List.forall_mem_cons.1 hended
    have hascending := h.ascending
    rw [hsplit, List.cons_append, List.pairwise_cons] at hascending
    have hleft : Swept layers { st.advance e.1 e.2 with around := ended ++ rest } := by
      refine h.advance (h.cursor_le e (by simp [hsplit])) ?_ hascending.1 ?_ ?_
      · rw [hsplit]
        exact List.sublist_cons_self _ _
      · intro p _ hp
        rw [hsplit, List.cons_append, above_cons, if_pos hp]
      · intro p hp
        rw [hsplit, List.cons_append, above_cons, if_neg (Nat.not_lt.2 hp)]
    have hpass := ih hleft rfl he hended
    rwa [foldl_advance_with] at hpass

/-- Leaving the layers that end before the next one starts. -/
theorem leave (h : st.Swept layers) {start : Nat} (hcursor : st.cursor ≤ start) :
    (st.leave start).Swept layers ∧ (st.leave start).cursor ≤ start ∧
      ∀ e ∈ (st.leave start).around, start < e.1 := by
  have hsplit := (List.takeWhile_append_dropWhile (p := fun e : Nat × Bool => decide (e.1 ≤ start))
    (l := st.around)).symm
  obtain ⟨hswept, hle⟩ := h.pass hsplit hcursor fun e he => by
    simpa using List.all_eq_true.1 List.all_takeWhile e he
  refine ⟨hswept, hle, ?_⟩
  -- The first layer that stays ends after the start, and the others no earlier than it.
  have hascending : (st.around.dropWhile fun e => decide (e.1 ≤ start)).Pairwise
      fun e f => e.1 ≤ f.1 := h.ascending.sublist (List.dropWhile_sublist _)
  have hhead := List.head?_dropWhile_not (fun e : Nat × Bool => decide (e.1 ≤ start)) st.around
  change ∀ e ∈ st.around.dropWhile fun e => decide (e.1 ≤ start), start < e.1
  cases hrest : st.around.dropWhile fun e => decide (e.1 ≤ start) with
  | nil => simp
  | cons first rest =>
    rw [hrest] at hhead hascending
    have hfirst : start < first.1 := by simpa using hhead
    refine List.forall_mem_cons.2 ⟨hfirst, fun e he => ?_⟩
    exact Nat.lt_of_lt_of_le hfirst ((List.pairwise_cons.1 hascending).1 e he)

/-- A layer that starts at the cursor comes on top of the stack. -/
theorem push (h : st.Swept layers) {l : Layer} (hcursor : st.cursor = l.span.start)
    (hproper : l.span.start < l.span.stop) (hinside : ∀ e ∈ st.around, l.span.stop ≤ e.1) :
    Swept (layers ++ [l]) { st with around := (l.span.stop, l.isData) :: st.around } where
  behind p hp := by
    have hout : l.span.contains p = false := by
      rw [Bool.eq_false_iff, ne_eq, Span.contains_iff]
      simp only at hp
      omega
    rw [Layer.decides_concat, hout]
    exact h.behind p hp
  ahead p hp := by
    rw [Layer.decides_concat, above_cons, ← h.ahead p hp]
    have hiff : l.span.contains p = true ↔ p < l.span.stop := by
      rw [Span.contains_iff, ← hcursor]
      exact and_iff_right hp
    simp only [hiff]
  data := h.data
  cursor_le := List.forall_mem_cons.2 ⟨by simp only; omega, h.cursor_le⟩
  ascending := List.pairwise_cons.2 ⟨hinside, h.ascending⟩
  taken := by
    refine List.forall_mem_cons.2 ⟨⟨l, by simp, rfl⟩, fun e he => ?_⟩
    obtain ⟨m, hm, hstop⟩ := h.taken e he
    exact ⟨m, List.mem_append_left _ hm, hstop⟩

/-- A layer is entered that starts after those before it and lies inside the ones it meets. -/
theorem enter (h : st.Swept layers) {l : Layer} (hcursor : st.cursor ≤ l.span.start)
    (hproper : l.span.start < l.span.stop)
    (hinside : ∀ m ∈ layers, l.span.start < m.span.stop → l.span.stop ≤ m.span.stop) :
    (st.enter l).Swept (layers ++ [l]) ∧ (st.enter l).cursor = l.span.start := by
  obtain ⟨hleft, hle, hafter⟩ := h.leave hcursor
  have hstops : ∀ e ∈ (st.leave l.span.start).around, l.span.stop ≤ e.1 := by
    intro e he
    obtain ⟨m, hm, hstop⟩ := hleft.taken e he
    rw [← hstop]
    exact hinside m hm (hstop ▸ hafter e he)
  unfold LayerState.enter
  generalize st.leave l.span.start = left at hleft hle hafter hstops
  simp only
  split
  · next hnil =>
    -- Nothing is around the stretch before the layer, so it is code.
    have hmoved : Swept layers { left.advance l.span.start false with around := [] } :=
      hleft.advance hle (by simp) (by simp) (by simp [hnil, above]) (by simp [hnil])
    exact ⟨hmoved.push rfl hproper (by simp), rfl⟩
  · next stop isData rest hcons =>
    have hfirst : l.span.start < stop ∧ l.span.stop ≤ stop :=
      ⟨hafter _ (by rw [hcons]; exact List.mem_cons_self),
        hstops _ (by rw [hcons]; exact List.mem_cons_self)⟩
    have hmoved : Swept layers { left.advance l.span.start isData with around := left.around } := by
      refine hleft.advance hle (List.Sublist.refl _) (fun e he => Nat.le_of_lt (hafter e he)) ?_ ?_
      · intro p _ hp
        rw [hcons, above_cons, if_pos (Nat.lt_trans hp hfirst.1)]
      · exact fun _ _ => rfl
    rw [Nat.min_eq_left hfirst.2]
    exact ⟨hmoved.push rfl hproper hstops, rfl⟩

/-- The whole sweep over layers that come in order and nest. -/
theorem foldl (h : st.Swept layers) {rest : List Layer}
    (hcursor : ∀ l ∈ rest, st.cursor ≤ l.span.start)
    (hproper : ∀ l ∈ rest, l.span.start < l.span.stop)
    (hsorted : (layers ++ rest).Pairwise fun l m => l.span.start < m.span.start)
    (hlaminar : ∀ l ∈ layers ++ rest, ∀ m ∈ layers ++ rest, l.span.Laminar m.span) :
    (rest.foldl LayerState.enter st).Swept (layers ++ rest) := by
  induction rest generalizing layers st with
  | nil => simpa using h
  | cons l rest ih =>
    obtain ⟨hl, hproper⟩ := List.forall_mem_cons.1 hproper
    obtain ⟨-, hrest, hbefore⟩ := List.pairwise_append.1 hsorted
    have hinside : ∀ m ∈ layers, l.span.start < m.span.stop → l.span.stop ≤ m.span.stop := by
      intro m hm hmeets
      have hlt := hbefore m hm l List.mem_cons_self
      rcases hlaminar m (by simp [hm]) l (by simp) with hcase | hcase | hcase | hcase
      · exact (Span.covers_iff.1 hcase).2
      · have := (Span.covers_iff.1 hcase).1
        omega
      all_goals omega
    obtain ⟨hentered, hat⟩ := h.enter (hcursor l List.mem_cons_self) hl hinside
    have hnext : ∀ m ∈ rest, (st.enter l).cursor ≤ m.span.start := by
      intro m hm
      rw [hat]
      exact Nat.le_of_lt ((List.pairwise_cons.1 hrest).1 m hm)
    have hdone := ih hentered hnext hproper (by simpa using hsorted) (by simpa using hlaminar)
    simpa using hdone

/-- Leaving every layer takes each as it comes. -/
theorem finish_eq (h : st.Swept layers) :
    st.finish = (st.around.foldl (fun acc e => acc.advance e.1 e.2) st).data := by
  have hfold : ∀ (around : List (Nat × Bool)) (acc : LayerState),
      (∀ e ∈ around, acc.cursor ≤ e.1) → around.Pairwise (fun e f => e.1 ≤ f.1) →
        around.foldl (fun acc e =>
          { acc.advance e.1 e.2 with cursor := max acc.cursor e.1 }) acc =
            around.foldl (fun acc e => acc.advance e.1 e.2) acc := by
    intro around
    induction around with
    | nil => exact fun _ _ _ => rfl
    | cons e around ih =>
      intro acc hle hascending
      obtain ⟨hfirst, hrest⟩ := List.pairwise_cons.1 hascending
      rw [List.foldl_cons, List.foldl_cons, Nat.max_eq_right (hle e List.mem_cons_self)]
      exact ih (acc.advance e.1 e.2) hfirst hrest
  rw [← hfold st.around st h.cursor_le h.ascending]
  rfl

/-- At the end of the sweep the data are what the layers make data. -/
theorem finish (h : st.Swept layers) :
    (∀ s ∈ st.finish, s.start < s.stop) ∧
      ∀ p, (∃ s ∈ st.finish, s.contains p = true) ↔ Layer.decides layers p = true := by
  have hbound : ∃ bound, st.cursor ≤ bound ∧ ∀ e ∈ st.around, e.1 ≤ bound := by
    refine ⟨st.around.foldr (fun e bound => max e.1 bound) st.cursor, ?_⟩
    induction st.around with
    | nil => simp
    | cons e around ih =>
      refine ⟨Nat.le_trans ih.1 (Nat.le_max_right _ _), ?_⟩
      refine List.forall_mem_cons.2 ⟨Nat.le_max_left _ _, fun f hf => ?_⟩
      exact Nat.le_trans (ih.2 f hf) (Nat.le_max_right _ _)
  obtain ⟨bound, hcursor, hended⟩ := hbound
  obtain ⟨hleft, -⟩ := h.pass (List.append_nil _).symm hcursor hended
  rw [h.finish_eq]
  refine ⟨fun s hs => (hleft.data s hs).1, fun p => ?_⟩
  rcases Nat.lt_or_ge p (st.around.foldl (fun acc e => acc.advance e.1 e.2) st).cursor with hp | hp
  · exact hleft.behind p hp
  · -- After the last layer there is nothing, neither found nor decided.
    rw [hleft.ahead p hp]
    simp only [above, List.find?_nil, Option.any_none, Bool.false_eq_true, iff_false]
    rintro ⟨s, hs, hcontains⟩
    have hstop := (hleft.data s hs).2
    have hlt := (Span.contains_iff.1 hcontains).2
    exact Nat.not_lt.2 (Nat.le_trans hstop hp) hlt

end Swept

end LayerState

/-! ## The innermost layer -/

/-- Of layers that come in order and nest, the last one around an offset lies in all the others. -/
theorem Layer.decides_iff {layers : List Layer}
    (hsorted : layers.Pairwise fun l m => l.span.start < m.span.start)
    (hlaminar : ∀ l ∈ layers, ∀ m ∈ layers, l.span.Laminar m.span) {p : Nat} :
    decides layers p = true ↔ ∃ l ∈ layers, l.isData = true ∧ l.span.contains p = true ∧
      ∀ m ∈ layers, m.span.contains p = true → m.span.covers l.span = true := by
  unfold decides
  cases hlast : (layers.filter fun l => l.span.contains p).getLast? with
  | none =>
    have hnone := List.filter_eq_nil_iff.1 (List.getLast?_eq_none_iff.1 hlast)
    simp only [Option.any_none, Bool.false_eq_true, false_iff]
    rintro ⟨l, hl, -, hcontains, -⟩
    exact hnone l hl hcontains
  | some last =>
    obtain ⟨before, hsplit⟩ := List.getLast?_eq_some_iff.1 hlast
    obtain ⟨hmem, hcontains⟩ := List.mem_filter.1 (hsplit ▸ List.mem_concat_self)
    have hbefore : ∀ m ∈ layers, m.span.contains p = true →
        m = last ∨ m.span.start < last.span.start := by
      intro m hm hp
      have hkept := hsorted.sublist (List.filter_sublist (p := fun l => l.span.contains p))
      have hmem : m ∈ before ++ [last] := hsplit ▸ List.mem_filter.2 ⟨hm, hp⟩
      rw [hsplit] at hkept
      rcases List.mem_append.1 hmem with hm | hm
      · exact .inr ((List.pairwise_append.1 hkept).2.2 m hm last List.mem_cons_self)
      · exact .inl (List.mem_singleton.1 hm)
    simp only [Option.any_some]
    constructor
    · intro hdata
      refine ⟨last, hmem, hdata, hcontains, fun m hm hp => ?_⟩
      rcases hbefore m hm hp with rfl | hlt
      · exact Span.covers_iff.2 ⟨Nat.le_refl _, Nat.le_refl _⟩
      · exact (hlaminar m hm last hmem).covers_of_lt hlt hp hcontains
    · rintro ⟨l, hl, hdata, hp, hinner⟩
      rcases hbefore l hl hp with rfl | hlt
      · exact hdata
      · have := (Span.covers_iff.1 (hinner last hmem hcontains)).1
        omega

namespace Layout

/-- The spans of all markers. -/
def markerSpans (layout : Layout) : List Span :=
  (layout.markers .quote).spans ++ (layout.markers .template).spans ++
    (layout.markers .comma).spans

/-- The marker spans are as those of a document: each starts at a marker of its own, and of two
either one lies in the other, or they share nothing. -/
structure MarkersNest (layout : Layout) : Prop where
  /-- None is empty. -/
  proper : ∀ s ∈ layout.markerSpans, s.start < s.stop
  /-- No two start at the same offset. -/
  distinct : layout.markerSpans.Pairwise fun s t => s.start ≠ t.start
  /-- Any two are nested or disjoint. -/
  laminar : ∀ s ∈ layout.markerSpans, ∀ t ∈ layout.markerSpans, s.Laminar t

/-- Among the spans of the chosen markers, this one of marker `m` is the innermost around an
offset. -/
structure IsInnermost (layout : Layout) (chosen : Marker → Bool) (p : Nat) (m : Marker) (s : Span) :
    Prop where
  /-- The marker counts. -/
  counts : chosen m = true
  /-- The span is one of its spans. -/
  mem : s ∈ (layout.markers m).spans
  /-- It holds the offset. -/
  contains : s.contains p = true
  /-- Every span of a chosen marker around the offset is around it. -/
  covers : ∀ m', chosen m' = true → ∀ t ∈ (layout.markers m').spans, t.contains p = true →
    t.covers s = true

variable {layout : Layout} {chosen : Marker → Bool}

/-- A span is marked when one of the markers marks it. -/
theorem mem_markerSpans {s : Span} :
    s ∈ layout.markerSpans ↔ ∃ m, s ∈ (layout.markers m).spans := by
  simp only [markerSpans, List.mem_append]
  constructor
  · rintro ((h | h) | h) <;> exact ⟨_, h⟩
  · rintro ⟨m, h⟩
    cases m <;> simp [h]

/-- The layers of one marker, if it is chosen. -/
private theorem mem_layers {l : Layer} : l ∈ layout.layers chosen ↔
    ∃ m, chosen m = true ∧ l.span ∈ (layout.markers m).spans ∧ l.isData = (m != .comma) := by
  have hone (m : Marker) : l ∈ (if chosen m then
      (layout.markers m).spans.map fun s => (⟨s, m != .comma⟩ : Layer) else []) ↔
        chosen m = true ∧ l.span ∈ (layout.markers m).spans ∧ l.isData = (m != .comma) := by
    split
    · next hcounts =>
      rw [List.mem_map]
      constructor
      · rintro ⟨s, hs, rfl⟩
        exact ⟨hcounts, hs, rfl⟩
      · rintro ⟨-, hs, hdata⟩
        exact ⟨l.span, hs, by rw [← hdata]⟩
    · next hnot => simp [hnot]
  unfold layers
  simp only [List.mem_mergeSort, List.mem_append, hone]
  constructor
  · rintro ((h | h) | h) <;> exact ⟨_, h⟩
  · rintro ⟨m, h⟩
    cases m <;> simp [h]

/-- The layers come in order of their starts. -/
private theorem pairwise_layers (h : layout.MarkersNest) (chosen : Marker → Bool) :
    (layout.layers chosen).Pairwise fun l m => l.span.start < m.span.start := by
  let ofMarker (m : Marker) : List Layer :=
    if chosen m then (layout.markers m).spans.map fun s => ⟨s, m != .comma⟩ else []
  have hsorted : (layout.layers chosen).Pairwise fun l m => l.span.start ≤ m.span.start := by
    refine (List.pairwise_mergeSort ?_ ?_ _).imp ?_
    · intro a b c
      simp
      omega
    · intro a b
      simp
      omega
    · intro a b
      simp
      omega
  -- No two start at the same offset, in whatever order the markers are listed.
  have hdistinct : (layout.layers chosen).Pairwise fun l m => l.span.start ≠ m.span.start := by
    have hmarker (m : Marker) :
        ((ofMarker m).map (·.span)).Sublist (layout.markers m).spans := by
      simp only [ofMarker]
      split
      · rw [List.map_map]
        exact (List.map_id _).symm ▸ List.Sublist.refl _
      · exact List.nil_sublist _
    have hall : ((ofMarker .quote ++ ofMarker .template ++ ofMarker .comma).map (·.span)).Sublist
        layout.markerSpans := by
      rw [List.map_append, List.map_append]
      exact ((hmarker _).append (hmarker _)).append (hmarker _)
    refine (List.mergeSort_perm _ _).symm.pairwise ?_ (fun hne => Ne.symm hne)
    exact (List.pairwise_map (f := Layer.span)).1 (h.distinct.sublist hall)
  exact (hsorted.and hdistinct).imp fun hpair => Nat.lt_of_le_of_ne hpair.1 hpair.2

/-- The data among the chosen markers are the offsets whose innermost marker is no comma. -/
theorem MarkersNest.dataOf (h : layout.MarkersNest) (chosen : Marker → Bool) :
    SpanSet.Separated (layout.dataOf chosen).spans ∧
      ∀ p, (layout.dataOf chosen).contains p = true ↔
        ∃ m s, layout.IsInnermost chosen p m s ∧ (m = .quote ∨ m = .template) := by
  have hmarker : ∀ l ∈ layout.layers chosen, l.span ∈ layout.markerSpans := by
    intro l hl
    obtain ⟨m, -, hmem, -⟩ := mem_layers.1 hl
    exact mem_markerSpans.2 ⟨m, hmem⟩
  have hsorted := pairwise_layers h chosen
  have hlaminar : ∀ l ∈ layout.layers chosen, ∀ m ∈ layout.layers chosen,
      l.span.Laminar m.span :=
    fun l hl m hm => h.laminar _ (hmarker l hl) _ (hmarker m hm)
  have hswept : ((layout.layers chosen).foldl LayerState.enter {}).Swept
      ([] ++ layout.layers chosen) :=
    LayerState.Swept.empty.foldl (fun _ _ => Nat.zero_le _)
      (fun l hl => h.proper _ (hmarker l hl)) hsorted hlaminar
  obtain ⟨hproper, hfound⟩ := hswept.finish
  have hordered : ∀ s ∈ ((layout.layers chosen).foldl LayerState.enter {}).finish,
      s.start ≤ s.stop := fun s hs => Nat.le_of_lt (hproper s hs)
  refine ⟨SpanSet.separated_ofList hordered, fun p => ?_⟩
  unfold Layout.dataOf
  rw [SpanSet.contains_ofList hordered, hfound p, List.nil_append,
    Layer.decides_iff hsorted hlaminar]
  constructor
  · rintro ⟨l, hl, hdata, hcontains, hcovers⟩
    obtain ⟨m, hcounts, hmem, hkind⟩ := mem_layers.1 hl
    refine ⟨m, l.span, ⟨hcounts, hmem, hcontains, fun m' hm' t ht hp => ?_⟩, ?_⟩
    · exact hcovers ⟨t, m' != .comma⟩ (mem_layers.2 ⟨m', hm', ht, rfl⟩) hp
    · rw [hkind] at hdata
      cases m <;> simp at hdata ⊢
  · rintro ⟨m, s, hinner, hkind⟩
    refine ⟨⟨s, m != .comma⟩, mem_layers.2 ⟨m, hinner.counts, hinner.mem, rfl⟩, ?_,
      hinner.contains, fun l hl hp => ?_⟩
    · rcases hkind with rfl | rfl <;> rfl
    · obtain ⟨m', hm', hmem, -⟩ := mem_layers.1 hl
      exact hinner.covers m' hm' l.span hmem hp

/-- A mode leaves out an offset exactly if it drops comments and strings and one of these holds the
offset, or if the innermost span around the offset, among the markers that count under the mode, is
that of a quote or of a template. What is not evaluated in place is found in the same way, with all
markers and nothing else. Comments and strings may be any spans that do not end before they
start. -/
theorem excluded_iff (layout : Layout) (h : layout.MarkersNest)
    (hordered : ∀ s ∈ layout.comments.spans ++ layout.strings.spans, s.start ≤ s.stop) (p : Nat) :
    (∀ mode : Mode, (layout.excluded mode).contains p = true ↔
      (mode.dropsComments = true ∧
        ∃ s ∈ layout.comments.spans ++ layout.strings.spans, s.contains p = true) ∨
      ∃ m s, layout.IsInnermost mode.counts p m s ∧ (m = .quote ∨ m = .template)) ∧
    (layout.quotedContext.contains p = true ↔
      ∃ m s, layout.IsInnermost (fun _ => true) p m s ∧ (m = .quote ∨ m = .template)) := by
  refine ⟨fun mode => ?_, (h.dataOf _).2 p⟩
  obtain ⟨hseparated, hdata⟩ := h.dataOf mode.counts
  unfold Layout.excluded
  simp only
  split
  · next hdrops =>
    have hunion : ∀ s ∈ (layout.dataOf mode.counts).spans ++ layout.commentsAndStrings.spans,
        s.start ≤ s.stop := by
      intro s hs
      rcases List.mem_append.1 hs with hs | hs
      · exact Nat.le_of_lt (hseparated.proper s hs)
      · exact Nat.le_of_lt ((SpanSet.separated_ofList hordered).proper s hs)
    rw [SpanSet.union, SpanSet.contains_ofList hunion]
    simp only [List.mem_append, or_and_right, exists_or]
    rw [← SpanSet.contains_iff_of_separated hseparated, hdata p, commentsAndStrings, SpanSet.union,
      ← SpanSet.contains_iff_of_separated (SpanSet.separated_ofList hordered),
      SpanSet.contains_ofList hordered]
    simp only [List.mem_append, or_and_right, exists_or, hdrops, true_and]
    exact or_comm
  · next hkeeps => simp [hdata p, hkeeps]

/-- The law applies to a quote inside a comma inside a template, which makes data again. -/
theorem excluded_iff_alternating :
    (ofBytes (Utf8.bytes "`(a ,(f '(b))) ; c")).MarkersNest ∧
      (ofBytes (Utf8.bytes "`(a ,(f '(b))) ; c")).quotedContext.contains 10 = true := by
  have hquotes : ((ofBytes (Utf8.bytes "`(a ,(f '(b))) ; c")).markers .quote).spans =
      [⟨8, 12⟩] := by cbv
  have hspans : (ofBytes (Utf8.bytes "`(a ,(f '(b))) ; c")).markerSpans =
      [⟨8, 12⟩, ⟨0, 14⟩, ⟨4, 13⟩] := by cbv
  have hcomments : (ofBytes (Utf8.bytes "`(a ,(f '(b))) ; c")).comments.spans ++
      (ofBytes (Utf8.bytes "`(a ,(f '(b))) ; c")).strings.spans = [⟨15, 18⟩] := by cbv
  have hnest : (ofBytes (Utf8.bytes "`(a ,(f '(b))) ; c")).MarkersNest := by
    constructor <;> rw [hspans] <;> decide
  have hlaw := excluded_iff _ hnest (by rw [hcomments]; decide) 10
  have hcovers : ∀ t ∈ [(⟨8, 12⟩ : Span), ⟨0, 14⟩, ⟨4, 13⟩], t.contains 10 = true →
      t.covers ⟨8, 12⟩ = true := by decide
  refine ⟨hnest, hlaw.2.2 ⟨.quote, ⟨8, 12⟩, ⟨rfl, by simp [hquotes], rfl, ?_⟩, .inl rfl⟩⟩
  exact fun m _ t ht => hcovers t (hspans ▸ mem_markerSpans.2 ⟨m, ht⟩)

end Layout

end LexScope
