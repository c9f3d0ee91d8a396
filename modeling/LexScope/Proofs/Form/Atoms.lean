import LexScope.Proofs.Form.Children

/-!
# Atoms keep apart

An element belongs to the innermost form around it: reading takes each group in one step, so that
whatever is read of a form stands outside of the groups in it. Between atoms of different forms
stands a bracket, and in one form an atom ends at a delimiter. So no two atoms touch, be it in one
form or in two, and a group is read as part of one form only.
-/

namespace LexScope

/-- The element is an atom that is read directly in the form at a pair. -/
structure Source.HasAtom (src : Source) (p : Pair) (e : Element) : Prop where
  /-- The pair is one of the document. -/
  pair : p ∈ src.layout.pairs.pairs
  /-- The element is read in it. -/
  element : e ∈ src.elements p
  /-- It is an atom. -/
  atom : e.isAtom = true

/-- What follows an atom starts no other one. -/
theorem AtomAt.stop_lt_of_le {source : List UInt8} {s t : Span} (hs : AtomAt source s)
    (ht : AtomAt source t) (hle : s.stop ≤ t.start) : s.stop < t.start := by
  refine Nat.lt_of_le_of_ne hle fun heq => ?_
  obtain ⟨b, rest, hdrop, hb⟩ := ht.exists_drop
  have hends := ends_drop_atomLength (source.drop s.start)
  rw [List.drop_drop, ← hs.stop_eq, heq, hdrop] at hends
  rw [hends b rfl] at hb
  cases hb

namespace Source

variable {text : String} {p q : Pair} {d e : Element}

/-- An element of a form stands behind each pair in the form that opens before it. -/
theorem closing_lt_of_mem_elements (hapart : CommentsApart (Utf8.bytes text))
    (hp : p ∈ (ofText text).layout.pairs.pairs) (he : e ∈ (ofText text).elements p)
    (hq : q ∈ (ofText text).layout.pairs.pairs) (hopening : p.opening < q.opening)
    (hlt : q.opening < e.span.start) : q.closing < e.span.start := by
  have hsrc := nests_ofText text
  have hbracket : IsBracketAt (Utf8.bytes text) p.closing :=
    Layout.exists_bracket_of_mem_pairs hp (.inr rfl)
  have hsits := hsrc.layout.pairs p hp
  have hsound := sound_of_mem_elementsBetween hsrc.clean hsrc.layout
    (hsits.boundary_inside hsrc.clean) hsits.boundary_closing he
  have hread := mem_readings_of_mem_elementsOf he
  rw [show (ofText text).bytes = Utf8.bytes text from rfl,
    Nat.min_eq_left (Nat.le_of_lt hbracket.lt_length)] at hread
  exact (closing_lt_of_mem_readings hapart hp rfl (fun _ => isReady_inside hp)
    (Layout.isClear_succ (Layout.not_contains_of_hasBracketAt hp (.inl rfl)).2)
    (Nat.lt_succ_self _) (hsrc.element hp he).1
    (fun r hr => (hsound.group r (Element.kind_of_group hr)).2) hread).2 q hq hopening hlt

/-- An atom of a form is an atom of the source. -/
theorem HasAtom.atomAt (hapart : CommentsApart (Utf8.bytes text)) (h : (ofText text).HasAtom p e) :
    AtomAt (Utf8.bytes text) e.span :=
  atomAt_of_mem_elements hapart h.pair h.element h.atom

/-- An atom lies between the brackets of its form. -/
theorem HasAtom.inside (h : (ofText text).HasAtom p e) :
    p.opening < e.span.start ∧ e.span.stop ≤ p.closing := by
  have hinside := Span.covers_iff.1 ((nests_ofText text).element h.pair h.element).2
  exact ⟨hinside.1, hinside.2⟩

/-- An atom holds no bracket of the document. -/
theorem HasAtom.not_contains (hapart : CommentsApart (Utf8.bytes text))
    (h : (ofText text).HasAtom p e) (hq : q ∈ (ofText text).layout.pairs.pairs) {offset : Nat}
    (hoffset : q.HasBracketAt offset) : e.span.stop ≤ offset ∨ offset < e.span.start := by
  obtain ⟨l, hl, hkind, rfl⟩ := Layout.exists_bracket_of_mem_pairs hq hoffset
  by_contra hinside
  have hpart := (((h.atomAt hapart).atomTo hapart).isBreak_eq_false hl (by omega) (by omega)).1
  rw [hkind] at hpart
  cases hpart

/-- Of two atoms in one form, one stands strictly before the other. -/
theorem HasAtom.apart_of_pair (hapart : CommentsApart (Utf8.bytes text))
    (hd : (ofText text).HasAtom p d) (he : (ofText text).HasAtom p e) :
    d = e ∨ d.span.stop < e.span.start ∨ e.span.stop < d.span.start := by
  have hordered := (nests_ofText text).pairwise_items p
  rw [items, nodes_eq, List.pairwise_map] at hordered
  have hstring {f : Element} (h : (ofText text).HasAtom p f) : f.isString = false := by
    simp [Element.isString, eq_of_beq (h.atom : (f.kind == .atom) = true)]
  rcases eq_or_rel_of_pairwise hordered hd.element he.element with heq | h | h
  · exact .inl heq
  · exact .inr (.inl ((hd.atomAt hapart).stop_lt_of_le (he.atomAt hapart) (h (hstring he))))
  · exact .inr (.inr ((he.atomAt hapart).stop_lt_of_le (hd.atomAt hapart) (h (hstring hd))))

/-- An atom of a form stands apart from those of a form that opens in it. -/
theorem HasAtom.apart_of_nested (hapart : CommentsApart (Utf8.bytes text))
    (hd : (ofText text).HasAtom p d) (he : (ofText text).HasAtom q e)
    (hopening : p.opening < q.opening) :
    d.span.stop < e.span.start ∨ e.span.stop < d.span.start := by
  have hinside := he.inside
  rcases hd.not_contains hapart he.pair (.inl rfl) with h | h
  · exact .inl (by omega)
  · have := closing_lt_of_mem_elements hapart hd.pair hd.element he.pair hopening h
    exact .inr (by omega)

/-- Any two atoms leave a gap, in whatever forms they stand. -/
theorem HasAtom.apart (hapart : CommentsApart (Utf8.bytes text))
    (hd : (ofText text).HasAtom p d) (he : (ofText text).HasAtom q e) :
    (p = q ∧ d = e) ∨ d.span.stop < e.span.start ∨ e.span.stop < d.span.start := by
  have hdinside := hd.inside
  have heinside := he.inside
  rcases (nests_ofText text).nests.laminar.laminar p hd.pair q he.pair with
    rfl | hinner | houter | hbefore | hbehind
  · exact (hd.apart_of_pair hapart he).imp_left fun h => ⟨rfl, h⟩
  · exact .inr (hd.apart_of_nested hapart he hinner.1)
  · exact .inr (he.apart_of_nested hapart hd houter.1).symm
  · exact .inr (.inl (by omega))
  · exact .inr (.inr (by omega))

/-- A group is read in one form only. -/
theorem eq_of_mem_elements_group (hapart : CommentsApart (Utf8.bytes text))
    (hp : p ∈ (ofText text).layout.pairs.pairs) (hq : q ∈ (ofText text).layout.pairs.pairs)
    (hd : d ∈ (ofText text).elements p) (he : e ∈ (ofText text).elements q) {r : Pair}
    (hdr : d.group = some r) (her : e.group = some r) : p = q := by
  have hsrc := nests_ofText text
  have hinside {p : Pair} {d : Element} (hp : p ∈ (ofText text).layout.pairs.pairs)
      (hd : d ∈ (ofText text).elements p) (hdr : d.group = some r) :
      d.span.start = r.opening ∧ p.opening < r.opening ∧ r.opening < p.closing := by
    have hsits := hsrc.layout.pairs p hp
    have hsound := sound_of_mem_elementsBetween hsrc.clean hsrc.layout
      (hsits.boundary_inside hsrc.clean) hsits.boundary_closing hd
    obtain ⟨hr, hspan⟩ := hsound.group r (Element.kind_of_group hdr)
    have hcovers := Span.covers_iff.1 (hsrc.element hp hd).2
    have hlt := hsrc.nests.laminar.lt r hr
    have hstart : d.span.start = r.opening := congrArg Span.start hspan
    simp only [hspan, Pair.span, Pair.inner] at hcovers
    exact ⟨hstart, by omega, by omega⟩
  obtain ⟨hdstart, hpr, hrp⟩ := hinside hp hd hdr
  obtain ⟨hestart, hqr, hrq⟩ := hinside hq he her
  have hdpassed := closing_lt_of_mem_elements hapart hp hd hq
  have hepassed := closing_lt_of_mem_elements hapart hq he hp
  rcases hsrc.nests.laminar.laminar p hp q hq with heq | h | h | h | h
  · exact heq
  all_goals omega

end Source

end LexScope
