import LexScope.Form.Symbol
import LexScope.Proofs.Form.Layout

/-!
# Elements, nodes and words stay inside the text

Reading goes on where the last element, comment or marker has ended, so each step starts at a
boundary if the one before did. The same holds of the words of a document, which are found without
looking at elements.
-/

namespace LexScope

open Byte Utf8

/-! ## Stretches of the text -/

section Window

variable {source bytes : List UInt8} {pos stop : Nat}

/-- A byte of a window is a byte of the source. -/
theorem getElem?_of_window (hwindow : window source pos stop = bytes) {i : Nat} {b : UInt8}
    (hget : bytes[i]? = some b) : source[pos + i]? = some b := by
  rw [← hwindow, window, List.getElem?_drop] at hget
  by_cases hlt : pos + i < stop
  · rwa [List.getElem?_take_of_lt hlt] at hget
  · rw [List.getElem?_take_eq_none (Nat.le_of_not_lt hlt)] at hget
    cases hget

/-- A window inside the source is as long as its bounds are apart. -/
theorem length_window (hstop : stop ≤ source.length) :
    (window source pos stop).length = stop - pos := by
  simp only [window, List.length_drop, List.length_take]
  omega

/-- Moving the start of a window drops its first bytes. -/
theorem window_add (hwindow : window source pos stop = bytes) (n : Nat) :
    window source (pos + n) stop = bytes.drop n := by
  rw [← hwindow, window, window, List.drop_drop]

/-- A window with a byte ends after its start. -/
theorem lt_of_window_cons {b : UInt8} {rest : List UInt8}
    (hwindow : window source pos stop = b :: rest) : pos < stop := by
  have hlen := congrArg List.length hwindow
  simp only [window, List.length_drop, List.length_take, List.length_cons] at hlen
  omega

/-- The text can be cut where something ends with an ASCII character. -/
theorem boundary_after_of_window (hclean : Clean source)
    (hwindow : window source pos stop = bytes) {i : Nat} {b : UInt8} (hget : bytes[i]? = some b)
    (hb : IsAscii b) : Boundary source (pos + (i + 1)) :=
  hclean.succ (pos + i) b (getElem?_of_window hwindow hget) hb

/-- An atom of a stretch ends at a boundary if the stretch does. -/
theorem boundary_atomLength_of_window (hwindow : window source pos stop = bytes)
    (hstop : Boundary source stop) (hpos : pos ≤ stop) :
    Boundary source (pos + atomLength bytes) := by
  rcases atomLength_spec bytes with hlen | ⟨b, hget, hdel⟩
  · rw [hlen, ← hwindow, length_window hstop.le_length, Nat.add_sub_cancel' hpos]
    exact hstop
  · exact boundary_of_isAscii (getElem?_of_window hwindow hget) (isAscii_of_isDelimiter hdel)

end Window

private theorem isAscii_of_isMarker {b : UInt8} (hb : isMarker b = true) : IsAscii b := by
  simp only [isMarker, Bool.or_eq_true, beq_iff_eq] at hb
  rcases hb with ((((rfl | rfl) | rfl) | rfl) | rfl) | rfl <;> decide

/-- What is passed before an element consists of the bytes of markers. -/
theorem leadingMarkers_spec (bytes : List UInt8) :
    ∀ i < (leadingMarkers bytes).1, ∃ b, bytes[i]? = some b ∧ isMarker b = true := by
  have hquote : ∀ b : UInt8, (b == quote || b == backquote) = true → isMarker b = true := by
    intro b hb
    simp [isMarker, hb]
  have hcomma : ∀ b : UInt8, (b == comma) = true → isMarker b = true := by
    intro b hb
    simp [isMarker, hb]
  fun_induction leadingMarkers bytes with
  | case1 => simp
  | case2 b hb =>
    intro i hi
    simp only [Nat.lt_one_iff] at hi
    exact ⟨b, by simp [hi], hquote b hb⟩
  | case3 b _ hb =>
    intro i hi
    simp only [Nat.lt_one_iff] at hi
    exact ⟨b, by simp [hi], hcomma b hb⟩
  | case4 => simp
  | case5 b c rest hb ih =>
    intro i hi
    cases i with
    | zero => exact ⟨b, rfl, hquote b hb⟩
    | succ i => exact ih i (by simp only at hi; omega)
  | case6 b c rest _ hb hc inner ih =>
    intro i hi
    match i with
    | 0 => exact ⟨b, rfl, hcomma b hb⟩
    | 1 =>
      simp only [Bool.or_eq_true, beq_iff_eq] at hc
      exact ⟨c, rfl, by rcases hc with rfl | rfl <;> decide⟩
    | i + 2 => exact ih i (by simp only [inner] at hi; omega)
  | case7 b c rest _ hb hc inner ih =>
    intro i hi
    cases i with
    | zero => exact ⟨b, rfl, hcomma b hb⟩
    | succ i => exact ih i (by simp only [inner] at hi; omega)
  | case8 b c rest _ _ hsharp inner ih =>
    simp only [Bool.and_eq_true, beq_iff_eq] at hsharp
    intro i hi
    match i with
    | 0 => exact ⟨b, rfl, by rw [hsharp.1]; decide⟩
    | 1 => exact ⟨c, rfl, by rw [hsharp.2]; decide⟩
    | i + 2 => exact ih i (by simp only [inner] at hi; omega)
  | case9 => simp

/-! ## Elements -/

/-- An element with a group is read as that group. -/
theorem Element.kind_of_group {e : Element} {p : Pair} (h : e.group = some p) :
    e.kind = .group p := by
  unfold Element.group at h
  split at h <;> simp_all

/-- The element lies in the text, with and without its markers, and a group has a pair of its
own. -/
structure Element.Sound (source : List UInt8) (layout : Layout) (e : Element) : Prop where
  /-- The datum fits. -/
  span : Fits source e.span
  /-- The datum with its markers fits. -/
  outer : Fits source ⟨e.start, e.span.stop⟩
  /-- A group spans a pair of the layout. -/
  group : ∀ p, e.kind = .group p → p ∈ layout.pairs.pairs ∧ e.span = p.span

/-- The element lies between two offsets. -/
structure Element.SoundIn (source : List UInt8) (layout : Layout) (pos stop : Nat) (e : Element) :
    Prop extends Element.Sound source layout e where
  /-- The element starts after the first one. -/
  pos_le : pos ≤ e.start
  /-- The element ends before the second one. -/
  le_stop : e.span.stop ≤ stop

/-- What a step of reading that starts at a boundary may give: a sound element, and a boundary to go
on from. -/
structure Reading.StepSound (source : List UInt8) (layout : Layout) (stop pos : Nat)
    (read : Option Reading) (next : Nat) : Prop where
  /-- The element is sound. -/
  element : ∀ e, read = some (.element e) → e.SoundIn source layout pos stop
  /-- Reading goes on at a boundary. -/
  next : Boundary source next

section Step

variable {source : List UInt8} {layout : Layout} {stop pos : Nat}

private theorem Reading.StepSound.skip {next : Nat} (h : Boundary source next) :
    Reading.StepSound source layout stop pos none next :=
  ⟨fun e he => (by cases he), h⟩

private theorem Reading.StepSound.group (hclean : Clean source) (hlayout : layout.Sound source)
    (hpos : Boundary source pos) {opened more : Nat} {quoted : Bool} {read : Option Reading}
    (hle : pos ≤ opened)
    (h : Reading.group layout stop pos opened quoted = some (read, more)) :
    Reading.StepSound source layout stop pos read (pos + 1 + more) := by
  unfold Reading.group at h
  split at h
  · cases h
  · next closed hclosed =>
    split at h
    · next hbefore =>
      simp only [Option.some.injEq, Prod.mk.injEq] at h
      obtain ⟨rfl, rfl⟩ := h
      have hmem := PairIndex.mem_of_closingOf hclosed
      have hsits := hlayout.pairs _ hmem
      have hlt : opened < closed := hsits.lt
      have hafter := hsits.boundary_after hclean
      refine ⟨?_, ?_⟩
      · intro e he
        simp only [Option.some.injEq, Reading.element.injEq] at he
        subst he
        refine ⟨⟨hsits.fits_span hclean, .of_le ?_ hpos hafter, ?_⟩, Nat.le_refl _, hbefore⟩
        · simp only [Pair.span]
          omega
        · intro p hp
          simp only [ElementKind.group.injEq] at hp
          subst hp
          exact ⟨hmem, rfl⟩
      · have hnext : pos + 1 + (closed - pos) = closed + 1 := by omega
        rw [hnext]
        exact hafter
    · cases h

private theorem fits_stringSpan (hlayout : layout.Sound source) (hstop : Boundary source stop)
    {datum : Nat} (hdatum : Boundary source datum) (hlt : datum < stop) :
    Fits source (stringSpan layout stop datum) ∧ datum < (stringSpan layout stop datum).stop ∧
      (stringSpan layout stop datum).stop ≤ stop := by
  unfold stringSpan
  split
  · next s hs =>
    have hbounds := SpanSet.bounds_of_spanAt hs
    have hfits := hlayout.strings s (SpanSet.mem_of_spanAt hs)
    refine ⟨.of_le (by omega) hfits.start ?_, by simp only; omega, Nat.min_le_right _ _⟩
    rcases Nat.le_total s.stop stop with hle | hle
    · simpa only [Nat.min_eq_left hle] using hfits.stop
    · simpa only [Nat.min_eq_right hle] using hstop
  · exact ⟨.of_le (Nat.le_of_lt hlt) hdatum hstop, hlt, Nat.le_refl _⟩

/-- Reading a datum, `width` bytes after the markers before it start. -/
theorem Reading.StepSound.datum (hclean : Clean source) (hlayout : layout.Sound source)
    (hstop : Boundary source stop) (hpos : Boundary source pos) {width more : Nat} {quoted : Bool}
    {d : UInt8} {rest : List UInt8} {read : Option Reading}
    (hwindow : window source (pos + width) stop = d :: rest)
    (hdatum : Boundary source (pos + width))
    (h : Reading.datum layout stop pos width quoted d rest = some (read, more)) :
    Reading.StepSound source layout stop pos read (pos + 1 + more) := by
  have hlt := lt_of_window_cons hwindow
  have hafter (i : Nat) (b : UInt8) (hget : (d :: rest)[i]? = some b) (hb : IsAscii b) :
      Boundary source (pos + width + (i + 1)) :=
    boundary_after_of_window hclean hwindow hget hb
  unfold Reading.datum at h
  split at h
  · next hfeature =>
    simp only [Option.some.injEq, Prod.mk.injEq] at h
    obtain ⟨rfl, rfl⟩ := h
    refine ⟨fun e he => (by cases he), ?_⟩
    have hhead : ∃ b, rest.head? = some b ∧ IsAscii b := by
      simp only [Bool.and_eq_true, Bool.or_eq_true, beq_iff_eq] at hfeature
      rcases hfeature.2 with h | h
      · exact ⟨_, h, by decide⟩
      · exact ⟨_, h, by decide⟩
    obtain ⟨b, hb, hascii⟩ := hhead
    have hget : (d :: rest)[1]? = some b := by simpa [List.head?_eq_getElem?] using hb
    have hnext : pos + 1 + (width + 1) = pos + width + (1 + 1) := by omega
    rw [hnext]
    exact hafter 1 b hget hascii
  split at h
  · exact .group hclean hlayout hpos (by omega) h
  split at h
  · exact .group hclean hlayout hpos (by omega) h
  split at h
  · next hclosing =>
    simp only [Option.some.injEq, Prod.mk.injEq] at h
    obtain ⟨rfl, rfl⟩ := h
    apply Reading.StepSound.skip
    have hnext : pos + 1 + width = pos + width + (0 + 1) := by omega
    rw [hnext]
    exact hafter 0 d rfl (by rw [eq_of_beq hclosing]; decide)
  split at h
  · simp only [Option.some.injEq, Prod.mk.injEq] at h
    obtain ⟨rfl, rfl⟩ := h
    obtain ⟨hfits, hbeyond, hbefore⟩ := fits_stringSpan hlayout hstop hdatum hlt
    refine ⟨?_, ?_⟩
    · intro e he
      simp only [Option.some.injEq, Reading.element.injEq] at he
      subst he
      exact ⟨⟨hfits, .of_le (by simp only; omega) hpos hfits.stop, fun p hp => by cases hp⟩,
        Nat.le_refl _, hbefore⟩
    · have hnext : pos + 1 + ((stringSpan layout stop (pos + width)).stop - (pos + 1)) =
          (stringSpan layout stop (pos + width)).stop := by omega
      rw [hnext]
      exact hfits.stop
  have hend := boundary_atomLength_of_window hwindow hstop (Nat.le_of_lt hlt)
  split at h
  · next hnone =>
    simp only [Option.some.injEq, Prod.mk.injEq] at h
    obtain ⟨rfl, rfl⟩ := h
    apply Reading.StepSound.skip
    have hnext : pos + 1 + width = pos + width + (0 + 1) := by omega
    rw [hnext]
    -- Only a delimiter is no atom.
    rcases atomLength_spec (d :: rest) with hlen | ⟨b, hget, hdel⟩
    · rw [hnone] at hlen
      cases hlen
    · rw [hnone] at hget
      exact hafter 0 b hget (isAscii_of_isDelimiter hdel)
  · next n hlen =>
    simp only [Option.some.injEq, Prod.mk.injEq] at h
    obtain ⟨rfl, rfl⟩ := h
    rw [hlen] at hend
    refine ⟨?_, ?_⟩
    · intro e he
      simp only [Option.some.injEq, Reading.element.injEq] at he
      subst he
      refine ⟨⟨.of_le (by omega) hdatum hend, .of_le (by simp only; omega) hpos hend,
        fun p hp => by cases hp⟩, Nat.le_refl _, ?_⟩
      have hle := atomLength_le (d :: rest)
      rw [hlen, ← hwindow, length_window hstop.le_length] at hle
      simp only
      omega
    · have hnext : pos + 1 + (width + n) = pos + width + (n + 1) := by omega
      rw [hnext]
      exact hend

/-- A step that starts at a boundary reads a sound element and ends at a boundary. -/
theorem Reading.sound_step (hclean : Clean source) (hlayout : layout.Sound source)
    (hstop : Boundary source stop) (hpos : Boundary source pos) {more : Nat} {b : UInt8}
    {rest : List UInt8} {read : Option Reading} (hwindow : window source pos stop = b :: rest)
    (h : Reading.step layout stop pos b rest = some (read, more)) :
    Reading.StepSound source layout stop pos read (pos + 1 + more) := by
  unfold Reading.step at h
  split at h
  · next hblank =>
    simp only [Option.some.injEq, Prod.mk.injEq] at h
    obtain ⟨rfl, rfl⟩ := h
    apply Reading.StepSound.skip
    exact boundary_after_of_window hclean hwindow (i := 0) rfl (isAscii_of_isWhitespace hblank)
  split at h
  · next c hcomment =>
    simp only [Option.some.injEq, Prod.mk.injEq] at h
    obtain ⟨rfl, rfl⟩ := h
    apply Reading.StepSound.skip
    have hbounds := SpanSet.bounds_of_spanAt hcomment
    have hnext : pos + 1 + (c.stop - (pos + 1)) = c.stop := by omega
    rw [hnext]
    exact (hlayout.comments c (SpanSet.mem_of_spanAt hcomment)).stop
  split at h
  · cases h
  · next d rest' hdrop =>
    have hwindow' : window source (pos + (leadingMarkers (b :: rest)).1) stop = d :: rest' := by
      rw [window_add hwindow, hdrop]
    have hdatum : Boundary source (pos + (leadingMarkers (b :: rest)).1) := by
      cases hwidth : (leadingMarkers (b :: rest)).1 with
      | zero => exact hpos
      | succ width =>
        obtain ⟨m, hm, hmarker⟩ := leadingMarkers_spec (b :: rest) width (by omega)
        exact boundary_after_of_window hclean hwindow hm (isAscii_of_isMarker hmarker)
    exact .datum hclean hlayout hstop hpos hwindow' hdatum h

/-- Reading that starts at a boundary finds sound elements only. -/
theorem sound_of_mem_readings (hclean : Clean source) (hlayout : layout.Sound source)
    (hstop : Boundary source stop) {bytes : List UInt8} (hwindow : window source pos stop = bytes)
    (hpos : Boundary source pos) {e : Element}
    (h : .element e ∈ readings layout stop pos bytes) : e.SoundIn source layout pos stop := by
  fun_induction readings layout stop pos bytes with
  | case1 => cases h
  | case2 => cases h
  | case3 pos b rest read more hstep ih =>
    have hsound := Reading.sound_step hclean hlayout hstop hpos hwindow hstep
    rcases List.mem_append.1 h with hread | hrest
    · exact hsound.element e (Option.mem_toList.1 hread)
    · have hnext : window source (pos + 1 + more) stop = rest.drop more := by
        rw [Nat.add_assoc, window_add hwindow, Nat.add_comm 1 more, List.drop_succ_cons]
      have hin := ih hnext hsound.next hrest
      exact { hin with pos_le := by have := hin.pos_le; omega }

/-- The elements between two boundaries are sound. -/
theorem sound_of_mem_elementsBetween (hclean : Clean source) (hlayout : layout.Sound source)
    (hpos : Boundary source pos) (hstop : Boundary source stop) {e : Element}
    (h : e ∈ elementsBetween source layout pos stop) : e.SoundIn source layout pos stop := by
  unfold elementsBetween at h
  rw [Nat.min_eq_left hstop.le_length] at h
  exact sound_of_mem_readings hclean hlayout hstop rfl hpos (mem_readings_of_mem_elementsOf h)

end Step

/-! ## Nodes -/

/-- A document whose layout is sound. -/
structure Source.Sound (src : Source) : Prop where
  /-- Its bytes are those of characters. -/
  clean : Clean src.bytes
  /-- Its layout is sound. -/
  layout : src.layout.Sound src.bytes

/-- Every text is read as a sound source. -/
theorem Source.sound_ofText (text : String) : (Source.ofText text).Sound :=
  ⟨clean_bytes text, Layout.sound_ofBytes (clean_bytes text)⟩

/-- The element of the node is sound, what is inside it stands between its brackets, and so on
inwards. -/
inductive Node.Sound (src : Source) : Node → Prop
  | mk {e : Element} {nodes : List Node} (element : e.Sound src.bytes src.layout)
      (inside : ∀ p, e.group = some p → ∀ n ∈ nodes,
        n.element.SoundIn src.bytes src.layout (p.opening + 1) p.closing)
      (items : ∀ n ∈ nodes, Node.Sound src n) : Node.Sound src (.mk e nodes)

namespace Node.Sound

variable {src : Source} {n : Node}

/-- The element of a sound node is sound. -/
theorem element (h : n.Sound src) : n.element.Sound src.bytes src.layout := by
  cases h
  assumption

/-- The items of a sound group are sound inside its brackets. -/
theorem inside (h : n.Sound src) {p : Pair} (hp : n.element.group = some p) :
    ∀ m ∈ n.items, m.element.SoundIn src.bytes src.layout (p.opening + 1) p.closing := by
  cases h with
  | mk _ hinside _ => exact hinside p hp

/-- The items of a sound node are sound. -/
theorem items (h : n.Sound src) : ∀ m ∈ n.items, m.Sound src := by
  cases h with
  | mk _ _ hitems => exact hitems

end Node.Sound

namespace Source.Sound

variable {src : Source}

/-- The nodes between two boundaries are sound through and through. -/
theorem nodes (h : src.Sound) {pos stop : Nat} (hpos : Boundary src.bytes pos)
    (hstop : Boundary src.bytes stop) : ∀ n ∈ src.nodes pos stop, n.Sound src := by
  induction hsize : stop - pos using Nat.strongRecOn generalizing pos stop with
  | ind size ih =>
    intro n hn
    rw [Source.nodes_eq] at hn
    obtain ⟨e, he, rfl⟩ := List.mem_map.1 hn
    have hsound := sound_of_mem_elementsBetween h.clean h.layout hpos hstop he
    have hinside (p : Pair) (hgroup : e.group = some p) :
        src.inside e = src.nodes (p.opening + 1) p.closing ∧
          Boundary src.bytes (p.opening + 1) ∧ Boundary src.bytes p.closing := by
      have hsits := h.layout.pairs p (hsound.group p (Element.kind_of_group hgroup)).1
      exact ⟨by simp [Source.inside, hgroup], hsits.boundary_inside h.clean,
        hsits.boundary_closing⟩
    refine .mk hsound.toSound ?_ ?_
    · intro p hgroup m hm
      obtain ⟨hitems, hopening, hclosing⟩ := hinside p hgroup
      rw [hitems, Source.nodes_eq] at hm
      obtain ⟨f, hf, rfl⟩ := List.mem_map.1 hm
      exact sound_of_mem_elementsBetween h.clean h.layout hopening hclosing hf
    · cases hgroup : e.group with
      | none => simp [Source.inside, hgroup]
      | some p =>
        obtain ⟨hitems, hopening, hclosing⟩ := hinside p hgroup
        rw [hitems]
        exact ih _ (by rw [← hsize]; exact nested_lt he hgroup) hopening hclosing rfl

/-- The items of a form are sound. -/
theorem items (h : src.Sound) {p : Pair} (hp : p ∈ src.layout.pairs.pairs) :
    ∀ n ∈ src.items p, n.Sound src :=
  h.nodes ((h.layout.pairs p hp).boundary_inside h.clean) (h.layout.pairs p hp).boundary_closing

end Source.Sound

/-! ## Words -/

private theorem isAscii_of_toLower {b : UInt8} (h : IsAscii (toLower b)) : IsAscii b := by
  unfold toLower at h
  split at h
  · next hcapital => exact UInt8.lt_of_le_of_lt hcapital.2 (by decide)
  · exact h

section Words

variable {source : List UInt8} {layout : Layout} {pos : Nat} {rest : List UInt8}

/-- The text can be cut after a number sign and the digits that follow it. -/
private theorem boundary_digits (hclean : Clean source) (hdrop : source.drop pos = hash :: rest) :
    Boundary source (pos + 1 + (rest.takeWhile isDigit).length) := by
  have hget : ∃ b, (hash :: rest)[(rest.takeWhile isDigit).length]? = some b ∧ IsAscii b := by
    have hsplit : hash :: rest = (hash :: rest.takeWhile isDigit) ++ rest.dropWhile isDigit := by
      rw [List.cons_append, List.takeWhile_append_dropWhile]
    have hlt : (rest.takeWhile isDigit).length < (hash :: rest.takeWhile isDigit).length := by
      simp
    refine ⟨_, by rw [hsplit, List.getElem?_append_left hlt, List.getElem?_eq_getElem hlt], ?_⟩
    rcases List.mem_cons.1 (List.getElem_mem hlt) with heq | hmem
    · rw [heq]
      decide
    · exact isAscii_of_isDigit (List.all_eq_true.1 List.all_takeWhile _ hmem)
  obtain ⟨b, hb, hascii⟩ := hget
  have hnext := boundary_after_of_drop hclean hdrop hb hascii
  rwa [Nat.add_assoc, Nat.add_comm 1]

/-- What a number sign and its reading take ends at a boundary. -/
theorem boundary_dispatchLength (hclean : Clean source) (hlayout : layout.Sound source)
    (hdrop : source.drop pos = hash :: rest) :
    Boundary source (pos + 1 + dispatchLength layout.pairs pos rest) := by
  have hdigits := boundary_digits hclean hdrop
  have hletter := drop_takeWhile isDigit (drop_succ_of_drop_cons hdrop)
  unfold dispatchLength
  simp only
  generalize (rest.takeWhile isDigit).length = digits at *
  split
  · exact hdigits
  · next d tail hd =>
    rw [hd] at hletter
    have htail : source.drop (pos + 1 + digits + 1) = tail := drop_succ_of_drop_cons hletter
    have hlt := pos_le_of_drop_cons hletter
    have hafter (c : UInt8) (hc : (toLower d == c) = true) (hascii : IsAscii c) :
        Boundary source (pos + 1 + (digits + 1)) :=
      boundary_after_of_drop hclean hletter (i := 0) rfl
        (isAscii_of_toLower (by rwa [eq_of_beq hc]))
    have hatom : Boundary source (pos + 1 + (digits + 1 + atomLength tail)) := by
      simpa [Nat.add_assoc] using boundary_atomLength htail hlt
    split
    · next hc => exact hafter _ hc (by decide)
    split
    · next hc =>
      rcases Nat.le_total (atomLength (hash :: rest)) (digits + 2) with hle | hle
      · rw [Nat.max_eq_right hle]
        exact hafter _ hc (by decide)
      · rw [Nat.max_eq_left hle]
        have hend := boundary_atomLength hdrop (Nat.le_of_lt (pos_le_of_drop_cons hdrop))
        have hnext : pos + 1 + (atomLength (hash :: rest) - 1) =
            pos + atomLength (hash :: rest) := by
          omega
        rwa [hnext]
    split
    · split
      · next closed hclosed =>
        have hsits := hlayout.pairs _ (PairIndex.mem_of_closingOf hclosed)
        have hlt := hsits.lt
        simp only at hlt
        have hnext : pos + 1 + (closed - pos) = closed + 1 := by omega
        rw [hnext]
        exact hsits.boundary_after hclean
      · exact hatom
    split
    · exact hatom
    split
    · next hc =>
      have hmem : toLower d ∈ structureLetters := by simpa using hc
      have hall : (structureLetters.all fun c => decide (IsAscii c)) = true := by decide
      have hascii : ∀ c ∈ structureLetters, IsAscii c := fun c hc =>
        of_decide_eq_true (List.all_eq_true.1 hall c hc)
      exact hafter _ (beq_self_eq_true _) (hascii _ hmem)
    · exact hdigits

/-- An atom that starts with no delimiter is not empty. -/
theorem one_le_atomLength {b : UInt8} (hb : isDelimiter b = false) :
    1 ≤ atomLength (b :: rest) := by
  rcases atomLength_spec (b :: rest) with hlen | ⟨c, hget, hc⟩
  · simp [hlen]
  · cases hzero : atomLength (b :: rest) with
    | zero =>
      rw [hzero] at hget
      simp only [List.getElem?_cons_zero, Option.some.injEq] at hget
      rw [hget, hc] at hb
      cases hb
    | succ n => omega

/-- Words are found at spans that fit, with the bytes of their span. -/
theorem cut?_of_mem_wordsFrom (hclean : Clean source) (hlayout : layout.Sound source)
    {bytes : List UInt8} (hdrop : source.drop pos = bytes) (hpos : Boundary source pos)
    {word : Span × List UInt8}
    (h : word ∈ wordsFrom layout.pairs layout.commentsAndStrings pos bytes) :
    cut? source word.1 = some word.2 := by
  fun_induction wordsFrom layout.pairs layout.commentsAndStrings pos bytes with
  | case1 => cases h
  | case2 pos b rest s hskip ih =>
    have hbounds := SpanSet.bounds_of_spanAt hskip
    have hfits := hlayout.commentsAndStrings s (SpanSet.mem_of_spanAt hskip)
    have hnext : max s.stop (pos + 1) = s.stop := by omega
    rw [hnext] at ih h
    exact ih (drop_of_drop_cons hdrop hbounds.2) hfits.stop h
  | case3 pos b rest hskip hb ih =>
    have hnext : Boundary source (pos + 1) :=
      boundary_after_of_drop hclean hdrop (i := 0) rfl (isAscii_of_isDelimiter hb)
    exact ih (drop_succ_of_drop_cons hdrop) hnext h
  | case4 pos b rest hskip hb hhash more ih =>
    have hb := eq_of_beq hhash
    subst hb
    refine ih ?_ (boundary_dispatchLength hclean hlayout hdrop) h
    rw [drop_of_drop_cons hdrop (by omega), Nat.add_sub_cancel_left]
  | case5 pos b rest hskip hb hhash length ih =>
    have hone : 1 ≤ length := one_le_atomLength (by simpa using hb)
    have hend : Boundary source (pos + length) :=
      boundary_atomLength hdrop (Nat.le_of_lt (pos_le_of_drop_cons hdrop))
    rcases List.mem_cons.1 h with rfl | hrest
    · have hfits : Fits source ⟨pos, pos + length⟩ := .of_le (by omega) hpos hend
      rw [cut?, if_pos ⟨hfits.ordered, hfits.stop_le_length, hfits.start, hfits.stop⟩, cut, hdrop]
      simp [Span.length]
    · have hnext : max (pos + length) (pos + 1) = pos + length := by omega
      rw [hnext] at ih hrest
      refine ih ?_ hend hrest
      rw [drop_of_drop_cons hdrop (by omega), Nat.add_sub_add_left]

end Words

/-- Every word of a sound document can be cut out of it. -/
theorem Source.Sound.words {src : Source} (h : src.Sound) :
    ∀ word ∈ src.words, cut? src.bytes word.1 = some word.2 :=
  fun _ hword => cut?_of_mem_wordsFrom h.clean h.layout rfl h.clean.zero hword

/-- The symbols of a sound document fit. -/
theorem Source.Sound.symbols {src : Source} (h : src.Sound) :
    ∀ s ∈ src.symbols, Fits src.bytes s.span := by
  intro s hs
  obtain ⟨word, hword, hsymbol⟩ := List.mem_filterMap.1 hs
  have hspan : s.span = word.1 := by
    unfold Symbol.ofWord at hsymbol
    simp only at hsymbol
    split at hsymbol
    · rw [← Option.some.inj hsymbol]
    · cases hsymbol
  rw [hspan, ← cut?_isSome_iff, h.words word hword]
  rfl

end LexScope
