import LexScope.Proofs.Form.Exclusion
import LexScope.Proofs.Form.Extension
import LexScope.Proofs.Form.Seams

/-!
# How far markers reach

A marker looks past further markers for what it stands before. If that is a bracket, it waits until
as many brackets are open as when it was read, and ends there. The bracket that it saw is the next
one to be opened, as nothing but markers lies in between, so it is that bracket whose partner ends
the marker, whatever else stays open or closes nothing.

Where no block comment can start, a run of markers and the atom after it end at seams, and marker
spans nest like brackets.
-/

namespace LexScope

open Byte

/-- The byte of a marker; a comma may be followed by a second one. -/
def Marker.byte : Marker → UInt8
  | .quote => Byte.quote
  | .template => backquote
  | .comma => Byte.comma

/-! ## Runs of markers -/

section Run

variable {bytes source : List UInt8} {pos : Nat}

private theorem exists_isMarker_of_lt_markerRun {i : Nat} (h : i < markerRun bytes) :
    ∃ b, bytes[i]? = some b ∧ isMarker b = true := by
  induction bytes generalizing i with
  | nil => cases h
  | cons b rest ih =>
    rw [markerRun] at h
    split at h
    · next hmarker =>
      simp only [Bool.and_eq_true] at hmarker
      cases i with
      | zero => exact ⟨b, rfl, hmarker.1⟩
      | succ i => simpa using ih (i := i) (by omega)
    · cases h

/-- A part of a run goes on to the same end. -/
theorem markerRun_drop {k : Nat} (h : k ≤ markerRun bytes) :
    markerRun (bytes.drop k) = markerRun bytes - k := by
  induction k generalizing bytes with
  | zero => rfl
  | succ k ih =>
    cases bytes with
    | nil => cases h
    | cons b rest =>
      rw [markerRun] at h ⊢
      split at h
      · next hmarker =>
        rw [List.drop_succ_cons, ih (by omega), if_pos hmarker]
        omega
      · cases h

private theorem markerRun_cons {b : UInt8} {rest : List UInt8} (hmarker : isMarker b = true)
    (hliteral : b ≠ hash ∨ rest.head? ≠ some backslash) :
    markerRun (b :: rest) = 1 + markerRun rest := by
  rw [markerRun, if_pos]
  simpa [hmarker] using hliteral

/-- The first lexeme of a run lies in the run, unless it starts a block comment. -/
theorem read_le_markerRun {b : UInt8} {rest : List UInt8} (hrun : 0 < markerRun (b :: rest))
    (hcomment : b = hash → rest.head? ≠ some bar) :
    (LexemeKind.read b rest).2 ≤ rest.length ∧
      1 + (LexemeKind.read b rest).2 ≤ markerRun (b :: rest) := by
  have hmarker : isMarker b = true := by
    obtain ⟨c, hc, hmarker⟩ := exists_isMarker_of_lt_markerRun hrun
    rwa [← Option.some.inj hc] at hmarker
  have hone (read : LexemeKind × Nat) (h : read.2 = 0) :
      read.2 ≤ rest.length ∧ 1 + read.2 ≤ markerRun (b :: rest) := by omega
  -- A marker of two bytes: the second one is in the run like the first.
  have htwo (read : LexemeKind × Nat) {c : UInt8} {tail : List UInt8} (hrest : rest = c :: tail)
      (hc : isMarker c = true) (hhash : c ≠ hash) (hbackslash : c ≠ backslash) (h : read.2 = 1) :
      read.2 ≤ rest.length ∧ 1 + read.2 ≤ markerRun (b :: rest) := by
    rw [markerRun_cons hmarker (.inr (by simp [hrest, hbackslash])), hrest,
      markerRun_cons hc (.inl hhash), List.length_cons]
    omega
  simp only [isMarker, Bool.or_eq_true, beq_iff_eq] at hmarker
  obtain ((((rfl | rfl) | rfl) | rfl) | rfl) | rfl := hmarker
  · exact hone _ rfl
  · exact hone _ rfl
  · cases rest with
    | nil => exact hone _ rfl
    | cons c rest =>
      rw [LexemeKind.read_comma]
      split
      · next hsplice =>
        simp only [Bool.or_eq_true, beq_iff_eq] at hsplice
        rcases hsplice with rfl | rfl <;> exact htwo _ rfl rfl (by decide) (by decide) rfl
      · exact hone _ rfl
  · exact hone _ rfl
  · exact hone _ rfl
  · cases rest with
    | nil => exact hone _ rfl
    | cons c rest =>
      have hbar : c ≠ bar := by simpa using hcomment rfl
      have hbackslash : c ≠ backslash := by
        rintro rfl
        cases hrun
      rw [LexemeKind.read_hash, if_neg (by simpa using hbar), if_neg (by simpa using hbackslash)]
      split
      · next hquote =>
        rw [eq_of_beq hquote] at htwo ⊢
        exact htwo _ rfl rfl (by decide) (by decide) rfl
      · exact hone _ rfl

/-- Where the markers from an offset on end. There stands what they apply to. -/
def datumAt (source : List UInt8) (pos : Nat) : Nat := pos + markerRun (source.drop pos)

private theorem le_datumAt (source : List UInt8) (pos : Nat) : pos ≤ datumAt source pos :=
  Nat.le_add_right _ _

private theorem exists_isMarker_of_lt_datumAt {i : Nat} (hle : pos ≤ i)
    (hlt : i < datumAt source pos) :
    ∃ b, source[i]? = some b ∧ isMarker b = true := by
  obtain ⟨k, rfl⟩ := Nat.exists_eq_add_of_le hle
  obtain ⟨b, hb, hmarker⟩ := exists_isMarker_of_lt_markerRun (Nat.lt_of_add_lt_add_left hlt)
  exact ⟨b, by rwa [← List.getElem?_drop], hmarker⟩

/-- Markers that stand together apply to the same. -/
theorem datumAt_eq {i : Nat} (hle : pos ≤ i) (hrun : i ≤ datumAt source pos) :
    datumAt source i = datumAt source pos := by
  obtain ⟨k, rfl⟩ := Nat.exists_eq_add_of_le hle
  have hk : k ≤ markerRun (source.drop pos) := Nat.le_of_add_le_add_left hrun
  unfold datumAt
  rw [← List.drop_drop, markerRun_drop hk]
  omega

/-- A run of markers ends at a seam, if no block comment starts in it. -/
theorem IsSeam.datumAt (h : IsSeam source pos)
    (hcomment : ∀ i, pos ≤ i → i < datumAt source pos → source[i]? = some hash →
      source[i + 1]? ≠ some bar) : IsSeam source (datumAt source pos) := by
  induction hsize : source.length - pos using Nat.strongRecOn generalizing pos with
  | ind size ih =>
    rcases Nat.eq_zero_or_pos (markerRun (source.drop pos)) with hzero | hrun
    · rw [LexScope.datumAt, hzero]
      exact h
    · cases hdrop : source.drop pos with
      | nil =>
        rw [hdrop] at hrun
        cases hrun
      | cons b rest =>
        rw [hdrop] at hrun
        have hlt := pos_le_of_drop_cons hdrop
        have hrunEq : LexScope.datumAt source pos = pos + markerRun (b :: rest) := by
          rw [LexScope.datumAt, hdrop]
        obtain ⟨hmore, hle⟩ := read_le_markerRun hrun fun hhash => by
          rw [← second_of_drop_cons hdrop]
          exact hcomment pos (Nat.le_refl _) (by omega) (hhash ▸ head_of_drop_cons hdrop)
        have hnext := Lexeme.isSeam_stop (h.mem hdrop)
        simp only [Nat.min_eq_left hmore] at hnext
        have hsame : LexScope.datumAt source (pos + 1 + (LexemeKind.read b rest).2) =
            LexScope.datumAt source pos := datumAt_eq (by omega) (by omega)
        rw [← hsame]
        exact ih _ (by omega) hnext (fun i hi hlt => hcomment i (by omega) (hsame ▸ hlt)) rfl

end Run

/-! ## Markers and what they stand before -/

section Lexemes

variable {source : List UInt8} {l : Lexeme} {m : Marker} {target : Target}

private theorem Marker.isMarker_byte (m : Marker) : isMarker m.byte = true := by cases m <;> rfl

private theorem Marker.byte_ne_hash (m : Marker) : m.byte ≠ hash := by cases m <;> decide

private theorem LexemeKind.read_marker {b : UInt8} {rest : List UInt8}
    (h : (LexemeKind.read b rest).1 = .marker m target) : b = m.byte ∧
      target = .after (1 + (LexemeKind.read b rest).2) (rest.drop (LexemeKind.read b rest).2) := by
  revert h
  fun_cases LexemeKind.read b rest
  case case15 hb => rintro ⟨⟩; exact ⟨eq_of_beq hb, rfl⟩
  case case16 hb => rintro ⟨⟩; exact ⟨eq_of_beq hb, rfl⟩
  case case17 hb c rest' _ => rintro ⟨⟩; exact ⟨eq_of_beq hb, rfl⟩
  case case18 hb c rest' _ => rintro ⟨⟩; exact ⟨eq_of_beq hb, rfl⟩
  case case19 hb => rintro ⟨⟩; exact ⟨eq_of_beq hb, rfl⟩
  all_goals
    intro h
    cases h

private theorem Target.head_of_form {width : Nat} {rest : List UInt8}
    (h : Target.after width rest = .form) :
    (rest.drop (markerRun rest)).head? = some Byte.opening := by
  unfold Target.after at h
  simp only at h
  split at h
  · cases h
  · next b rest' hrest =>
    split at h
    · next hopening => rw [hrest, List.head?_cons, eq_of_beq hopening]
    · split at h
      · cases h
      · split at h <;> cases h

private theorem Target.length_of_atom {width n : Nat} {rest : List UInt8}
    (h : Target.after width rest = .atom n) :
    (rest.drop (markerRun rest)).head? ≠ some Byte.opening ∧
      n = width + markerRun rest + atomLength (rest.drop (markerRun rest)) := by
  unfold Target.after at h
  simp only at h
  split at h
  · cases h
  · next b rest' hrest =>
    split at h
    · cases h
    · next hopening =>
      split at h
      · cases h
      · split at h
        · cases h
        · cases h
          rw [hrest]
          exact ⟨by simpa using hopening, rfl⟩

/-- What a marker lexeme stands before is what follows the run of markers that it starts. -/
theorem Lexeme.exists_after (hl : l ∈ lexemes source) (hkind : l.kind = .marker m target) :
    source[l.span.start]? = some m.byte ∧ ∃ width rest, 0 < width ∧ target = .after width rest ∧
      datumAt source l.span.start = l.span.start + width + markerRun rest ∧
      source.drop (datumAt source l.span.start) = rest.drop (markerRun rest) := by
  obtain ⟨b, rest, hdrop, hread, -⟩ := exists_read rfl hl
  obtain ⟨rfl, rfl⟩ := LexemeKind.read_marker (hread.symm.trans hkind)
  have hrun : 0 < markerRun (m.byte :: rest) := by
    rw [markerRun_cons m.isMarker_byte (.inl m.byte_ne_hash)]
    omega
  obtain ⟨-, hle⟩ := read_le_markerRun hrun (absurd · m.byte_ne_hash)
  generalize (LexemeKind.read m.byte rest).2 = more at hle
  have hsplit := markerRun_drop hle
  rw [Nat.add_comm 1 more, List.drop_succ_cons] at hsplit
  have hdatum : datumAt source l.span.start =
      l.span.start + (1 + more) + markerRun (rest.drop more) := by
    rw [datumAt, hdrop]
    omega
  refine ⟨head_of_drop_cons hdrop, _, _, by omega, rfl, hdatum, ?_⟩
  rw [hdatum, drop_of_drop_cons hdrop (by omega), List.drop_drop]
  congr 1
  omega

/-- A marker of the kind is read at the offset. -/
def Marker.ReadAt (source : List UInt8) (m : Marker) (start : Nat) : Prop :=
  ∃ l ∈ lexemes source, l.span.start = start ∧ ∃ target, l.kind = .marker m target

private theorem Marker.ReadAt.spec {start : Nat} (h : m.ReadAt source start) :
    source[start]? = some m.byte ∧ start < datumAt source start := by
  obtain ⟨l, hl, rfl, target, hkind⟩ := h
  obtain ⟨hbyte, width, rest, hwidth, -, hdatum, -⟩ := Lexeme.exists_after hl hkind
  exact ⟨hbyte, by omega⟩

/-- A marker before a form stands before an opening bracket. -/
theorem Lexeme.opening_of_form (hl : l ∈ lexemes source) (hkind : l.kind = .marker m .form) :
    source[datumAt source l.span.start]? = some Byte.opening := by
  obtain ⟨-, width, rest, -, htarget, -, hdrop⟩ := exists_after hl hkind
  rw [← List.head?_drop, hdrop]
  exact Target.head_of_form htarget.symm

/-- A marker before an atom reaches to the end of the atom. -/
theorem Lexeme.length_of_atom {n : Nat} (hl : l ∈ lexemes source)
    (hkind : l.kind = .marker m (.atom n)) :
    source[datumAt source l.span.start]? ≠ some Byte.opening ∧
      l.span.start + n = datumAt source l.span.start +
        atomLength (source.drop (datumAt source l.span.start)) := by
  obtain ⟨-, width, rest, -, htarget, hdatum, hdrop⟩ := exists_after hl hkind
  obtain ⟨hopening, rfl⟩ := Target.length_of_atom htarget.symm
  rw [← List.head?_drop, hdrop]
  exact ⟨hopening, by omega⟩

/-- No bracket stands between markers and what they apply to. -/
theorem Lexeme.datumAt_le_of_isBracket (hl : l ∈ lexemes source)
    (hbracket : l.kind.isBracket = true) {start : Nat} (hstart : start ≤ l.span.start) :
    datumAt source start ≤ l.span.start := by
  obtain ⟨b, rest, hdrop, hread, -⟩ := exists_read rfl hl
  rw [← Nat.not_lt]
  intro hlt
  obtain ⟨c, hc, hmarker⟩ := exists_isMarker_of_lt_datumAt hstart hlt
  rw [head_of_drop_cons hdrop, Option.some.injEq] at hc
  rcases LexemeKind.read_of_isBracket (hread ▸ hbracket) with rfl | rfl <;> subst hc <;>
    cases hmarker

/-- The bracket that a marker stands before is read as a bracket. -/
theorem Lexeme.startsAt_datum (hl : l ∈ lexemes source) (hkind : l.kind = .marker m .form) :
    Lexeme.StartsAt (lexemes source) .opening (datumAt source l.span.start) := by
  have hopening := opening_of_form hl hkind
  have hdatum := (isSeam_start hl).datumAt fun i hi hlt hhash hbar => by
    -- What follows a number sign in the run is another marker or the bracket.
    rcases Nat.lt_or_ge (i + 1) (datumAt source l.span.start) with hnext | hlast
    · obtain ⟨b, hb, hmarker⟩ := exists_isMarker_of_lt_datumAt (by omega) hnext
      rw [hbar, Option.some.injEq] at hb
      subst hb
      cases hmarker
    · have heq : i + 1 = datumAt source l.span.start := by omega
      rw [heq, hopening] at hbar
      cases hbar
  cases hdrop : source.drop (datumAt source l.span.start) with
  | nil =>
    rw [← List.head?_drop, hdrop] at hopening
    cases hopening
  | cons b rest =>
    rw [head_of_drop_cons hdrop, Option.some.injEq] at hopening
    subst hopening
    exact ⟨_, hdatum.mem hdrop, rfl, rfl⟩

end Lexemes

/-! ## The markers of a layout -/

namespace LayoutState

variable {source : List UInt8} {rest : List Lexeme} {st : LayoutState} {l : Lexeme}

/-- Where the markers stand that have been found to apply to something. -/
def markerStarts (st : LayoutState) : List Nat :=
  st.forms.map (·.2.start) ++ (st.atoms.map (·.2.start) ++ st.pending.map (·.start))

/-- A lexeme moves markers about, and adds at most itself. -/
theorem markerStarts_step (st : LayoutState) (l : Lexeme) :
    (st.step l).markerStarts.Perm st.markerStarts ∨
      (st.step l).markerStarts.Perm (l.span.start :: st.markerStarts) := by
  unfold LayoutState.step
  split
  case h_4 =>
    left
    unfold close
    split
    · exact .refl _
    · next opened stack _ =>
      -- What ends now has waited before.
      have hsplit : st.pending.map (·.start) =
          (st.pending.takeWhile fun p => p.depth == stack.length).map (·.start) ++
            (st.pending.dropWhile fun p => p.depth == stack.length).map (·.start) := by
        rw [← List.map_append, List.takeWhile_append_dropWhile]
      simp only [markerStarts, hsplit, List.map_append, List.map_reverse, List.map_map]
      refine List.perm_iff_count.2 fun start => ?_
      simp only [List.count_append, List.count_reverse, Function.comp_def]
      omega
  case h_5 => exact .inr ((List.perm_middle.append_left _).trans List.perm_middle)
  case h_6 => exact .inr List.perm_middle
  all_goals exact .inl (.refl _)

/-- What is known of the markers that have been taken in when the given lexemes are still to
come. -/
structure Tracked (source : List UInt8) (rest : List Lexeme) (st : LayoutState) : Prop where
  /-- A marker that waits stands before the bracket that is open at its depth, or before the next
  one to be opened. -/
  pending : ∀ p ∈ st.pending, p.marker.ReadAt source p.start ∧
    (st.stack.reverse[p.depth]? = some (datumAt source p.start) ∨
      p.depth = st.stack.length ∧ Lexeme.StartsAt rest .opening (datumAt source p.start))
  /-- Of two markers that wait the later one stands no higher. -/
  descending : st.pending.Pairwise fun p q => q.depth ≤ p.depth
  /-- A marker before a form ends with the pair that it stands before. -/
  forms : ∀ f ∈ st.forms, f.1.ReadAt source f.2.start ∧
    ∃ p ∈ st.pairs, p.opening = datumAt source f.2.start ∧ p.closing + 1 = f.2.stop
  /-- A marker before an atom ends with the atom. -/
  atoms : ∀ a ∈ st.atoms, a.1.ReadAt source a.2.start ∧
    source[datumAt source a.2.start]? ≠ some Byte.opening ∧
      a.2.stop = datumAt source a.2.start + atomLength (source.drop (datumAt source a.2.start))
  /-- No two markers stand at the same offset. -/
  nodup : st.markerStarts.Nodup
  /-- All stand before what is still to come. -/
  before : ∀ start ∈ st.markerStarts, ∀ l ∈ rest, start < l.span.start

namespace Tracked

private theorem empty (source : List UInt8) (rest : List Lexeme) : Tracked source rest {} := by
  constructor <;> simp [markerStarts]

section Step

variable (h : st.Tracked source (l :: rest)) (hl : l ∈ lexemes source)
  (hnext : ∀ d ∈ rest, l.span.start < d.span.start)

include h hnext in
/-- The offsets of markers after one more lexeme. -/
theorem starts_step : (st.step l).markerStarts.Nodup ∧
    ∀ start ∈ (st.step l).markerStarts, ∀ d ∈ rest, start < d.span.start := by
  have hbefore : ∀ start ∈ st.markerStarts, start < l.span.start :=
    fun start hstart => h.before start hstart l List.mem_cons_self
  have hcons : (l.span.start :: st.markerStarts).Nodup :=
    List.nodup_cons.2 ⟨fun hmem => Nat.lt_irrefl _ (hbefore _ hmem), h.nodup⟩
  have hlt : ∀ start ∈ l.span.start :: st.markerStarts, ∀ d ∈ rest, start < d.span.start :=
    List.forall_mem_cons.2 ⟨hnext, fun start hstart d hd =>
      h.before start hstart d (List.mem_cons_of_mem _ hd)⟩
  rcases markerStarts_step st l with hperm | hperm
  · exact ⟨hperm.nodup_iff.2 h.nodup, fun start hstart =>
      hlt start (List.mem_cons_of_mem _ (hperm.mem_iff.1 hstart))⟩
  · exact ⟨hperm.nodup_iff.2 hcons, fun start hstart => hlt start (hperm.mem_iff.1 hstart)⟩

include h hl hnext in
/-- At a bracket no marker waits for a later one. -/
theorem not_startsAt_of_isBracket (hbracket : l.kind.isBracket = true) {p : PendingMarker}
    (hp : p ∈ st.pending) : ¬Lexeme.StartsAt rest .opening (datumAt source p.start) := by
  rintro ⟨d, hd, -, hstart⟩
  have hmem : p.start ∈ st.markerStarts := by
    simp only [markerStarts, List.mem_append, List.mem_map]
    exact .inr (.inr ⟨p, hp, rfl⟩)
  have hle := Lexeme.datumAt_le_of_isBracket hl hbracket
    (Nat.le_of_lt (h.before _ hmem l List.mem_cons_self))
  have := hnext d hd
  omega

include h in
/-- Any lexeme but an opening bracket leaves the markers waiting that do. -/
theorem pending_of_ne_opening (hkind : l.kind ≠ .opening) : ∀ p ∈ st.pending,
    p.marker.ReadAt source p.start ∧
      (st.stack.reverse[p.depth]? = some (datumAt source p.start) ∨
        p.depth = st.stack.length ∧ Lexeme.StartsAt rest .opening (datumAt source p.start)) := by
  intro p hp
  obtain ⟨hread, hopen | ⟨hdepth, d, hd, hopening, hstart⟩⟩ := h.pending p hp
  · exact ⟨hread, .inl hopen⟩
  · rcases List.mem_cons.1 hd with rfl | hd
    · exact absurd hopening hkind
    · exact ⟨hread, .inr ⟨hdepth, d, hd, hopening, hstart⟩⟩

include h hl hnext in
/-- An opening bracket is what the markers right before it wait for. -/
theorem push (hkind : l.kind = .opening) :
    Tracked source rest { st with stack := l.span.start :: st.stack } where
  pending p hp := by
    obtain ⟨hread, hopen | ⟨hdepth, d, hd, hopening, hstart⟩⟩ := h.pending p hp
    · have hlt := (List.getElem?_eq_some_iff.1 hopen).1
      refine ⟨hread, .inl ?_⟩
      rw [List.reverse_cons, List.getElem?_append_left hlt, hopen]
    · rcases List.mem_cons.1 hd with rfl | hd
      · refine ⟨hread, .inl ?_⟩
        rw [List.reverse_cons, hdepth, ← List.length_reverse, List.getElem?_concat_length, hstart]
      · exact absurd ⟨d, hd, hopening, hstart⟩
          (h.not_startsAt_of_isBracket hl hnext (by rw [hkind]; rfl) hp)
  descending := h.descending
  forms := h.forms
  atoms := h.atoms
  nodup := h.nodup
  before start hstart d hd := h.before start hstart d (List.mem_cons_of_mem _ hd)

include h hl hnext in
/-- A closing bracket ends the markers that stand before its partner, and no others. -/
theorem close (hkind : l.kind = .closing) : (st.close l.span.start).Tracked source rest := by
  have hstarts := h.starts_step hnext
  have hwaiting := h.pending_of_ne_opening (by simp [hkind])
  have hstep : st.step l = st.close l.span.start := by simp only [LayoutState.step, hkind]
  rw [hstep] at hstarts
  unfold LayoutState.close at hstarts ⊢
  split
  · exact { h with
      pending := hwaiting
      nodup := h.nodup
      before := fun start hstart d hd => h.before start hstart d (List.mem_cons_of_mem _ hd) }
  · next opened stack hstack =>
    simp only [hstack] at hstarts
    -- Every marker that waits stands before an open bracket.
    have hopen : ∀ p ∈ st.pending, (stack.reverse ++ [opened])[p.depth]? =
        some (datumAt source p.start) := by
      intro p hp
      rcases (hwaiting p hp).2 with hopen | ⟨-, hnever⟩
      · rwa [hstack, List.reverse_cons] at hopen
      · exact absurd hnever (h.not_startsAt_of_isBracket hl hnext (by rw [hkind]; rfl) hp)
    have hle : ∀ p ∈ st.pending, p.depth ≤ stack.length := by
      intro p hp
      have hlt := (List.getElem?_eq_some_iff.1 (hopen p hp)).1
      simp only [List.length_append, List.length_reverse, List.length_singleton] at hlt
      omega
    have hsub := List.dropWhile_sublist (l := st.pending) fun p => p.depth == stack.length
    have hdescending := h.descending.sublist hsub
    -- The first marker that goes on waiting stands higher than the bracket, and so do the others.
    have hhigher : ∀ p ∈ st.pending.dropWhile fun p => p.depth == stack.length,
        p.depth < stack.length := by
      have hhead := List.head?_dropWhile_not (fun p : PendingMarker => p.depth == stack.length)
        st.pending
      cases hrest : st.pending.dropWhile fun p => p.depth == stack.length with
      | nil => simp
      | cons first others =>
        rw [hrest] at hhead hsub hdescending
        have hfirst := hle first (hsub.subset List.mem_cons_self)
        have hne : first.depth ≠ stack.length := by simpa using hhead
        refine List.forall_mem_cons.2 ⟨by omega, fun p hp => ?_⟩
        have := (List.pairwise_cons.1 hdescending).1 p hp
        omega
    exact
      { pending := fun p hp => by
          refine ⟨(hwaiting p (hsub.subset hp)).1, .inl ?_⟩
          have hlt := hhigher p hp
          rw [← hopen p (hsub.subset hp), List.getElem?_append_left (by simpa using hlt)]
        descending := hdescending
        forms := fun f hf => by
          rcases List.mem_append.1 hf with hf | hf
          · rw [List.mem_reverse, List.mem_map] at hf
            obtain ⟨p, hp, rfl⟩ := hf
            have hdepth := List.all_eq_true.1 List.all_takeWhile p hp
            have hpending := (List.takeWhile_sublist _).subset hp
            have hdatum := hopen p hpending
            rw [eq_of_beq hdepth, ← List.length_reverse, List.getElem?_concat_length,
              Option.some.injEq] at hdatum
            exact ⟨(hwaiting p hpending).1, ⟨opened, l.span.start⟩, List.mem_cons_self, hdatum, rfl⟩
          · obtain ⟨hread, p, hp, hends⟩ := h.forms f hf
            exact ⟨hread, p, List.mem_cons_of_mem _ hp, hends⟩
        atoms := h.atoms
        nodup := hstarts.1
        before := hstarts.2 }

include h hl hnext in
/-- One more lexeme is taken in. -/
theorem step (hopening : ∀ o, l.span.start < o →
    Lexeme.StartsAt (lexemes source) .opening o → Lexeme.StartsAt rest .opening o) :
    (st.step l).Tracked source rest := by
  have hstarts := h.starts_step hnext
  cases hkind : l.kind
  case opening =>
    simpa only [LayoutState.step, hkind] using h.push hl hnext hkind
  case closing =>
    simpa only [LayoutState.step, hkind] using h.close hl hnext hkind
  case marker m target =>
    have hwaiting := h.pending_of_ne_opening (by simp [hkind])
    have hread : m.ReadAt source l.span.start := ⟨l, hl, rfl, target, hkind⟩
    cases target with
    | form =>
      simp only [LayoutState.step, hkind] at hstarts ⊢
      have hdatum := hopening _ hread.spec.2 (Lexeme.startsAt_datum hl hkind)
      have hle : ∀ p ∈ st.pending, p.depth ≤ st.stack.length := by
        intro p hp
        rcases (hwaiting p hp).2 with hopen | ⟨hdepth, -⟩
        · have := (List.getElem?_eq_some_iff.1 hopen).1
          rw [List.length_reverse] at this
          omega
        · exact Nat.le_of_eq hdepth
      exact
        { h with
          pending := List.forall_mem_cons.2 ⟨⟨hread, .inr ⟨rfl, hdatum⟩⟩, hwaiting⟩
          descending := List.pairwise_cons.2 ⟨hle, h.descending⟩
          nodup := hstarts.1
          before := hstarts.2 }
    | atom length =>
      simp only [LayoutState.step, hkind] at hstarts ⊢
      exact
        { h with
          pending := hwaiting
          atoms := List.forall_mem_cons.2 ⟨⟨hread, Lexeme.length_of_atom hl hkind⟩, h.atoms⟩
          nodup := hstarts.1
          before := hstarts.2 }
    | nothing =>
      simp only [LayoutState.step, hkind] at hstarts ⊢
      exact { h with pending := hwaiting, before := hstarts.2 }
  all_goals
    have hwaiting := h.pending_of_ne_opening (by simp [hkind])
    simp only [LayoutState.step, hkind] at hstarts ⊢
    exact { h with pending := hwaiting, nodup := hstarts.1, before := hstarts.2 }

end Step

/-- All lexemes of a document are taken in. -/
theorem foldl {read : List Lexeme} (h : st.Tracked source rest)
    (hsplit : lexemes source = read ++ rest) :
    (rest.foldl LayoutState.step st).Tracked source [] := by
  induction rest generalizing read st with
  | nil => exact h
  | cons l rest ih =>
    have hordered := (Lexeme.inOrder_lexemes source).ordered
    have hproper := (Lexeme.inOrder_lexemes source).proper
    rw [hsplit, List.pairwise_append, List.pairwise_cons] at hordered
    obtain ⟨-, ⟨hafter, -⟩, hbefore⟩ := hordered
    have hl : l ∈ lexemes source := by simp [hsplit]
    have hnext : ∀ d ∈ rest, l.span.start < d.span.start := by
      intro d hd
      have := hproper l hl
      have := (hafter d hd).1
      omega
    have hrest : lexemes source = (read ++ [l]) ++ rest := by simpa using hsplit
    refine ih (h.step hl hnext ?_) hrest
    -- A bracket after this lexeme is none of those that have been taken in.
    rintro o hlt ⟨d, hd, hopening, rfl⟩
    rw [hsplit, List.mem_append, List.mem_cons] at hd
    rcases hd with hd | rfl | hd
    · have := hproper d (by simp [hsplit, hd])
      have := (hbefore d hd l List.mem_cons_self).1
      omega
    · exact absurd hlt (Nat.lt_irrefl _)
    · exact ⟨d, hd, hopening, rfl⟩

end Tracked

private theorem mem_spansOf {found : List (Marker × Span)} {m : Marker} {s : Span} :
    s ∈ spansOf found m ↔ (m, s) ∈ found := by
  simp only [spansOf, List.mem_mergeSort, List.mem_map, List.mem_filter]
  constructor
  · rintro ⟨⟨m', s'⟩, ⟨hmem, hm⟩, rfl⟩
    rwa [← eq_of_beq hm]
  · exact fun hmem => ⟨(m, s), ⟨hmem, beq_self_eq_true m⟩, rfl⟩

/-- Sorting what has been found by markers keeps each span once. -/
theorem markerSpans_finish (st : LayoutState) (size : Nat) :
    (st.finish size).markerSpans.Perm ((st.forms ++ st.atoms).map (·.2)) := by
  have hmarkers (found : List (Marker × Span)) :
      (found.filter (·.1 == .quote) ++ found.filter (·.1 == .template) ++
        found.filter (·.1 == .comma)).Perm found := by
    refine List.perm_iff_count.2 fun f => ?_
    have hcount (m : Marker) :
        (found.filter (·.1 == m)).count f = if f.1 = m then found.count f else 0 := by
      split
      · next hm => exact List.count_filter (beq_iff_eq.2 hm)
      · next hm =>
        exact List.count_eq_zero.2 fun hmem => hm (by simpa using (List.mem_filter.1 hmem).2)
    obtain ⟨m, s⟩ := f
    simp only [List.count_append, hcount]
    cases m <;> simp
  have hone (found : List (Marker × Span)) (m : Marker) (s : Span) :
      (spansOf found m).count s = ((found.filter fun f => f.1 == m).map (·.2)).count s :=
    (List.mergeSort_perm _ _).count_eq s
  refine List.perm_iff_count.2 fun s => ?_
  have hforms := ((hmarkers st.forms).map (·.2)).count_eq s
  have hatoms := ((hmarkers st.atoms).map (·.2)).count_eq s
  simp only [List.map_append, List.count_append] at hforms hatoms
  simp only [Layout.markerSpans, MarkerSpans.spans, finish, List.map_append, List.count_append,
    hone]
  omega

end LayoutState

/-- How far a marker reaches: to the end of the pair that it stands before, or of the atom. -/
structure Marker.Reaches (source : List UInt8) (m : Marker) (s : Span) : Prop where
  /-- The marker is read where the span starts. -/
  readAt : m.ReadAt source s.start
  /-- The span ends with what the marker stands before. -/
  body : (∃ p ∈ (Layout.ofBytes source).pairs.pairs,
      p.opening = datumAt source s.start ∧ p.closing + 1 = s.stop) ∨
    source[datumAt source s.start]? ≠ some Byte.opening ∧
      s.stop = datumAt source s.start + atomLength (source.drop (datumAt source s.start))

section Reach

variable {source : List UInt8} {m n : Marker} {s t : Span}

private theorem tracked_ofBytes (source : List UInt8) :
    ((lexemes source).foldl LayoutState.step {}).Tracked source [] :=
  (LayoutState.Tracked.empty source _).foldl (List.nil_append _).symm

/-- A marker before a form ends with the pair that it stands before. -/
theorem Layout.pair_of_mem_forms (hs : s ∈ ((ofBytes source).markers m).forms) :
    m.ReadAt source s.start ∧ ∃ p ∈ (ofBytes source).pairs.pairs,
      p.opening = datumAt source s.start ∧ p.closing + 1 = s.stop := by
  obtain ⟨hread, p, hp, hends⟩ :=
    (tracked_ofBytes source).forms _ (LayoutState.mem_spansOf.1 hs)
  exact ⟨hread, p, by simpa [ofBytes, LayoutState.finish] using hp, hends⟩

private theorem Layout.reaches_of_mem_spans (hs : s ∈ ((ofBytes source).markers m).spans) :
    m.Reaches source s := by
  rcases List.mem_append.1 hs with hs | hs
  · obtain ⟨hread, hpair⟩ := pair_of_mem_forms hs
    exact ⟨hread, .inl hpair⟩
  · obtain ⟨hread, hatom⟩ := (tracked_ofBytes source).atoms _ (LayoutState.mem_spansOf.1 hs)
    exact ⟨hread, .inr hatom⟩

/-- A marker whose byte stands in strings only is never read. -/
theorem Layout.markers_eq_nil
    (h : ∀ i, source[i]? = some m.byte → (ofBytes source).strings.contains i = true) :
    (ofBytes source).markers m = ⟨[], []⟩ := by
  have hnone : ∀ s, s ∉ ((ofBytes source).markers m).spans := by
    intro s hs
    have hread := (reaches_of_mem_spans hs).readAt
    obtain ⟨d, hd, hstring, hinside⟩ :=
      ((collects_strings source).contains_iff _).1 (h s.start hread.spec.1)
    obtain ⟨l, hl, hstart, target, hkind⟩ := hread
    have heq : l = d := (Lexeme.inOrder_lexemes source).eq_of_contains hl hd
      (hstart ▸ Lexeme.contains_start hl) hinside
    rw [← heq, hkind] at hstring
    cases hstring
  obtain ⟨hforms, hatoms⟩ := List.append_eq_nil_iff.1 (List.eq_nil_iff_forall_not_mem.2 hnone)
  cases hmarkers : (ofBytes source).markers m
  simp_all

/-- No two marker spans start at the same offset. -/
theorem Layout.pairwise_markerSpans (source : List UInt8) :
    (ofBytes source).markerSpans.Pairwise fun s t => s.start ≠ t.start := by
  have hperm := LayoutState.markerSpans_finish ((lexemes source).foldl LayoutState.step {})
    source.length
  have hnodup := (tracked_ofBytes source).nodup
  rw [LayoutState.markerStarts, ← List.append_assoc, ← List.map_append] at hnodup
  refine hperm.symm.pairwise ?_ fun hne => Ne.symm hne
  exact List.pairwise_map.2 (List.pairwise_map.1 (List.nodup_append.1 hnodup).1)

/-! ## Marker spans nest -/

/-- Brackets and markers are not part of an atom. -/
theorem AtomTo.isBreak_eq_false {start stop : Nat} (h : AtomTo source start stop) {l : Lexeme}
    (hl : l ∈ lexemes source) (hstart : start ≤ l.span.start) (hstop : l.span.start < stop) :
    l.kind.isBracket = false ∧ l.isMarker = false := by
  obtain ⟨last, hjoins, hend⟩ := h
  by_cases hlast : l.span.start < last
  · have hbreak := (hjoins.parts l hl hstart hlast).1
    simp only [Lexeme.isBreak, Lexeme.separates, Bool.or_eq_false_iff] at hbreak
    exact ⟨hbreak.1.1.1.1.2, hbreak.1.2⟩
  · rcases hend with rfl | ⟨rfl, mark, hmark, hat, hfunction⟩
    · exact absurd hstop hlast
    · -- The lexeme is the mark of a function.
      have heq : l = mark := Lexeme.eq_of_start hl hmark (by omega)
      simp only [Lexeme.isFunctionMark, Bool.and_eq_true, beq_iff_eq] at hfunction
      simp [heq, LexemeKind.isBracket, Lexeme.isMarker, hfunction.1.1]

/-- What follows a number sign in a text without the two bytes. -/
theorem ne_of_not_isInfix {c : UInt8} (hpair : ¬[Byte.hash, c] <:+: source) {i : Nat}
    (hhash : source[i]? = some Byte.hash) : source[i + 1]? ≠ some c := by
  intro hnext
  obtain ⟨hlt, hfirst⟩ := List.getElem?_eq_some_iff.1 hhash
  obtain ⟨hlt', hsecond⟩ := List.getElem?_eq_some_iff.1 hnext
  refine hpair ⟨source.take i, source.drop (i + 2), ?_⟩
  rw [← hfirst, ← hsecond, List.append_assoc, List.cons_append, List.cons_append, List.nil_append,
    ← List.drop_eq_getElem_cons hlt', ← List.drop_eq_getElem_cons hlt, List.take_append_drop]

/-- Where the two bytes `#|` do not stand together, no lexeme is a block comment. -/
theorem Lexeme.isBlockComment_eq_false_of_not_isInfix (hbar : ¬[Byte.hash, bar] <:+: source)
    {l : Lexeme} (hl : l ∈ lexemes source) : l.isBlockComment source = false := by
  obtain ⟨b, rest, hdrop, hread, -⟩ := exists_read rfl hl
  rw [Bool.eq_false_iff]
  intro hblock
  simp only [isBlockComment, Bool.and_eq_true, beq_iff_eq] at hblock
  obtain ⟨hcomment, hfirst⟩ := hblock
  have hsecond := ne_of_not_isInfix hbar hfirst
  rw [second_of_drop_cons hdrop] at hsecond
  rw [head_of_drop_cons hdrop, Option.some.injEq] at hfirst
  subst hfirst
  rw [hread] at hcomment
  cases rest with
  | nil => cases hcomment
  | cons c rest =>
    rw [LexemeKind.read_hash, if_neg (by simpa using hsecond)] at hcomment
    split at hcomment
    · cases hcomment
    · split at hcomment <;> cases hcomment

/-- The comments of a source without block comments stand apart. -/
theorem commentsApart_of_not_isInfix (hbar : ¬[Byte.hash, bar] <:+: source) :
    CommentsApart source := by
  intro a _ c hc _ hblock
  rw [Lexeme.isBlockComment_eq_false_of_not_isInfix hbar hc] at hblock
  cases hblock

/-- An atom after markers takes neither brackets nor further markers. -/
theorem Marker.ReadAt.atomTo (hbar : ¬[Byte.hash, bar] <:+: source)
    {start : Nat} (h : m.ReadAt source start) : AtomTo source (datumAt source start)
      (datumAt source start + atomLength (source.drop (datumAt source start))) := by
  obtain ⟨l, hl, rfl, -⟩ := h
  have hseam := (Lexeme.isSeam_start hl).datumAt fun i _ _ hhash => ne_of_not_isInfix hbar hhash
  rw [atomLength_eq]
  exact atomTo_plainAtomLength (commentsApart_of_not_isInfix hbar) hseam fun c hc _ =>
    Lexeme.isBlockComment_eq_false_of_not_isInfix hbar hc

private theorem Marker.Reaches.proper (hs : m.Reaches source s) : s.start < s.stop := by
  have hlt := hs.readAt.spec.2
  rcases hs.body with ⟨p, hp, hopening, hclosing⟩ | ⟨-, hstop⟩
  · have := (Layout.laminar_ofBytes source).lt p hp
    omega
  · omega

/-- The opening bracket of a pair is one. -/
theorem Layout.opening_of_mem_pairs {p : Pair} (hp : p ∈ (ofBytes source).pairs.pairs) :
    source[p.opening]? = some Byte.opening := by
  obtain ⟨⟨l, hl, hkind, hstart⟩, -⟩ := startsAt_of_mem_pairs hp
  obtain ⟨b, rest, hdrop, hread, -⟩ := Lexeme.exists_read rfl hl
  rw [hread] at hkind
  rw [← hstart, head_of_drop_cons hdrop]
  have hbracket : (LexemeKind.read b rest).1.isBracket = true := by rw [hkind]; rfl
  rcases LexemeKind.read_of_isBracket hbracket with rfl | rfl
  · rfl
  · cases hkind

/-- Markers that stand before the same reach equally far. -/
theorem Marker.Reaches.stop_eq (hs : m.Reaches source s) (ht : n.Reaches source t)
    (hdatum : datumAt source t.start = datumAt source s.start) : t.stop = s.stop := by
  rcases hs.body with ⟨p, hp, hpo, hpc⟩ | ⟨hatom, hsatom⟩ <;>
    rcases ht.body with ⟨q, hq, hqo, hqc⟩ | ⟨htatom, hqatom⟩
  · have heq : p = q := (Layout.laminar_ofBytes source).eq_of_shared hp hq (.inl hpo)
      (.inl (hqo.trans hdatum))
    rw [← hpc, ← hqc, heq]
  · exact absurd (hdatum.trans hpo.symm ▸ Layout.opening_of_mem_pairs hp) htatom
  · exact absurd (hqo.trans hdatum ▸ Layout.opening_of_mem_pairs hq) hatom
  · rw [hqatom, hsatom, hdatum]

/-- Of two markers the first one reaches over all of the second one, or ends before it. -/
theorem Marker.Reaches.laminar (hbar : ¬[Byte.hash, bar] <:+: source) (hs : m.Reaches source s)
    (ht : n.Reaches source t) (hlt : s.start < t.start) :
    t.stop ≤ s.stop ∨ s.stop ≤ t.start := by
  by_cases hends : s.stop ≤ t.start
  · exact .inr hends
  left
  rcases Nat.lt_or_ge t.start (datumAt source s.start) with hrun | hbody
  · -- The second marker stands between the first one and what both apply to.
    exact Nat.le_of_eq (hs.stop_eq ht (datumAt_eq (Nat.le_of_lt hlt) (Nat.le_of_lt hrun)))
  obtain ⟨l, hl, hstart, target, hkind⟩ := ht.readAt
  rcases hs.body with ⟨p, hp, hpo, hpc⟩ | ⟨-, hsatom⟩
  · -- The second marker stands between the brackets of the first one's form.
    obtain ⟨⟨o, ho, hokind, hostart⟩, ⟨c, hc, hckind, hcstart⟩⟩ := Layout.startsAt_of_mem_pairs hp
    have hne : ∀ d ∈ lexemes source, d.kind.isBracket = true → l.span.start ≠ d.span.start := by
      intro d hd hbracket heq
      rw [← Lexeme.eq_of_start hl hd heq, hkind] at hbracket
      cases hbracket
    have hopening := hne o ho (by rw [hokind]; rfl)
    have hclosing := hne c hc (by rw [hckind]; rfl)
    have hbracket : c.kind.isBracket = true := by rw [hckind]; rfl
    have hdatum : datumAt source t.start ≤ c.span.start :=
      Lexeme.datumAt_le_of_isBracket hc hbracket (by omega)
    have hle := le_datumAt source t.start
    rcases ht.body with ⟨q, hq, hqo, hqc⟩ | ⟨-, htatom⟩
    · have hproper := (Layout.laminar_ofBytes source).lt q hq
      rcases (Layout.laminar_ofBytes source).laminar p hp q hq with
        rfl | hcase | hcase | hcase | hcase
      all_goals omega
    · rw [← Nat.not_lt]
      intro hover
      have hpart := (ht.readAt.atomTo hbar).isBreak_eq_false hc hdatum (by omega)
      rw [hbracket] at hpart
      cases hpart.1
  · -- No marker is part of an atom.
    have hmarker := (hs.readAt.atomTo hbar).isBreak_eq_false hl (by omega) (by omega)
    simp [Lexeme.isMarker, hkind] at hmarker

namespace Layout

private theorem markersNest_ofBytes (hbar : ¬[Byte.hash, bar] <:+: source) :
    (ofBytes source).MarkersNest := by
  have hreaches : ∀ s ∈ (ofBytes source).markerSpans, ∃ m : Marker, m.Reaches source s := by
    intro s hs
    obtain ⟨m, hm⟩ := mem_markerSpans.1 hs
    exact ⟨m, reaches_of_mem_spans hm⟩
  constructor
  case proper =>
    intro s hs
    obtain ⟨m, hm⟩ := hreaches s hs
    exact hm.proper
  case distinct => exact pairwise_markerSpans source
  case laminar =>
    intro s hs t ht
    obtain ⟨m, hm⟩ := hreaches s hs
    obtain ⟨n, hn⟩ := hreaches t ht
    simp only [Span.Laminar, Span.covers_iff]
    rcases Nat.lt_trichotomy s.start t.start with hlt | heq | hgt
    · have := hm.laminar hbar hn hlt
      omega
    · -- Spans that start together belong to one marker.
      have := hm.stop_eq hn (by rw [heq])
      omega
    · have := hn.laminar hbar hm hgt
      omega

/-- In every text a marker before a form stands at the start of its span, and the span ends with the
pair that opens right after it, with nothing but markers in between. If the two bytes `#|` do not
stand together in the text, then the spans of all markers, before forms and before atoms, start at
different offsets and are nested or disjoint. -/
theorem markers_ofText (text : String) :
    (∀ m, ∀ s ∈ ((Source.ofText text).layout.markers m).forms,
      (Utf8.bytes text)[s.start]? = some m.byte ∧
        ∃ p ∈ (Source.ofText text).layout.pairs.pairs, s.stop = p.closing + 1 ∧
          s.start < p.opening ∧ ∀ i, s.start < i → i < p.opening →
            ∃ b, (Utf8.bytes text)[i]? = some b ∧ isMarker b = true) ∧
    (¬[Byte.hash, bar] <:+: Utf8.bytes text → (Source.ofText text).layout.MarkersNest) := by
  refine ⟨fun m s hs => ?_, markersNest_ofBytes⟩
  obtain ⟨hread, p, hp, hopening, hclosing⟩ := pair_of_mem_forms hs
  obtain ⟨hbyte, hlt⟩ := hread.spec
  refine ⟨hbyte, p, hp, hclosing.symm, by omega, fun i hi hlt => ?_⟩
  exact exists_isMarker_of_lt_datumAt (Nat.le_of_lt hi) (hopening ▸ hlt)

/-- The law applies to stacked markers with a bracket that closes nothing and one that is never
closed. -/
theorem markers_ofText_stacked : ¬[Byte.hash, bar] <:+: Utf8.bytes ") '`(a ,@b #'c) (" ∧
    (Source.ofText ") '`(a ,@b #'c) (").layout.MarkersNest := by
  have hbar : ¬[Byte.hash, bar] <:+: Utf8.bytes ") '`(a ,@b #'c) (" := by decide +kernel
  exact ⟨hbar, (markers_ofText ") '`(a ,@b #'c) (").2 hbar⟩

end Layout

end Reach

end LexScope
