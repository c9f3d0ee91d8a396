import LexScope.Document.Highlight
import LexScope.Proofs.Binding.Bounds
import LexScope.Proofs.Form.Separation
import LexScope.Proofs.Text.Columns
import Mathlib.Data.List.Pairwise

/-!
# Highlights can be sent as differences

An editor takes highlights as differences from one to the next, which only works if they come in
order. Symbols keep apart and places go up with the offset, so the highlights of a document are in
order and do not overlap, each shows one symbol, and the differences lead back to them. Lines,
columns and lengths are no greater than the size of the text.
-/

namespace LexScope

open Utf8

/-! ## Differences -/

namespace Highlight

/-- The highlight starts first, line by line and from left to right. -/
def Before (g h : Highlight) : Prop :=
  g.line < h.line ∨ (g.line = h.line ∧ g.column < h.column)

/-- The differences that `encodeFrom` takes are of numbers that do not go down. -/
def Ascends (line column : Nat) : List Highlight → Prop
  | [] => True
  | h :: rest =>
    line ≤ h.line ∧ (h.line = line → column ≤ h.column) ∧ Ascends h.line h.column rest

/-- Highlights from differences, after a highlight that starts at the given place: a column counts
from there only on the same line. -/
def decodeFrom (line column : Nat) : List Nat → Option (List Highlight)
  | [] => some []
  | lines :: columns :: length :: number :: modifiers :: rest =>
    let line' := line + lines
    let column' := if lines == 0 then column + columns else columns
    match HighlightClass.all[number]?, decodeFrom line' column' rest with
    | some cls, some hs =>
      some (⟨line', column', length, cls, modifiers.testBit 0, modifiers.testBit 1⟩ :: hs)
    | _, _ => none
  | _ => none

/-- Highlights from differences, from the start of the document. -/
def decode (numbers : List Nat) : Option (List Highlight) := decodeFrom 0 0 numbers

/-- A class has the number under which it is listed. -/
theorem getElem?_number (c : HighlightClass) : HighlightClass.all[c.number]? = some c := by
  cases c <;> rfl

private theorem testBit_modifiers (h : Highlight) :
    h.modifiers.testBit 0 = h.isDefinition ∧ h.modifiers.testBit 1 = h.isConstant := by
  unfold modifiers
  cases h.isDefinition <;> cases h.isConstant <;> decide

/-- Differences of numbers that do not go down lead back to them. -/
theorem decodeFrom_encodeFrom {line column : Nat} {hs : List Highlight}
    (h : Ascends line column hs) :
    decodeFrom line column (encodeFrom line column hs) = some hs := by
  induction hs generalizing line column with
  | nil => rfl
  | cons g rest ih =>
    obtain ⟨hline, hcolumn, hrest⟩ := h
    have hline' : line + (g.line - line) = g.line := Nat.add_sub_cancel' hline
    have hcolumn' : (if g.line - line == 0 then
        column + (if g.line == line then g.column - column else g.column)
        else if g.line == line then g.column - column else g.column) = g.column := by
      by_cases heq : g.line = line
      · have := hcolumn heq
        simp only [heq, Nat.sub_self, beq_self_eq_true, if_true]
        omega
      · have hne : g.line - line ≠ 0 := by omega
        simp [heq, hne]
    obtain ⟨hdefinition, hconstant⟩ := testBit_modifiers g
    simp only [encodeFrom, List.cons_append, List.nil_append, decodeFrom, hline', hcolumn',
      getElem?_number, ih hrest, hdefinition, hconstant]

/-- Highlights in order do not go down. -/
theorem ascends_of_pairwise {line column : Nat} {hs : List Highlight}
    (hfirst : ∀ h ∈ hs, line ≤ h.line ∧ (h.line = line → column ≤ h.column))
    (h : hs.Pairwise Before) : Ascends line column hs := by
  induction hs generalizing line column with
  | nil => trivial
  | cons g rest ih =>
    obtain ⟨hg, -⟩ := List.forall_mem_cons.1 hfirst
    obtain ⟨hbefore, hrest⟩ := List.pairwise_cons.1 h
    refine ⟨hg.1, hg.2, ih ?_ hrest⟩
    intro d hd
    have := hbefore d hd
    unfold Before at this
    omega

end Highlight

/-! ## Places of symbols -/

namespace Lines

variable {source : List UInt8}

/-- Of two spans that keep apart, the second starts on a later line, or right of the end of the
first. -/
theorem position_of_stop_lt (hclean : Clean source) {s t : Span} (hs : Fits source s)
    (ht : Fits source t) (hproper : s.start < s.stop) (hlt : s.stop < t.start) :
    ((ofBytes source).position s.start).line ≤ ((ofBytes source).position t.start).line ∧
      (((ofBytes source).position s.start).line = ((ofBytes source).position t.start).line →
        ((ofBytes source).position s.start).character + (ofBytes source).unitLength s ≤
          ((ofBytes source).position t.start).character ∧
        ((ofBytes source).position s.start).character <
          ((ofBytes source).position t.start).character) := by
  have hgap : Fits source ⟨s.stop, t.start⟩ := .of_le (Nat.le_of_lt hlt) hs.stop ht.start
  have hfirst := (ofBytes source).lineOf_mono hs.ordered
  have hsecond := (ofBytes source).lineOf_mono (Nat.le_of_lt hlt)
  rw [line_position hclean hs.start, line_position hclean ht.start]
  refine ⟨Nat.le_trans hfirst hsecond, fun heq => ?_⟩
  have hwidth := character_add hclean hs (by omega)
  have hspace := character_add hclean hgap (by
    show (ofBytes source).lineOf s.stop = (ofBytes source).lineOf t.start
    omega)
  have hunit := unitLength_cut_pos hs hproper
  rw [← unitLength_of_fits hs] at hunit
  simp only at hspace
  omega

end Lines

/-! ## Highlights of a document -/

namespace Analysis

variable {a : Analysis}

/-- The lines of the document. -/
def lines (a : Analysis) : Lines := .ofBytes a.source.bytes

/-- The symbol lies on one line, and outside of what highlighting leaves out. -/
def IsHighlightable (a : Analysis) (s : Symbol) : Prop :=
  a.lines.lineOf s.span.start = a.lines.lineOf s.span.stop ∧
    (a.excluded a.settings.highlight).meets s.span = false

/-- The highlight has the place and the length of the symbol. -/
def Shows (a : Analysis) (h : Highlight) (s : Symbol) : Prop :=
  a.lines.position s.span.start = ⟨h.line, h.column⟩ ∧ a.lines.unitLength s.span = h.length

/-- What an editor relies on when it takes the highlights of a document. -/
structure WellHighlighted (a : Analysis) : Prop where
  /-- The highlights are in order. -/
  increasing : a.highlights.Pairwise Highlight.Before
  /-- Highlights on one line do not overlap. -/
  disjoint : a.highlights.Pairwise fun g h => g.line = h.line → g.column + g.length ≤ h.column
  /-- Each shows exactly one symbol that can be shown. -/
  symbols : ∀ h ∈ a.highlights, ∃! s, (s ∈ a.symbols ∧ a.IsHighlightable s) ∧ a.Shows h s
  /-- A symbol that defines a name is highlighted as a definition. -/
  definitions : ∀ s ∈ a.symbols, a.IsHighlightable s → ∀ b ∈ a.table.toList, b.site = s.span →
    ∃ h ∈ a.highlights, a.Shows h s ∧ h.isDefinition = true
  /-- No difference goes below zero. -/
  ascends : Highlight.Ascends 0 0 a.highlights
  /-- The differences lead back to the highlights. -/
  decoded : Highlight.decode (Highlight.encode a.highlights) = some a.highlights
  /-- All numbers have at most 32 bits. -/
  sized : ∀ h ∈ a.highlights,
    h.line < UInt32.size ∧ h.column < UInt32.size ∧ h.length < UInt32.size

/-- The symbols that are highlighted, and how. -/
theorem mem_highlights {h : Highlight} :
    h ∈ a.highlights ↔ ∃ s ∈ a.symbols, a.IsHighlightable s ∧ a.Shows h s ∧
      ∃ b, a.highlightBinding s = some (b, h.isDefinition) ∧ h.cls = .ofKind b.kind ∧
        h.isConstant = (b.kind == .constant) := by
  unfold highlights occurrences
  simp only [List.mem_filterMap, List.mem_filter]
  constructor
  · rintro ⟨s, ⟨hs, hmeets⟩, hsome⟩
    split at hsome
    · next hline =>
      obtain ⟨⟨b, d⟩, hbinding, rfl⟩ := Option.map_eq_some_iff.1 hsome
      exact ⟨s, hs, ⟨eq_of_beq hline, by simpa using hmeets⟩, ⟨rfl, rfl⟩, b, hbinding, rfl, rfl⟩
    · cases hsome
  · rintro ⟨s, hs, ⟨hline, hmeets⟩, ⟨hplace, hlength⟩, b, hbinding, hcls, hconstant⟩
    refine ⟨s, ⟨hs, by simpa using hmeets⟩, ?_⟩
    simp only [lines] at hline hplace hlength
    simp only [hline, beq_self_eq_true, if_true, hbinding, hplace, hlength, Option.map_some]
    rw [← hcls, ← hconstant]

/-- A binding that is defined at a symbol gives it its class. -/
theorem highlightBinding_of_site_eq {b : Binding} {s : Symbol} (hb : b ∈ a.table.toList)
    (hsite : b.site = s.span) : ∃ d, a.highlightBinding s = some (d, true) := by
  have hmem : b ∈ a.table.toList.filter (·.site == s.span) :=
    List.mem_filter.2 ⟨hb, beq_iff_eq.2 hsite⟩
  have hlast := List.getLast?_eq_some_getLast (List.ne_nil_of_mem hmem)
  exact ⟨_, by rw [highlightBinding, hlast]⟩

section Order

variable (hsrc : a.source.Sound) (hsymbols : a.symbols = a.source.symbols)
include hsrc hsymbols

/-- A symbol goes to the right of those before it, or to a later line. -/
theorem pairwise_position :
    a.symbols.Pairwise fun s t => ∀ g h, a.Shows g s → a.Shows h t →
      g.line ≤ h.line ∧
        (g.line = h.line → g.column + g.length ≤ h.column ∧ g.column < h.column) := by
  rw [hsymbols]
  refine a.source.pairwise_symbols.imp_of_mem ?_
  intro s t hs ht hlt g h hg hh
  have hplaces := Lines.position_of_stop_lt hsrc.clean (hsrc.symbols s hs) (hsrc.symbols t ht)
    (Source.start_lt_stop_of_mem_symbols hs) hlt
  obtain ⟨hg, hlength⟩ := hg
  obtain ⟨hh, -⟩ := hh
  simp only [lines] at hg hh hlength
  simpa only [hg, hh, hlength] using hplaces

/-- The highlights keep apart as the symbols do that they show. -/
theorem pairwise_highlights :
    a.highlights.Pairwise fun g h =>
      g.line ≤ h.line ∧
        (g.line = h.line → g.column + g.length ≤ h.column ∧ g.column < h.column) := by
  refine List.Pairwise.filterMap _ ?_ ((pairwise_position hsrc hsymbols).filter _)
  intro s t hst g hg h hh
  simp only [Option.ite_none_right_eq_some, Option.map_eq_some_iff] at hg hh
  obtain ⟨-, ⟨b, d⟩, -, rfl⟩ := hg
  obtain ⟨-, ⟨b', d'⟩, -, rfl⟩ := hh
  exact hst _ _ ⟨rfl, rfl⟩ ⟨rfl, rfl⟩

/-- No highlight shows two symbols. -/
theorem eq_of_shows {h : Highlight} {s t : Symbol} (hs : s ∈ a.symbols) (ht : t ∈ a.symbols)
    (hshows : a.Shows h s) (hshown : a.Shows h t) : s = t := by
  have hapart : a.symbols.Pairwise fun s t => ¬(a.Shows h s ∧ a.Shows h t) := by
    refine (pairwise_position hsrc hsymbols).imp ?_
    rintro s t hst ⟨hs, ht⟩
    exact Nat.lt_irrefl _ ((hst h h hs ht).2 rfl).2
  have : Std.Symm fun s t => ¬(a.Shows h s ∧ a.Shows h t) := ⟨fun _ _ hst hts => hst hts.symm⟩
  by_contra hne
  exact hapart.forall hs ht hne ⟨hshows, hshown⟩

end Order

/-- Lines, columns and lengths are no greater than the size of the text. -/
theorem Shows.le_length {text : String} (hsrc : a.source = .ofText text)
    (hsymbols : a.symbols = a.source.symbols) {h : Highlight} {s : Symbol} (hs : s ∈ a.symbols)
    (hshows : a.Shows h s) :
    h.line ≤ text.utf8ByteSize ∧ h.column ≤ text.utf8ByteSize ∧ h.length ≤ text.utf8ByteSize := by
  have hclean := clean_bytes text
  have hfits : Fits (bytes text) s.span := by
    rw [hsymbols, hsrc] at hs
    exact (Source.sound_ofText text).symbols s hs
  have hlines : a.lines = .ofBytes (bytes text) := by rw [lines, hsrc]; rfl
  obtain ⟨hplace, hlength⟩ := hshows
  rw [hlines, Lines.position_of_boundary hclean hfits.start, Position.mk.injEq] at hplace
  rw [hlines, Lines.unitLength_of_fits hfits] at hlength
  rw [← hplace.1, ← hplace.2, ← hlength, ← length_bytes]
  exact ⟨Lines.lineOf_le _ _, unitLength_cut_le (Lines.fits_startOf hclean hfits.start),
    unitLength_cut_le hfits⟩

/-- The highlights of every document smaller than 2³² bytes are well formed, whatever the
settings. -/
theorem wellHighlighted_analyze (settings : Settings) (text : String)
    (hsize : text.utf8ByteSize < UInt32.size) : (analyze settings text).WellHighlighted := by
  have hsource : (analyze settings text).source = .ofText text := by rw [analyze_eq]
  have hsymbols : (analyze settings text).symbols = (analyze settings text).source.symbols := by
    rw [analyze_eq]
  have hsrc : (analyze settings text).source.Sound := hsource ▸ Source.sound_ofText text
  generalize analyze settings text = a at hsource hsymbols hsrc ⊢
  have hpairwise := pairwise_highlights hsrc hsymbols
  have hincreasing : a.highlights.Pairwise Highlight.Before := by
    refine hpairwise.imp ?_
    intro g h hgh
    unfold Highlight.Before
    omega
  have hascends : Highlight.Ascends 0 0 a.highlights :=
    Highlight.ascends_of_pairwise (fun h _ => ⟨Nat.zero_le _, fun _ => Nat.zero_le _⟩) hincreasing
  constructor
  case increasing => exact hincreasing
  case disjoint => exact hpairwise.imp fun hgh heq => (hgh.2 heq).1
  case symbols =>
    intro h hh
    obtain ⟨s, hs, hable, hshows, -⟩ := mem_highlights.1 hh
    refine ⟨s, ⟨⟨hs, hable⟩, hshows⟩, ?_⟩
    rintro t ⟨⟨ht, -⟩, hshown⟩
    exact eq_of_shows hsrc hsymbols ht hs hshown hshows
  case definitions =>
    intro s hs hable b hb hsite
    obtain ⟨d, hd⟩ := highlightBinding_of_site_eq hb hsite
    refine ⟨⟨_, _, _, .ofKind d.kind, true, d.kind == .constant⟩, mem_highlights.2 ?_, ⟨rfl, rfl⟩,
      rfl⟩
    exact ⟨s, hs, hable, ⟨rfl, rfl⟩, d, hd, rfl, rfl⟩
  case ascends => exact hascends
  case decoded => exact Highlight.decodeFrom_encodeFrom hascends
  case sized =>
    intro h hh
    obtain ⟨s, hs, -, hshows, -⟩ := mem_highlights.1 hh
    have := hshows.le_length hsource hsymbols hs
    omega

/-- The law applies to a text with a definition over two lines and a character of two units. -/
theorem wellHighlighted_analyze_lines :
    "(defun f (😀)\n  (f 😀))".utf8ByteSize < UInt32.size ∧
      (analyze {} "(defun f (😀)\n  (f 😀))").WellHighlighted := by
  have hsize : "(defun f (😀)\n  (f 😀))".utf8ByteSize < UInt32.size := by decide +kernel
  exact ⟨hsize, wellHighlighted_analyze {} _ hsize⟩

end Analysis

end LexScope
