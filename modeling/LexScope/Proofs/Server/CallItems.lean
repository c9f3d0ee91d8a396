import LexScope.Proofs.Document.CallGraph
import LexScope.Proofs.Text.Places
import LexScope.Server.Query

/-!
# Items of the call graph say which node they are

An editor keeps a node of the call graph as a record and gives it back later. Of this record only
the mark of the document and the place of the name are read. The place leads back to the offset at
which the name starts, since an atom starts there and no line ends; and no other name is at that
offset, since names of definitions leave gaps.
-/

namespace LexScope

open Utf8

/-! ## Items as they are written and read -/

namespace Protocol

variable {lines : Lines} {s : Span} {p : Position}

/-- The numbers of a place fit into 32 bits. -/
def FitsPosition (p : Position) : Prop := p.line ≤ 4294967295 ∧ p.character ≤ 4294967295

/-- The places at the ends of a span fit into 32 bits. -/
def FitsRange (lines : Lines) (s : Span) : Prop :=
  FitsPosition (lines.position s.start) ∧ FitsPosition (lines.position s.stop)

private theorem unsigned32?_ofNat {n : Nat} (h : n ≤ 4294967295) :
    (Json.ofNat n).unsigned32? = some n := by
  have hbounds : (0 : Int) ≤ (n : Int) ∧ (n : Int) ≤ 4294967295 := by omega
  rw [Json.ofNat, Json.unsigned32?, Json.int?, if_pos hbounds, Option.map_some, Int.toNat_natCast]

private theorem position?_position (h : FitsPosition p) : position? (position p) = some p := by
  simp [position?, position, Json.record?, Json.member?, unsigned32?_ofNat h.1,
    unsigned32?_ofNat h.2]

private theorem range?_range (h : FitsRange lines s) :
    range? (range lines s) = some (lines.position s.start, lines.position s.stop) := by
  simp [range?, range, Json.record?, Json.member?, position?_position h.1, position?_position h.2]

private theorem accepts_position (h : FitsPosition p) :
    Parameters.position.accepts (some (position p)) = true := by
  simp [Parameters.position, position, Shape.accepts, Shape.acceptsMembers, Json.member?,
    unsigned32?_ofNat h.1, unsigned32?_ofNat h.2]

private theorem accepts_range (h : FitsRange lines s) :
    Parameters.range.accepts (some (range lines s)) = true := by
  simp [Parameters.range, range, Shape.accepts, Shape.acceptsMembers, Json.member?,
    accepts_position h.1, accepts_position h.2]

private theorem signed32?_kind (kind : Option BindingKind) :
    (Json.ofNat ((kind.map symbolKind).getD documentKind)).signed32?.isSome = true := by
  cases kind with
  | none => rfl
  | some k => cases k <;> rfl

/-- A node is read back from its record with its URI in the one spelling, the start of its name and
whether it is the document. -/
theorem callItem?_callItem {uri spelling : String} (huri : Uri.normalize? uri = some spelling)
    {n : CallNode} (hspan : FitsRange lines n.span) (hselection : FitsRange lines n.selection) :
    callItem? (callItem uri lines n) =
      some ⟨spelling, lines.position n.selection.start, n.kind.isNone⟩ := by
  have hkind := signed32?_kind n.kind
  have hrange := accepts_range hspan
  have hchosen := accepts_range hselection
  have haccepts : (Shape.record Parameters.callItemFields).accepts
      (some (callItem uri lines n)) = true := by
    cases hk : n.kind <;>
      simp [callItem, Json.ofMembers, Parameters.callItemFields, Parameters.hierarchyFields,
        Parameters.text, Parameters.data, Shape.accepts, Shape.acceptsMembers, Json.member?,
        Json.string?, Json.isNull, Shape.isUri, hk, huri, hrange, hchosen] <;>
      simpa [hk] using hkind
  rw [callItem?, if_pos haccepts]
  cases hk : n.kind <;>
    simp [callItem, Json.ofMembers, Json.record?, Json.member?, Json.string?, uri?, hk, huri,
      range?_range hselection]

end Protocol

/-! ## From the place of a name to the node -/

/-- At the start of a name no other definition is found. -/
theorem CallGraph.Arranged.nodeNamedAt_start {g : CallGraph} {whole : Span}
    {definitions : List Binding} (h : Arranged g.nodes whole definitions) {k : Nat} {b : Binding}
    (hb : b ∈ definitions) (hk : IsNodeOf g.nodes k b) : g.nodeNamedAt b.site.start = some k := by
  have hproper := h.proper b hb
  have htouches : (nodeOf b).selection.touches b.site.start = true :=
    Span.touches_iff.2 ⟨Nat.le_refl _, Nat.le_of_lt hproper⟩
  have hlisted : (nodeOf b, k) ∈ numbered g.nodes := mem_numbered.2 ⟨hk.definition, hk.node⟩
  obtain ⟨⟨n, i⟩, hfound⟩ : ∃ found, (numbered g.nodes).find?
      (fun n => n.1.selection.touches b.site.start) = some found :=
    Option.isSome_iff_exists.1 (List.find?_isSome.2 ⟨_, hlisted, htouches⟩)
  have hi : i = k := by
    obtain ⟨hne, hn⟩ := mem_numbered.1 (List.mem_of_find?_eq_some hfound)
    have hthere := List.find?_some hfound
    rw [Span.touches_iff] at hthere
    by_contra hik
    have hgap := (h.apart i k n _ hne hk.definition hik hn hk.node).2
    simp only [nodeOf] at hgap hthere
    omega
  rw [nodeNamedAt, hfound, Option.map_some, hi]

/-- The start of an atom is found by its place. -/
theorem Source.HasAtom.offset_position {text : String} (hapart : CommentsApart (Utf8.bytes text))
    {p : Pair} {e : Element} (h : (Source.ofText text).HasAtom p e)
    (hfits : Fits (Utf8.bytes text) e.span) :
    (Lines.ofBytes (Utf8.bytes text)).offset
        ((Lines.ofBytes (Utf8.bytes text)).position e.span.start) = .ok e.span.start := by
  refine Lines.offset_position (clean_bytes text) hfits.start ?_
  obtain ⟨b, rest, hdrop, hb⟩ := (h.atomAt hapart).exists_drop
  have hget := head_of_drop_cons hdrop
  rintro ⟨-, -, hend | hnewline⟩
  · rw [hend, List.getElem?_eq_none (Nat.le_refl _)] at hget
    cases hget
  · rw [hget] at hnewline
    rw [Option.some.inj hnewline] at hb
    cases hb

namespace Query

open CallGraph

/-- The record is the item of a node, and whoever gives it back means this node: it is found again,
and questions about the item are answered about it. -/
structure Identifies (a : Analysis) (uri spelling : String) (k : Nat) (j : Json) : Prop where
  /-- It is the item of the node. -/
  item : callItem? a.callGraph uri (linesOf a) k = some j
  /-- It is read back, and the node is found. -/
  read : ∃ item, Protocol.callItem? j = some item ∧ item.uri = spelling ∧
    nodeOfItem a.callGraph (linesOf a) item = some k ∧
    incomingCalls item a = answer "from" spelling a (a.callGraph.incoming k) ∧
    outgoingCalls item a = answer "to" spelling a (a.callGraph.outgoing k)

/-- The items of a document say which node they are, also the item from which an editor starts. -/
structure NodesIdentified (a : Analysis) (uri spelling : String) : Prop where
  /-- Each node has an item that identifies it. -/
  nodes : ∀ k < a.callGraph.nodes.length, ∃ j, Identifies a uri spelling k j
  /-- The item for an offset is that of the only node that stands where the definition of the symbol
  there is named. -/
  prepared : ∀ offset j, prepareCalls uri a offset = some j → ∃ s b k i,
    a.targetAt offset = some (s, b) ∧ IsNodeOf a.callGraph.nodes k b ∧
      (∀ m n, a.callGraph.nodes[m]? = some n → n.selection = b.site → m = k) ∧
      j = .array [i] ∧ Identifies a uri spelling k i

section Nodes

variable {a : Analysis} {uri spelling : String} {k : Nat} {n : CallNode}

/-- An item that leads back to its node identifies it. -/
theorem identifies_of_nodeOfItem (huri : Uri.normalize? uri = some spelling)
    (hn : a.callGraph.nodes[k]? = some n) (hspan : Protocol.FitsRange (linesOf a) n.span)
    (hselection : Protocol.FitsRange (linesOf a) n.selection)
    (hback : nodeOfItem a.callGraph (linesOf a)
      ⟨spelling, (linesOf a).position n.selection.start, n.kind.isNone⟩ = some k) :
    Identifies a uri spelling k (Protocol.callItem uri (linesOf a) n) := by
  refine ⟨by rw [callItem?, hn, Option.map_some],
    ⟨_, Protocol.callItem?_callItem huri hspan hselection, rfl, hback, ?_, ?_⟩⟩
  · simp only [incomingCalls, calls, hback]
  · simp only [outgoingCalls, calls, hback]

/-- The places of the document fit, and the names of its definitions are found by theirs. -/
structure Locates (a : Analysis) : Prop where
  /-- The places at the ends of the document fit. -/
  document : Protocol.FitsRange (linesOf a) ⟨0, a.source.bytes.length⟩ ∧
    Protocol.FitsRange (linesOf a) (.point 0)
  /-- The places of a definition and of its name fit. -/
  definitions : ∀ b ∈ a.table.callables,
    Protocol.FitsRange (linesOf a) b.form ∧ Protocol.FitsRange (linesOf a) b.site
  /-- The place where a name starts leads back to it. -/
  names : ∀ b ∈ a.table.callables,
    (linesOf a).offset ((linesOf a).position b.site.start) = .ok b.site.start

variable (hnodes : Arranged a.callGraph.nodes ⟨0, a.source.bytes.length⟩ a.table.callables)
  (hlocates : Locates a) (huri : Uri.normalize? uri = some spelling)
include hnodes hlocates huri

private theorem identifies_document :
    Identifies a uri spelling document (Protocol.callItem uri (linesOf a)
      ⟨documentName, none, ⟨0, a.source.bytes.length⟩, .point 0⟩) :=
  identifies_of_nodeOfItem huri hnodes.first hlocates.document.1 hlocates.document.2 rfl

private theorem identifies_definition {b : Binding} (hb : b ∈ a.table.callables)
    (hk : IsNodeOf a.callGraph.nodes k b) :
    Identifies a uri spelling k (Protocol.callItem uri (linesOf a) (nodeOf b)) := by
  obtain ⟨hform, hsite⟩ := hlocates.definitions b hb
  refine identifies_of_nodeOfItem huri hk.node hform hsite ?_
  rw [nodeOfItem, if_neg (by simp [nodeOf])]
  simp only [nodeOf, hlocates.names b hb, Except.toOption, Option.bind_some]
  exact hnodes.nodeNamedAt_start hb hk

end Nodes

/-- In a document without block comments names are found by their places, and these fit if the
document is short enough. -/
theorem locates_analyze (settings : Settings) {text : String}
    (hbar : ¬[Byte.hash, Byte.bar] <:+: bytes text) (hlength : (bytes text).length < 2 ^ 32) :
    Locates (analyze settings text) := by
  have hapart := commentsApart_of_not_isInfix hbar
  have hlines : linesOf (analyze settings text) = .ofBytes (bytes text) := by
    rw [analyze_eq]
    rfl
  have hrange : ∀ s, Fits (bytes text) s → Protocol.FitsRange (.ofBytes (bytes text)) s := by
    intro s hs
    have hstart := Lines.position_le hs.start
    have hstop := Lines.position_le hs.stop
    exact ⟨⟨by omega, by omega⟩, ⟨by omega, by omega⟩⟩
  have hwhole : Fits (bytes text) ⟨0, (bytes text).length⟩ :=
    .of_le (Nat.zero_le _) (clean_bytes text).zero (boundary_length _)
  have hsound : ∀ b ∈ (Table.ofSource (Source.ofText text) settings.collection).callables,
      Binding.Sound (Source.ofText text) b := fun b hb =>
    (Table.sound_ofSource (Source.sound_ofText text) settings.collection).bindings
      .globalDefinition b (List.mem_filter.1 hb).1
  constructor <;> rw [hlines, analyze_eq]
  case document => exact ⟨hrange _ hwhole, hrange _ (fits_point (clean_bytes text).zero)⟩
  case definitions =>
    exact fun b hb => ⟨hrange _ (hsound b hb).form, hrange _ (hsound b hb).site⟩
  case names =>
    intro b hb
    obtain ⟨q, e, he, hspan⟩ :=
      Table.exists_hasAtom_of_mem_callables (Source.nests_ofText text) hb
    exact hspan ▸ he.offset_position hapart (hspan ▸ (hsound b hb).site)

/-- Every item of the call graph identifies its node, in a document without block comments whose
places fit into 32 bits. -/
theorem nodesIdentified_analyze (settings : Settings) (text : String)
    (hbar : ¬[Byte.hash, Byte.bar] <:+: bytes text) (hlength : (bytes text).length < 2 ^ 32)
    {uri spelling : String} (huri : Uri.normalize? uri = some spelling) :
    NodesIdentified (analyze settings text) uri spelling := by
  have hnodes := Analysis.arranged_analyze settings hbar
  have hlocates := locates_analyze settings hbar hlength
  have hcallable : ∀ offset b, (analyze settings text).callableAt offset = some b →
      b ∈ (analyze settings text).table.callables := by
    intro offset b
    rw [analyze_eq]
    exact Analysis.mem_callables_of_callableAt (Source.nests_ofText text) rfl
  generalize analyze settings text = a at hnodes hlocates hcallable
  constructor
  case nodes =>
    intro k hk
    by_cases hzero : k = document
    · rw [hzero]
      exact ⟨_, identifies_document hnodes hlocates huri⟩
    · have hget := List.getElem?_eq_getElem hk
      obtain ⟨b, hb, hnode⟩ := (hnodes.others _).1 ⟨k, hzero, hget⟩
      exact ⟨_, identifies_definition hnodes hlocates huri hb ⟨hzero, hnode ▸ hget⟩⟩
  case prepared =>
    intro offset j hj
    obtain ⟨i, hi, rfl⟩ := Option.map_eq_some_iff.1 hj
    obtain ⟨b, hb, hi⟩ := Option.bind_eq_some_iff.1 hi
    have hmem := hcallable offset b hb
    obtain ⟨s, htarget, -, -⟩ := Analysis.callableAt_eq_some_iff.1 hb
    obtain ⟨k, hk⟩ := hnodes.exists_isNodeOf hmem
    have hitem : some (Protocol.callItem uri (linesOf a) (nodeOf b)) = some i := by
      simpa [hnodes.nodeNamedAt_start hmem hk, callItem?, hk.node] using hi
    refine ⟨s, b, k, i, htarget, hk, fun m n hn hselection => ?_, rfl,
      Option.some.inj hitem ▸ identifies_definition hnodes hlocates huri hmem hk⟩
    by_cases hzero : m = document
    · -- The document has no name.
      have hproper := hnodes.proper b hmem
      rw [hzero, hnodes.first] at hn
      rw [← hselection, ← Option.some.inj hn] at hproper
      exact absurd hproper (Nat.lt_irrefl _)
    · exact hnodes.eq_of_selection hmem hk hzero hn hselection

private theorem shows_document (mode : Mode) :
    (Source.ofText "(defun document ())\n(defun document ())").Shows mode
      [(⟨⟨0, 18⟩, .global .function⟩,
          [.binding .globalDefinition (.global "document" ⟨7, 15⟩ .function ⟨0, 19⟩)]),
        (⟨⟨20, 38⟩, .global .function⟩,
          [.binding .globalDefinition (.global "document" ⟨27, 35⟩ .function ⟨20, 39⟩)])]
      [⟨"defun", ⟨1, 6⟩⟩, ⟨"document", ⟨7, 15⟩⟩, ⟨"defun", ⟨21, 26⟩⟩,
        ⟨"document", ⟨27, 35⟩⟩] where
  nothing := by cases mode <;> cbv
  all := by
    rw [BindingForm.all_eq, (by cbv : BindingForm.words _ _ = [(⟨0, 18⟩, "defun"),
      (⟨20, 38⟩, "defun")])]
    rfl
  entries := by
    rw [List.forall_mem_cons, List.forall_mem_singleton,
      BindingForm.entries_global (by cbv : BindingForm.word? _ ⟨0, 18⟩ = some "defun"),
      BindingForm.entries_global (by cbv : BindingForm.word? _ ⟨20, 38⟩ = some "defun")]
    constructor <;> cbv
  quoted := by cbv
  symbols_eq := by cbv

/-- Two definitions of one name, which is also the name of the document, are told apart: each node
has an item that identifies it, and the name of the second definition leads to its node. -/
theorem nodesIdentified_analyze_document :
    ¬[Byte.hash, Byte.bar] <:+: bytes "(defun document ())\n(defun document ())" ∧
      (bytes "(defun document ())\n(defun document ())").length < 2 ^ 32 ∧
      Uri.normalize? "file:///a" = some "file:///a" ∧
      NodesIdentified (analyze {} "(defun document ())\n(defun document ())") "file:///a"
        "file:///a" ∧
      (∀ k < 3, ∃ j, Identifies (analyze {} "(defun document ())\n(defun document ())") "file:///a"
        "file:///a" k j) ∧
      ∃ j, prepareCalls "file:///a" (analyze {} "(defun document ())\n(defun document ())") 27 =
          some (.array [j]) ∧
        Identifies (analyze {} "(defun document ())\n(defun document ())") "file:///a"
          "file:///a" 2 j := by
  have hbar : ¬[Byte.hash, Byte.bar] <:+: bytes "(defun document ())\n(defun document ())" := by
    decide +kernel
  have hlength : (bytes "(defun document ())\n(defun document ())").length < 2 ^ 32 := by
    decide +kernel
  have huri : Uri.normalize? "file:///a" = some "file:///a" := by decide +kernel
  have hlaw := nodesIdentified_analyze {} _ hbar hlength huri
  have hshows := shows_document
  generalize "(defun document ())\n(defun document ())" = text at *
  have htable (mode : Mode) : Table.ofSource (.ofText text) mode =
      { globalDefinitions := [.global "document" ⟨7, 15⟩ .function ⟨0, 19⟩,
          .global "document" ⟨27, 35⟩ .function ⟨20, 39⟩] } := by
    rw [(hshows mode).table_eq]
    rfl
  have hnodes : (analyze {} text).callGraph.nodes =
      [⟨documentName, none, ⟨0, (bytes text).length⟩, .point 0⟩,
        ⟨"document", some .function, ⟨0, 19⟩, ⟨7, 15⟩⟩,
        ⟨"document", some .function, ⟨20, 39⟩, ⟨27, 35⟩⟩] := by
    simp only [analyze_eq, htable, Analysis.callGraph, Analysis.callNodes]
    refine congrArg₂ List.cons rfl ?_
    cbv
  have htarget : (analyze {} text).targetAt 27 = some (⟨"document", ⟨27, 35⟩⟩,
      .global "document" ⟨27, 35⟩ .function ⟨20, 39⟩) := by
    simp only [analyze_eq, htable, (hshows .nothing).symbols_eq, Analysis.targetAt,
      Analysis.symbolAt, Analysis.excluded, (hshows _).nothing, Analysis.bindingOf,
      Analysis.resolve, (hshows .nothing).quoted]
    cbv
  have hcallable : (analyze {} text).callableAt 27 =
      some (.global "document" ⟨27, 35⟩ .function ⟨20, 39⟩) := by
    rw [Analysis.callableAt, htarget]
    rfl
  have hnamed : (analyze {} text).callGraph.nodeNamedAt 27 = some 2 := by
    rw [nodeNamedAt, hnodes]
    rfl
  have hprepared : (prepareCalls "file:///a" (analyze {} text) 27).isSome = true := by
    simp [prepareCalls, callItemAt, hcallable, Binding.global, hnamed, callItem?, hnodes]
  refine ⟨hbar, hlength, huri, hlaw, fun k hk => hlaw.nodes k (hnodes ▸ hk), ?_⟩
  obtain ⟨j, hj⟩ := Option.isSome_iff_exists.1 hprepared
  obtain ⟨s, b, k, i, hfound, -, honly, rfl, hitem⟩ := hlaw.prepared 27 j hj
  have hsite : b.site = ⟨27, 35⟩ := by
    rw [htarget] at hfound
    cases hfound
    rfl
  obtain rfl : 2 = k := honly 2 _ (by rw [hnodes]; rfl) hsite.symm
  exact ⟨i, hj, hitem⟩

end Query

end LexScope
