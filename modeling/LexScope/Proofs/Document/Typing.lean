import LexScope.Proofs.Document.Completion
import LexScope.Proofs.Text.Decoding
import LexScope.Proofs.Text.Case

/-!
# Typing the beginning of a name

What is typed is compared with names that are kept in lower case, so it is brought into lower case
as well. For names that takes the mapping of Unicode, for what is typed only that of ASCII. The
beginning of a name therefore proposes the name exactly if both mappings agree on each of its
characters: always in ASCII, and beyond it for characters that are written in lower case already.
-/

namespace LexScope

/-! ## Two ways into lower case -/

/-- On the character the mapping of Unicode agrees with that of ASCII. -/
def LowersAlike (c : Char) : Prop := lowerChars [] [c] = [c.toLower]

instance : DecidablePred LowersAlike := fun _ => inferInstanceAs (Decidable (_ = _))

/-- The mappings agree on ASCII, and on what Unicode leaves alone. -/
theorem lowersAlike_iff (c : Char) : LowersAlike c ↔ c.toNat < 128 ∨ lowerChars [] [c] = [c] := by
  rcases Nat.lt_or_ge c.toNat 128 with hlt | hge
  · have hsigma : c ≠ 'Σ' := by rintro rfl; simp at hlt
    have hdotted : c ≠ 'İ' := by rintro rfl; simp at hlt
    simp [LowersAlike, lowerChars, hsigma, hdotted, lowerChar, hlt]
  · rw [LowersAlike, charToLower_of_le hge]
    exact ⟨.inr, fun h => h.resolve_left (Nat.not_lt.2 hge)⟩

/-- In ASCII lower case some characters are the beginning of what Unicode makes of a longer text
exactly if the mappings agree on them. -/
theorem map_toLower_isPrefix_lowerChars (before typed rest : List Char) :
    typed.map Char.toLower <+: lowerChars before (typed ++ rest) ↔ ∀ c ∈ typed, LowersAlike c := by
  induction typed generalizing before with
  | nil => simp
  | cons c typed ih =>
    rw [List.forall_mem_cons, ← ih (c :: before), List.cons_append, List.map_cons]
    -- Two capitals are mapped in a way of their own, and ASCII keeps both of them.
    by_cases hsigma : c = 'Σ'
    · have hnot : ¬LowersAlike c := by subst hsigma; decide
      have hfirst (image : Char) (h : image = 'ς' ∨ image = 'σ') : c.toLower ≠ image := by
        subst hsigma; rcases h with rfl | rfl <;> decide
      rw [lowerChars, if_pos (beq_iff_eq.2 hsigma), List.singleton_append, List.cons_prefix_cons]
      refine iff_of_false (fun h => hfirst _ ?_ h.1) fun h => hnot h.1
      split <;> simp
    by_cases hdotted : c = 'İ'
    · have hnot : ¬LowersAlike c := by subst hdotted; decide
      have hfirst : c.toLower ≠ 'i' := by subst hdotted; decide
      rw [lowerChars, if_neg (by simpa using hsigma), if_pos (beq_iff_eq.2 hdotted),
        List.cons_append, List.cons_prefix_cons]
      exact iff_of_false (fun h => hfirst h.1) fun h => hnot h.1
    · rw [lowerChars, if_neg (by simpa using hsigma), if_neg (by simpa using hdotted),
        List.singleton_append, List.cons_prefix_cons, LowersAlike, lowerChars,
        if_neg (by simpa using hsigma), if_neg (by simpa using hdotted)]
      simp [lowerChars, eq_comm]

/-! ## What is typed -/

namespace Utf8

private theorem decode_encode_append (chars : List Char) (rest : List UInt8) :
    decode (encode chars ++ rest) = chars ++ decode rest := by
  induction chars with
  | nil => rfl
  | cons c chars ih =>
    rw [encode_cons, List.append_assoc, decode_utf8EncodeChar, ih, List.cons_append]

/-- The span holds the longest run of bytes before the offset in which no name ends. -/
structure IsTyped (source : List UInt8) (offset : Nat) (s : Span) : Prop where
  /-- The span is in order. -/
  ordered : s.start ≤ s.stop
  /-- It ends at the offset, or where the text does. -/
  stop : s.stop = min offset source.length
  /-- No name ends in it. -/
  inside : ∀ b ∈ cut source s, Byte.isDelimiter b = false
  /-- A name ends right before it, unless the text starts there. -/
  before : ∀ i, i + 1 = s.start → source[i]?.any Byte.isDelimiter = true

namespace IsTyped

variable {source : List UInt8} {offset : Nat} {s : Span}

private theorem boundary_start (h : IsTyped source offset s) (hclean : Clean source) :
    Boundary source s.start := by
  obtain hzero | ⟨i, hi⟩ : s.start = 0 ∨ ∃ i, i + 1 = s.start := by
    cases s.start <;> simp
  · exact hzero ▸ hclean.zero
  · obtain ⟨b, hb, hdelimiter⟩ := (Option.any_eq_true _ _).1 (h.before i hi)
    exact hi ▸ hclean.succ i b hb (Byte.isAscii_of_isDelimiter hdelimiter)

/-- Going back from the offset over what ends no name leads to the start of the run. -/
theorem length_takeWhile (h : IsTyped source offset s) :
    ((source.take (min offset source.length)).reverse.takeWhile
      fun b => !Byte.isDelimiter b).length = s.length := by
  have hle : s.stop ≤ source.length := h.stop ▸ Nat.min_le_right _ _
  have hsplit : source.take s.stop = source.take s.start ++ cut source s := by
    rw [cut, ← List.take_add, Span.length, Nat.add_sub_cancel' h.ordered]
  have hbefore : (source.take s.start).reverse.takeWhile (fun b => !Byte.isDelimiter b) = [] := by
    obtain hzero | ⟨i, hi⟩ : s.start = 0 ∨ ∃ i, i + 1 = s.start := by
      cases s.start <;> simp
    · simp [hzero]
    · obtain ⟨b, hb, hdelimiter⟩ := (Option.any_eq_true _ _).1 (h.before i hi)
      rw [← hi, List.take_add_one, hb]
      simp [hdelimiter]
  rw [← h.stop, hsplit, List.reverse_append, List.takeWhile_append_of_pos, hbefore,
    List.append_nil, List.length_reverse, length_cut hle]
  · rfl
  · intro b hb
    rw [h.inside b (List.mem_reverse.1 hb)]
    rfl

end IsTyped

end Utf8

namespace Analysis

open Utf8

variable {settings : Settings} {text : String} {offset : Nat} {typed : Span}

private theorem typedAt_eq {a : Analysis} (h : IsTyped a.source.bytes offset typed) :
    a.typedAt offset = ((cut? a.source.bytes typed).map fun bytes =>
      lowerAscii (String.ofList (decode bytes))).getD "" := by
  have hstart : min offset a.source.bytes.length - typed.length = typed.start := by
    have := h.stop
    have := h.ordered
    simp only [Span.length]
    omega
  simp only [typedAt, h.length_takeWhile, hstart]
  rw [← h.stop]
  cases cut? a.source.bytes typed <;> rfl

/-- Inside a character nothing is typed. -/
theorem typedAt_of_not_boundary {a : Analysis} (h : IsTyped a.source.bytes offset typed)
    (hstop : ¬Boundary a.source.bytes typed.stop) : a.typedAt offset = "" := by
  have hnone : cut? a.source.bytes typed = none := by
    rw [← Option.not_isSome_iff_eq_none, cut?_isSome_iff]
    exact fun hfits => hstop hfits.stop
  rw [typedAt_eq h, hnone]
  rfl

/-- Anywhere else it is the run before the offset in ASCII lower case. -/
theorem typedAt_of_boundary {a : Analysis} (h : IsTyped a.source.bytes offset typed)
    (hclean : Clean a.source.bytes) (hstop : Boundary a.source.bytes typed.stop) :
    a.typedAt offset = lowerAscii (slice a.source.bytes typed) := by
  have hstart := h.boundary_start hclean
  have hsome : cut? a.source.bytes typed = some (cut a.source.bytes typed) :=
    if_pos ⟨h.ordered, hstop.le_length, hstart, hstop⟩
  rw [typedAt_eq h, hsome]
  rfl

/-! ## What is proposed -/

/-- Each name of a list is described. -/
theorem exists_mem_describe {l : List Binding} {b : Binding} (hb : b ∈ l) :
    ∃ d ∈ describe l, d.name = b.name := by
  fun_induction describe l with
  | case1 => cases hb
  | case2 first rest ih =>
    have hdescribes := foldl_preferred_describes first (rest.takeWhile (·.name == first.name))
    have htaken : ∀ c ∈ rest.takeWhile (·.name == first.name), c.name = first.name :=
      fun c hc => eq_of_beq (List.mem_takeWhile_imp (p := fun c : Binding => _ == first.name) hc)
    by_cases hname : b.name = first.name
    · refine ⟨_, List.mem_cons_self, ?_⟩
      rcases List.mem_cons.1 hdescribes.mem with heq | hmem
      · rw [heq, hname]
      · rw [hname, htaken _ hmem]
    · have hrest : b ∈ rest.dropWhile (·.name == first.name) := by
        have hmem : b ∈ rest := (List.mem_cons.1 hb).resolve_left fun heq => hname (heq ▸ rfl)
        rw [← List.takeWhile_append_dropWhile (p := (·.name == first.name)) (l := rest)] at hmem
        exact (List.mem_append.1 hmem).resolve_left fun hmem => hname (htaken b hmem)
      obtain ⟨d, hd, heq⟩ := ih hrest
      exact ⟨d, List.mem_cons_of_mem _ hd, heq⟩

/-- The name of a visible binding is proposed exactly if what is typed is the beginning of it. -/
theorem exists_mem_completions_iff {a : Analysis} {b : Binding} (hb : b ∈ a.bindingsAt offset) :
    (∃ item ∈ a.completions offset, item.label = b.name) ↔
      (a.typedAt offset).toList <+: b.name.toList := by
  rw [← List.isPrefixOf_iff_prefix]
  constructor
  · rintro ⟨item, hitem, hlabel⟩
    obtain ⟨d, hd, rfl⟩ := List.mem_map.1 hitem
    have hmem := (describes_of_mem_describe
      ((a.table.pairwise_visibleAt offset).sublist List.filter_sublist) hd).mem
    have htyped := (List.mem_filter.1 (List.mem_filter.1 hmem).1).2
    rwa [show d.name = b.name from hlabel] at htyped
  · intro htyped
    have hmem : b ∈ (a.bindingsAt offset).filter fun c =>
        (a.typedAt offset).toList.isPrefixOf c.name.toList := List.mem_filter.2 ⟨hb, htyped⟩
    obtain ⟨d, hd, hname⟩ := exists_mem_describe hmem
    exact ⟨completionItem d, List.mem_map_of_mem hd, hname⟩

/-- A visible binding is one of a collection. -/
theorem exists_mem_get_of_mem_bindingsAt {a : Analysis} {b : Binding}
    (hb : b ∈ a.bindingsAt offset) : ∃ c, b ∈ a.table.get c := by
  rcases List.mem_append.1 (List.mem_mergeSort.1 hb) with hglobal | hlexical
  · exact ⟨.globalDefinition, Table.mem_lastOfEach hglobal⟩
  · obtain ⟨c, -, hmem⟩ := List.mem_flatMap.1 (List.mem_filter.1 hlexical).1
    exact ⟨c, hmem⟩

/-- What is written as the beginning of a name is the beginning of the name if it is lower-cased
alike, or if the offset is inside a character. -/
theorem typedAt_isPrefix_iff {b : Binding} (hb : b ∈ (analyze settings text).bindingsAt offset)
    (hkind : b.kind ≠ .package) (htyped : IsTyped (bytes text) offset typed)
    (hbeginning : cut (bytes text) typed <+: cut (bytes text) b.site) :
    ((analyze settings text).typedAt offset).toList <+: b.name.toList ↔
      (Boundary (bytes text) typed.stop →
        ∀ c ∈ decode (cut (bytes text) typed), LowersAlike c) := by
  obtain ⟨c, hmem⟩ := exists_mem_get_of_mem_bindingsAt hb
  have hname := ((regular_of_mem_get hmem).name hkind).1
  have hsource : (analyze settings text).source.bytes = bytes text := by
    rw [analyze_eq]
    rfl
  rw [Source.slice, hsource] at hname
  by_cases hstop : Boundary (bytes text) typed.stop
  · have hstart := htyped.boundary_start (clean_bytes text)
    have htypedAt : (analyze settings text).typedAt offset =
        lowerAscii (slice (bytes text) typed) := by
      rw [← hsource] at htyped hstop ⊢
      exact typedAt_of_boundary htyped (hsource ▸ clean_bytes text) hstop
    obtain ⟨chars, hchars⟩ := exists_chars_of_fits (.of_le htyped.ordered hstart hstop)
    obtain ⟨rest, hrest⟩ := hbeginning
    rw [hchars] at hrest
    rw [htypedAt, hname, lowerAscii, lowerCase, slice, slice, ← hrest, hchars, decode_encode,
      decode_encode_append]
    simp only [String.toList_ofList, map_toLower_isPrefix_lowerChars, hstop, forall_const]
  · have htypedAt : (analyze settings text).typedAt offset = "" :=
      typedAt_of_not_boundary (hsource ▸ htyped) (hsource ▸ hstop)
    simp [htypedAt, hstop]

/-- The beginning of a visible name proposes the name exactly if both ways into lower case agree
on its characters, or if the offset is inside one of them. -/
theorem proposes_iff_lowersAlike (settings : Settings) (text : String) (offset : Nat) {b : Binding}
    (hb : b ∈ (analyze settings text).bindingsAt offset) (hkind : b.kind ≠ .package)
    (htyped : IsTyped (bytes text) offset typed)
    (hbeginning : cut (bytes text) typed <+: cut (bytes text) b.site) :
    (∃ item ∈ (analyze settings text).completions offset, item.label = b.name) ↔
      (Boundary (bytes text) typed.stop →
        ∀ c ∈ decode (cut (bytes text) typed), LowersAlike c) := by
  rw [exists_mem_completions_iff hb]
  exact typedAt_isPrefix_iff hb hkind htyped hbeginning

private theorem cut_umlaut : cut (bytes "(defvar ÄB 1) Ä") ⟨8, 11⟩ = encode ['Ä', 'B'] ∧
    cut (bytes "(defvar ÄB 1) Ä") ⟨15, 17⟩ = encode ['Ä'] := by
  decide

private theorem cut_umlaut_isPrefix : cut (bytes "(defvar ÄB 1) Ä") ⟨15, 17⟩ <+:
    cut (bytes "(defvar ÄB 1) Ä") ⟨8, 11⟩ := by
  rw [cut_umlaut.1, cut_umlaut.2]
  decide

private theorem nameOf_umlaut : Definition.nameOf (.ofText "(defvar ÄB 1) Ä") .specialVariable
    (.mk ⟨.atom, ⟨8, 11⟩, 8, false⟩ []) = some ⟨"äb", ⟨8, 11⟩⟩ := by
  have hlower : lowerCase "ÄB" = "äb" := by decide +kernel
  have hwritten : (Source.ofText "(defvar ÄB 1) Ä").textAt (.mk ⟨.atom, ⟨8, 11⟩, 8, false⟩ []) =
      "ÄB" := by
    change String.ofList (decode (cut (bytes "(defvar ÄB 1) Ä") ⟨8, 11⟩)) = "ÄB"
    rw [cut_umlaut.1, decode_encode]
  have hbindable : isBindable "äb" = true := by decide
  simp [Definition.nameOf, Source.nameAt, Node.quoted, Node.element, Element.isAtom, hwritten,
    hlower, hbindable]

private theorem hasForms_umlaut : (Source.ofText "(defvar ÄB 1) Ä").HasForms
    .commentStringQuoteBackquoteExceptComma
    [(⟨⟨0, 13⟩, .global .specialVariable⟩,
      [.binding .globalDefinition (.global "äb" ⟨8, 11⟩ .specialVariable ⟨0, 14⟩)])] where
  nothing := by cbv
  all := by
    rw [BindingForm.all_eq, (by cbv : BindingForm.words _ _ = [(⟨0, 13⟩, "defvar")])]
    rfl
  entries := by
    rw [List.forall_mem_singleton,
      BindingForm.entries_global (by cbv : BindingForm.word? _ _ = some "defvar"),
      (by cbv : (Source.items _ _).tail = [.mk ⟨.atom, ⟨8, 11⟩, 8, false⟩ [],
        .mk ⟨.atom, ⟨12, 13⟩, 12, false⟩ []]), Definition.entries, nameOf_umlaut]
    rfl

/-- A variable whose name starts with a capital beyond ASCII is visible, and after its form the
beginning of the name is typed as it is written there. -/
theorem mem_bindingsAt_umlaut :
    .global "äb" ⟨8, 11⟩ .specialVariable ⟨0, 14⟩ ∈
      (analyze {} "(defvar ÄB 1) Ä").bindingsAt 17 := by
  have hforms := hasForms_umlaut
  generalize "(defvar ÄB 1) Ä" = text at *
  have htable : Table.ofSource (.ofText text) .commentStringQuoteBackquoteExceptComma =
      { globalDefinitions := [.global "äb" ⟨8, 11⟩ .specialVariable ⟨0, 14⟩] } := by
    rw [hforms.table_eq]
    rfl
  rw [bindingsAt, analyze_eq, htable, Table.visibleAt, List.mem_mergeSort]
  simp [Table.lastOfEach]

private theorem isTyped_umlaut : IsTyped (bytes "(defvar ÄB 1) Ä") 17 ⟨15, 17⟩ where
  ordered := by decide
  stop := by decide
  inside := by
    rw [cut_umlaut.2]
    decide +kernel
  before i hi := by
    have hspace : (bytes "(defvar ÄB 1) Ä")[14]? = some 32 := by cbv
    rw [Nat.succ.inj hi, hspace]
    decide

/-- The capital is typed as the name has it, and it is no beginning of the name in lower case. -/
theorem proposes_iff_lowersAlike_umlaut :
    (∃ item ∈ (analyze {} "(defvar ÄB 1) Ä").completions 17, item.label = "äb") ↔
      (Boundary (bytes "(defvar ÄB 1) Ä") 17 →
        ∀ c ∈ decode (cut (bytes "(defvar ÄB 1) Ä") ⟨15, 17⟩), LowersAlike c) :=
  proposes_iff_lowersAlike {} _ 17 mem_bindingsAt_umlaut (by decide) isTyped_umlaut
    cut_umlaut_isPrefix

/-- Whatever is typed as the beginning of the written name of a visible binding proposes it. -/
def TypingCompletes (a : Analysis) : Prop :=
  ∀ offset, ∀ b ∈ a.bindingsAt offset, b.kind ≠ .package →
    (∀ byte ∈ cut a.source.bytes b.site, Byte.isDelimiter byte = false) →
      ∀ typed, IsTyped a.source.bytes offset typed →
        cut a.source.bytes typed <+: cut a.source.bytes b.site →
          ∃ item ∈ a.completions offset, item.label = b.name

/-- A capital beyond ASCII does not complete the name that starts with it. -/
theorem not_typingCompletes_umlaut : ¬(analyze {} "(defvar ÄB 1) Ä").TypingCompletes := by
  have hsource : (analyze {} "(defvar ÄB 1) Ä").source.bytes = bytes "(defvar ÄB 1) Ä" := by
    rw [analyze_eq]
    rfl
  have hinside : ∀ byte ∈ cut (bytes "(defvar ÄB 1) Ä") ⟨8, 11⟩,
      Byte.isDelimiter byte = false := by
    rw [cut_umlaut.1]
    decide +kernel
  intro h
  unfold TypingCompletes at h
  rw [hsource] at h
  have hproposed := h 17 _ mem_bindingsAt_umlaut (by decide) hinside _ isTyped_umlaut
    cut_umlaut_isPrefix
  rw [exists_mem_completions_iff mem_bindingsAt_umlaut, typedAt_isPrefix_iff mem_bindingsAt_umlaut
    (by decide) isTyped_umlaut cut_umlaut_isPrefix, cut_umlaut.2, decode_encode] at hproposed
  have hend : Boundary (bytes "(defvar ÄB 1) Ä") 17 := by
    have hlength : (bytes "(defvar ÄB 1) Ä").length = 17 := by cbv
    exact hlength ▸ boundary_length _
  have halike : LowersAlike 'Ä' := hproposed hend 'Ä' List.mem_cons_self
  revert halike
  decide +kernel

end Analysis

end LexScope
