import LexScope.Proofs.Binding.Siblings
import LexScope.Proofs.Form.Atoms

/-!
# Definitions that can be called stand apart

A definition takes its name from an atom of its form, or of the list `(setf name)` in it. An atom
belongs to one form, such a list to one form too, and no definition starts with the word `setf`. So
the name says which definition it belongs to, and no two names touch.
-/

namespace LexScope

/-! ## Where the name is read -/

/-- The name of a definition is read in the form itself, or in a list `(setf name)` in it. -/
inductive Definition.NamedIn (src : Source) (form : Pair) : Pair → Prop where
  /-- It is read in the form. -/
  | form : NamedIn src form form
  /-- It is read in a list. -/
  | setf {list : Pair} {e : Element} (he : e ∈ src.elements form) (hlist : e.group = some list)
      (hword : ∃ first rest, src.items list = first :: rest ∧ src.isWord first "setf" = true) :
      NamedIn src form list

namespace Definition

variable {src : Source} {form : Pair} {d : Definer}

/-- Only one entry of a definition is the definition itself. -/
theorem pairwise_entries {operands : List Node} :
    (entries src form d operands).Pairwise fun e e' =>
      ∀ b b', e = .binding .globalDefinition b → e' ≠ .binding .globalDefinition b' := by
  cases operands with
  | nil => exact List.Pairwise.nil
  | cons first rest =>
    cases hname : nameOf src d first with
    | none => simp [entries, hname]
    | some n =>
      have hbound : ∀ e ∈ (lists src d n.name form rest).1, ∀ b,
          e ≠ .binding .globalDefinition b := by
        intro e he b heq
        cases (reads_lists e he _ b heq).1
      simp only [entries, hname]
      refine List.pairwise_append.2 ⟨?_, List.pairwise_singleton _ _, ?_⟩
      · exact List.pairwise_of_forall_mem_list fun e he _ _ b _ heq => absurd heq (hbound e he b)
      · exact fun e he _ _ b _ heq => absurd heq (hbound e he b)

/-- The definition among the entries has the name of the first operand. -/
theorem exists_nameOf {operands : List Node} {b : Binding}
    (h : .binding .globalDefinition b ∈ entries src form d operands) :
    ∃ first rest n, operands = first :: rest ∧ nameOf src d first = some n ∧ b.name = n.name ∧
      b.site = n.site ∧ b.kind = d.kind ∧ b.form = form.span := by
  cases operands with
  | nil => cases h
  | cons first rest =>
    cases hname : nameOf src d first with
    | none => simp [entries, hname] at h
    | some n =>
      simp only [entries, hname] at h
      rcases List.mem_append.1 h with h | h
      · cases (reads_lists _ h _ b rfl).1
      · cases List.mem_singleton.1 h
        exact ⟨first, rest, n, rfl, hname, rfl, rfl, rfl, rfl⟩

/-- A definition that can be called has no other list for a name than `(setf name)`. -/
theorem setf_of_groupName (hd : d.kind.isFunctionLike = true) {items : List Node} {name : NameSite}
    (h : groupName src d items = some name) : ∃ first rest, items = first :: rest ∧
      src.isWord first "setf" = true ∧ rest.head?.bind src.nameAt = some name := by
  cases items with
  | nil => cases h
  | cons first rest =>
    refine ⟨first, rest, rfl, ?_⟩
    cases d with
    | function | genericFunction | method => simpa [groupName] using h
    | macroFunction | compilerMacro | modifyMacro => cases h
    | _ => cases hd

end Definition

namespace Source

variable {src : Source} {p : Pair} {n : Node} {name : NameSite}

/-- A name that is read at an item of a form is that of an atom of the form. -/
theorem exists_hasAtom_of_nameAt (hp : p ∈ src.layout.pairs.pairs) (hn : n ∈ src.items p)
    (h : src.nameAt n = some name) : ∃ e, src.HasAtom p e ∧ e.span = name.site := by
  unfold nameAt at h
  split at h
  · next hatom =>
    simp only at h
    split at h
    · rw [← Option.some.inj h]
      rw [items, nodes_eq] at hn
      obtain ⟨e, he, rfl⟩ := List.mem_map.1 hn
      exact ⟨e, ⟨hp, he, (Bool.and_eq_true_iff.1 hatom).1⟩, rfl⟩
    · cases h
  · cases h

/-- The name of a definition that can be called is that of an atom of the form, or of the list in
it. -/
theorem exists_hasAtom_of_nameOf (hsrc : src.Nests) {d : Definer}
    (hd : d.kind.isFunctionLike = true) (hp : p ∈ src.layout.pairs.pairs) (hn : n ∈ src.items p)
    (h : Definition.nameOf src d n = some name) :
    ∃ q e, Definition.NamedIn src p q ∧ src.HasAtom q e ∧ e.span = name.site := by
  have hpackage : (d == .package) = false := by cases d <;> first | rfl | cases hd
  unfold Definition.nameOf at h
  split at h
  · cases h
  split at h
  · next r hkind =>
    have hsound := (hsrc.toSound.items hp n hn).element
    have hr := (hsound.group r hkind).1
    have hgroup : n.element.group = some r := by rw [Element.group, hkind]
    rw [items, nodes_eq] at hn
    obtain ⟨e, he, rfl⟩ := List.mem_map.1 hn
    have hinside : src.inside e = src.items r := by
      have hgroup : e.group = some r := hgroup
      simp [inside, hgroup, items]
    rw [show (Node.mk e (src.inside e)).items = src.items r from hinside] at h
    obtain ⟨first, rest, hitems, hword, hname⟩ := Definition.setf_of_groupName hd h
    obtain ⟨m, hm, hname⟩ := Option.bind_eq_some_iff.1 hname
    have hmem : m ∈ src.items r := by
      rw [hitems]
      exact List.mem_cons_of_mem _ (List.mem_of_head? hm)
    obtain ⟨e', he', hspan⟩ := exists_hasAtom_of_nameAt hr hmem hname
    exact ⟨r, e', .setf he hgroup ⟨first, rest, hitems, hword⟩, he', hspan⟩
  · rw [hpackage] at h
    obtain ⟨e, he, hspan⟩ := exists_hasAtom_of_nameAt hp hn h
    exact ⟨p, e, .form, he, hspan⟩
  · rw [hpackage] at h
    cases h

end Source

/-! ## Which form a name belongs to -/

/-- No form that binds names starts with the word `setf`. -/
theorem BindingForm.at?_setf {src : Source} {p : Pair} {first : Node} {rest : List Node}
    (hitems : src.items p = first :: rest) (hword : src.isWord first "setf" = true) :
    BindingForm.at? src p = none := by
  have hlower : lowerAscii (src.textAt first) = lowerAscii "setf" := eq_of_beq hword
  have hclassify : Head.classify (src.textAt first) = Head.classify "setf" := by
    unfold Head.classify keywordOf
    rw [hlower]
  have hnone : Head.classify "setf" = none := by rfl
  cases hat : BindingForm.at? src p with
  | none => rfl
  | some f =>
    rw [← hclassify, (BindingForm.at?_eq_some hat).2 first rest hitems] at hnone
    cases hnone

section Document

variable {text : String} {excluded : SpanSet} {f g : BindingForm} {b d : Binding}

/-- A pair in which names of definitions are read belongs to one of them. -/
theorem BindingForm.eq_of_namedIn (hapart : CommentsApart (Utf8.bytes text))
    (hf : f ∈ BindingForm.all (.ofText text) excluded)
    (hg : g ∈ BindingForm.all (.ofText text) excluded) {q : Pair}
    (hfq : Definition.NamedIn (.ofText text) f.pair q)
    (hgq : Definition.NamedIn (.ofText text) g.pair q) : f = g := by
  obtain ⟨hfpair, hfat⟩ := at?_of_mem_all hf
  obtain ⟨hgpair, hgat⟩ := at?_of_mem_all hg
  have heq (h : f.pair = g.pair) : f = g := by
    rw [h, hgat] at hfat
    exact (Option.some.inj hfat).symm
  generalize hp : f.pair = p at hfq
  generalize hr : g.pair = r at hgq
  cases hfq with
  | form =>
    cases hgq with
    | form => exact heq (hp.trans hr.symm)
    | setf he hlist hword =>
      obtain ⟨first, rest, hitems, hword⟩ := hword
      rw [hp, at?_setf hitems hword] at hfat
      cases hfat
  | setf he hlist hword =>
    cases hgq with
    | form =>
      obtain ⟨first, rest, hitems, hword⟩ := hword
      rw [hr, at?_setf hitems hword] at hgat
      cases hgat
    | setf he' hlist' =>
      refine heq (hp.trans (.trans ?_ hr.symm))
      exact Source.eq_of_mem_elements_group hapart (hp ▸ hfpair) (hr ▸ hgpair) he he' hlist hlist'

/-- The name of a definition that can be called is that of an atom, which is read where names of
this form are. -/
theorem BindingForm.exists_hasAtom {src : Source} (hsrc : src.Nests)
    (hf : f ∈ BindingForm.all src excluded)
    (hb : .binding .globalDefinition b ∈ f.entries src) (hkind : b.kind.isFunctionLike = true) :
    b.form = f.pair.span ∧
      ∃ q e, Definition.NamedIn src f.pair q ∧ src.HasAtom q e ∧ e.span = b.site := by
  have hpair := (at?_of_mem_all hf).1
  obtain ⟨_, _, _, hbinds⟩ := exists_bindsLike hsrc hpair
  have hcollection := (hbinds _ b hb).1
  cases hhead : f.head with
  | global d =>
    unfold BindingForm.entries at hb
    cases hitems : src.items f.pair with
    | nil => simp [hitems] at hb
    | cons first operands =>
      simp only [hitems, hhead] at hb
      obtain ⟨second, rest, n, rfl, hname, -, hsite, hd, hform⟩ := Definition.exists_nameOf hb
      rw [hsite]
      exact ⟨hform,
        Source.exists_hasAtom_of_nameOf hsrc (hd ▸ hkind) hpair (by simp [hitems]) hname⟩
  | _ => simp [hhead, Head.collections] at hcollection

/-- Two definitions have forms of their own, and names that leave a gap. -/
structure Binding.Apart (b d : Binding) : Prop where
  /-- The forms differ. -/
  form : b.form ≠ d.form
  /-- The names leave a gap. -/
  site : b.site.stop < d.site.start ∨ d.site.stop < b.site.start

/-- Standing apart is mutual. -/
theorem Binding.Apart.symm (h : b.Apart d) : d.Apart b := ⟨h.form.symm, h.site.symm⟩

namespace Table

/-- The definitions that can be called. -/
def callables (t : Table) : List Binding := t.globalDefinitions.filter (·.kind.isFunctionLike)

/-- The name of a definition that can be called is that of an atom of some form. -/
theorem exists_hasAtom_of_mem_callables {src : Source} (hsrc : src.Nests) {mode : Mode}
    (hb : b ∈ (Table.ofSource src mode).callables) :
    ∃ q e, src.HasAtom q e ∧ e.span = b.site := by
  obtain ⟨hglobal, hkind⟩ := List.mem_filter.1 hb
  obtain ⟨f, hf, -, hentry⟩ := exists_form (c := .globalDefinition) hglobal
  obtain ⟨-, q, e, -, he, hspan⟩ := BindingForm.exists_hasAtom hsrc hf hentry hkind
  exact ⟨q, e, he, hspan⟩

/-- Definitions that can be called stand apart. -/
theorem pairwise_callables (hapart : CommentsApart (Utf8.bytes text)) (mode : Mode) :
    (Table.ofSource (.ofText text) mode).callables.Pairwise Binding.Apart := by
  have hsrc := Source.nests_ofText text
  rw [callables, List.pairwise_filter]
  refine pairwise_get (c := .globalDefinition) hsrc (fun f hf => ?_)
    fun f hf g hg hne b d hb hd hbkind hdkind => ?_
  · obtain ⟨_, _, _, hbinds⟩ := BindingForm.exists_bindsLike hsrc (BindingForm.at?_of_mem_all hf).1
    have honly : (f.entries (.ofText text)).Pairwise fun e e' => ∀ b b',
        e = .binding .globalDefinition b → e' ≠ .binding .globalDefinition b' := by
      cases hhead : f.head with
      | global d =>
        unfold BindingForm.entries
        split
        · exact List.Pairwise.nil
        · rw [hhead]
          exact Definition.pairwise_entries
      | _ =>
        refine List.pairwise_of_forall_mem_list fun e he _ _ b _ heq => ?_
        have hcollection := (hbinds _ b (heq ▸ he)).1
        simp [hhead, Head.collections] at hcollection
    exact honly.imp fun h b b' heq heq' => absurd heq' (h b b' heq)
  · obtain ⟨hbform, q, e, hfq, he, hbsite⟩ := BindingForm.exists_hasAtom hsrc hf hb hbkind
    obtain ⟨hdform, r, e', hgr, he', hdsite⟩ := BindingForm.exists_hasAtom hsrc hg hd hdkind
    constructor
    · rw [hbform, hdform]
      intro hspan
      exact hne (BindingForm.eq_of_closing hsrc hf hg (Nat.succ.inj (congrArg Span.stop hspan)))
    · rw [← hbsite, ← hdsite]
      rcases he.apart hapart he' with ⟨rfl, -⟩ | h
      · exact absurd (BindingForm.eq_of_namedIn hapart hf hg hfq hgr) hne
      · exact h

end Table

end Document

end LexScope
