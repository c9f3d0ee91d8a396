import LexScope.Proofs.Binding.Lookup
import LexScope.Proofs.Binding.Regular
import LexScope.Proofs.Document.Cursor
import Mathlib

/-!
# Step forms of `do`

The step forms of a `do` form are evaluated when all its variables are bound, also those that are
written later. A variable is therefore seen in two stretches, from the list of variables up to its
scope where a step form stands, and in its scope. Both together hold every step form of the form.

Scopes come first, so a scope that reaches into a step form from outside is found before the
variables are. The windows of all `do` forms count alike, so inside a step form the innermost form
whose list of variables holds the symbol is taken, even for an initial value. Nothing else keeps a
symbol in a step form from its variable.
-/

namespace LexScope

/-- The binding is a variable of the form. -/
def Binding.IsVariableOf (src : Source) (f : BindingForm) (b : Binding) : Prop :=
  .binding .anonymousVariable b ∈ f.entries src

/-! ## Variables and step forms -/

namespace Variable

variable {src : Source} {form : Pair} {keyword : String} {sequential : Bool}
  {operands : List Node} {list : Node} {p : Pair}

section Operands

variable {lo hi : Nat} (h : ∀ n ∈ operands, n.Within lo hi)
  (hgroup : firstGroup operands = some (list, p))

include h hgroup in
/-- The list of variables ends before its form does. -/
private theorem closing_lt_of_firstGroup : p.closing < hi := by
  obtain ⟨n, hn, hmap⟩ := Option.bind_eq_some_iff.1 hgroup
  obtain ⟨q, hq, heq⟩ := Option.map_eq_some_iff.1 hmap
  obtain ⟨rfl, rfl⟩ := Prod.mk.inj heq
  have hin := h n (List.mem_of_head? hn)
  have hhi := hin.le_hi
  rw [hin.nested.group hq] at hhi
  exact hhi

include hgroup in
/-- The step form of a `do` form is the third item of an entry in brackets. -/
private theorem exists_spec_of_stepForm {s : Span}
    (hs : .stepForm s ∈ doEntries src form keyword sequential operands) :
    ∃ spec ∈ specs src list, spec.entry.element.group.isSome = true ∧
      ∃ n, spec.entry.items[2]? = some n ∧ s = n.element.span := by
  unfold doEntries at hs
  rw [hgroup] at hs
  obtain ⟨spec, hspec, hs⟩ := List.mem_flatMap.1 hs
  unfold doEntry at hs
  rcases List.mem_append.1 hs with hstep | hbinding
  · split at hstep
    · next hentry =>
      obtain ⟨n, hn, heq⟩ := List.mem_map.1 hstep
      cases heq
      exact ⟨spec, hspec, hentry, n, Option.mem_toList.1 hn, rfl⟩
    · cases hstep
  · split at hbinding <;> simp at hbinding

include hgroup in
/-- A variable of a `do` form is seen from where its window ends to the end of the form. -/
private theorem exists_spec_of_binding {c : Collection} {b : Binding}
    (hb : .binding c b ∈ doEntries src form keyword sequential operands) :
    ∃ spec ∈ specs src list, b.site = spec.name.site ∧ b.container = some keyword ∧
      ∃ start, b.scope = some ⟨start, form.closing⟩ ∧ b.stepWindow = some ⟨p.opening, start⟩ := by
  unfold doEntries at hb
  rw [hgroup] at hb
  obtain ⟨spec, hspec, hb⟩ := List.mem_flatMap.1 hb
  unfold doEntry at hb
  rcases List.mem_append.1 hb with hstep | hbinding
  · split at hstep <;> simp at hstep
  · split at hbinding
    · next scope hscope =>
      obtain ⟨rfl, -⟩ := eq_of_scopeIn hscope
      cases List.mem_singleton.1 hbinding
      exact ⟨spec, hspec, rfl, rfl, _, rfl, rfl⟩
    · cases hbinding

end Operands

/-- An entry of a list of variables is the name of its variable, or a group that starts with it. -/
private theorem name_of_mem_specs {spec : Spec} (h : spec ∈ specs src list) :
    spec.entry ∈ list.items ∧ spec.entry.element.isString = false ∧
      (spec.entry.element.group = none ∧ spec.name.site = spec.entry.element.span ∨
        ∃ n rest, spec.entry.items = n :: rest ∧ spec.name.site = n.element.span) := by
  obtain ⟨entry, hentry, hspec⟩ := List.mem_filterMap.1 h
  obtain ⟨name, hname, rfl⟩ := Option.map_eq_some_iff.1 hspec
  obtain ⟨n, hn, hname⟩ := Option.bind_eq_some_iff.1 hname
  have hsite : name.site = n.element.span := by
    unfold Source.nameAt at hname
    split at hname
    · simp only at hname
      split at hname
      · rw [← Option.some.inj hname]
      · cases hname
    · cases hname
  refine ⟨hentry, ?_⟩
  split at hn
  · next hkind =>
    obtain rfl := Option.some.inj hn
    exact ⟨by simp [Element.isString, hkind], .inl ⟨by simp [Element.group, hkind], hsite⟩⟩
  · next hkind =>
    refine ⟨by simp [Element.isString, hkind], .inr ?_⟩
    split at hn
    · cases hn
    · obtain ⟨rest, hrest⟩ := List.head?_eq_some_iff.1 hn
      exact ⟨n, rest, hrest, hsite⟩
  · cases hn

/-- A step form ends before the variable of another entry, or starts behind it, and it starts behind
the variable of its own entry, unless it is a part of a string. -/
private theorem site_not_in_step (hsrc : src.Nests) {form : Pair}
    (hform : form ∈ src.layout.pairs.pairs) (hlist : list ∈ src.items form)
    {named stepped : Spec} (hnamed : named ∈ specs src list) (hstepped : stepped ∈ specs src list)
    (hgroup : stepped.entry.element.group.isSome = true) {n : Node}
    (hn : stepped.entry.items[2]? = some n) :
    n.element.span.contains named.name.site.start = false ∨ n.element.InString src.layout := by
  have hnested := (hsrc.items hform list hlist).nested
  obtain ⟨hentry, hstring, hsite⟩ := name_of_mem_specs hnamed
  obtain ⟨hentry', hstring', -⟩ := name_of_mem_specs hstepped
  have hin := (hnested.items _ hentry').inside n (List.mem_of_getElem? hn)
  have hwritten : named.entry.element.span.start ≤ named.name.site.start ∧
      named.name.site.start < named.entry.stop := by
    rcases hsite with ⟨-, hsite⟩ | ⟨m, rest, hitems, hsite⟩
    · rw [hsite]
      exact ⟨Nat.le_refl _, (hnested.items _ hentry).proper⟩
    · have hm : m ∈ named.entry.items := hitems ▸ List.mem_cons_self
      have hinside := (hnested.items _ hentry).inside m hm
      have hproper := ((hnested.items _ hentry).items m hm).proper
      rw [hsite, Node.stop, Element.stop]
      exact ⟨Nat.le_of_lt hinside.1, by omega⟩
  rw [Bool.eq_false_iff, ne_eq, Span.contains_iff]
  rw [Node.stop, Element.stop] at hwritten
  rcases eq_or_rel_of_pairwise (hsrc.pairwise_of_mem_items hform hlist) hentry hentry'
    with heq | hbefore | hbehind
  · -- The variable is the first item of the entry, and the step form is the third one.
    rcases hsite with ⟨hatom, -⟩ | ⟨m, rest, hitems, hsite⟩
    · rw [← heq, hatom] at hgroup
      cases hgroup
    rw [← heq, hitems] at hn
    obtain ⟨q, hq, hmem⟩ := hsrc.exists_items_of_mem hform hlist hentry
    have hordered := hsrc.pairwise_of_mem_items hq hmem
    rw [hitems, List.pairwise_cons] at hordered
    have hm : m ∈ named.entry.items := hitems ▸ List.mem_cons_self
    have hproper := ((hnested.items _ hentry).items m hm).proper
    refine (hordered.1 n (List.mem_of_getElem? hn)).imp_left fun hle => ?_
    rw [hsite]
    rw [Node.stop, Element.stop] at hle
    omega
  · have hle := hbefore.resolve_right (Element.not_inString hstring')
    rw [Node.stop, Element.stop] at hle
    exact .inl (by omega)
  · have hle := hbehind.resolve_right (Element.not_inString hstring)
    rw [Node.stop, Element.stop] at hle
    exact .inl (by omega)

end Variable

private theorem Head.ofWord_eq_doLoop {word : String} {sequential : Bool}
    (h : Head.ofWord word = some (.doLoop sequential)) : word = "do" ∨ word = "do*" := by
  unfold Head.ofWord at h
  split at h <;> simp_all

/-- A `do` form starts with one of two keywords. -/
theorem Head.keywordOf_of_classify_doLoop {text : String} {sequential : Bool}
    (h : Head.classify text = some (.doLoop sequential)) :
    keywordOf text = "do" ∨ keywordOf text = "do*" := by
  unfold Head.classify at h
  simp only at h
  split at h
  · cases h
  · split at h
    · cases h
    · exact Head.ofWord_eq_doLoop h

namespace BindingForm

variable {src : Source} (hsrc : src.Nests) {f : BindingForm}
  (hf : f.pair ∈ src.layout.pairs.pairs) {sequential : Bool} (hhead : f.head = .doLoop sequential)

/-- The entries of a `do` form that has a list of variables. -/
theorem exists_doEntries (hhead : f.head = .doLoop sequential) {e : Entry}
    (he : e ∈ f.entries src) : ∃ first operands list p, src.items f.pair = first :: operands ∧
      Variable.firstGroup operands = some (list, p) ∧ f.entries src =
        Variable.doEntries src f.pair (keywordOf (src.textAt first)) sequential operands := by
  have heq : ∃ first operands, src.items f.pair = first :: operands ∧ f.entries src =
      Variable.doEntries src f.pair (keywordOf (src.textAt first)) sequential operands := by
    unfold entries at he ⊢
    split at he
    · cases he
    · next first operands hitems =>
      simp only [hitems, hhead]
      exact ⟨first, operands, rfl, rfl⟩
  obtain ⟨first, operands, hitems, hentries⟩ := heq
  cases hgroup : Variable.firstGroup operands with
  | none => simp [hentries, Variable.doEntries, hgroup] at he
  | some found => exact ⟨first, operands, found.1, found.2, hitems, hgroup, hentries⟩

include hsrc hf hhead

/-- Each variable of a `do` form can be seen in each of its step forms, by its scope or by its
window. -/
theorem seen_in_stepForm (hat : BindingForm.at? src f.pair = some f) {s : Span}
    (hs : .stepForm s ∈ f.entries src) {b : Binding} (hb : b.IsVariableOf src f) {offset : Nat}
    (hoffset : s.contains offset = true) :
    b.isVisibleAt offset = true ∨ ∃ w, b.doWindow = some w ∧ w.contains offset = true := by
  obtain ⟨first, operands, list, p, hitems, hgroup, hentries⟩ := exists_doEntries hhead hs
  have hclassify := (BindingForm.at?_eq_some hat).2 first operands hitems
  have hwithin := hsrc.items hf
  rw [hhead] at hclassify
  rw [hitems] at hwithin
  rw [Binding.IsVariableOf, hentries] at hb
  rw [hentries] at hs
  obtain ⟨-, hoperands⟩ := List.forall_mem_cons.1 hwithin
  obtain ⟨spec, hspec, -, n, hn, rfl⟩ := Variable.exists_spec_of_stepForm hgroup hs
  obtain ⟨-, -, -, hcontainer, start, hscope, hwindow⟩ :=
    Variable.exists_spec_of_binding hgroup hb
  obtain ⟨-, hlist, -⟩ := Variable.within_of_firstGroup hoperands hgroup
  have hstep := (hlist _ (Variable.name_of_mem_specs hspec).1).items n (List.mem_of_getElem? hn)
  have hlo := hstep.lo_le
  have hhi := hstep.le_hi
  have hend := Variable.closing_lt_of_firstGroup hoperands hgroup
  rw [Span.contains_iff] at hoffset
  rcases Nat.lt_or_ge offset start with hbefore | hafter
  · refine .inr ⟨_, Binding.doWindow_eq_some_iff.2 ⟨?_, hwindow⟩, ?_⟩
    · simpa [Binding.isDoVariable, hcontainer] using Head.keywordOf_of_classify_doLoop hclassify
    · exact Span.contains_iff.2 ⟨by simp only; omega, hbefore⟩
  · left
    rw [Binding.isVisibleAt, hscope, Option.any_some, Span.touches_iff]
    exact ⟨hafter, by simp only; omega⟩

/-- No variable of a `do` form is written in one of its step forms, unless the step form is a part
of a string. -/
theorem site_not_in_stepForm {s : Span} (hs : .stepForm s ∈ f.entries src) {b : Binding}
    (hb : b.IsVariableOf src f) : s.contains b.site.start = false ∨
      ∃ r ∈ src.layout.strings.spans, r.covers s = true := by
  obtain ⟨first, operands, list, p, hitems, hgroup, hentries⟩ := exists_doEntries hhead hs
  rw [Binding.IsVariableOf, hentries] at hb
  rw [hentries] at hs
  have hlist : list ∈ src.items f.pair := by
    obtain ⟨n, hn, hmap⟩ := Option.bind_eq_some_iff.1 hgroup
    obtain ⟨q, -, heq⟩ := Option.map_eq_some_iff.1 hmap
    rw [hitems, ← (Prod.mk.inj heq).1]
    exact List.mem_cons_of_mem _ (List.mem_of_head? hn)
  obtain ⟨stepped, hstepped, hentry, n, hn, rfl⟩ := Variable.exists_spec_of_stepForm hgroup hs
  obtain ⟨named, hnamed, hsite, -⟩ := Variable.exists_spec_of_binding hgroup hb
  rw [hsite]
  exact (Variable.site_not_in_step hsrc hf hlist hnamed hstepped hentry hn).imp_right And.right

end BindingForm

/-! ## Which binding prevails -/

section Prevails

variable {stretch : Binding → Option Span} {holds : Span → Bool} {l : List Binding}
  {P : Binding → Prop}

/-- Bindings with a property prevail over the others. Where the stretch of another one satisfies
`holds`, so does that of a binding with the property that starts later, or at the same offset if
that binding is further behind in the list. -/
def Prevails (stretch : Binding → Option Span) (holds : Span → Bool) (l : List Binding)
    (P : Binding → Prop) : Prop :=
  ∀ (i : Nat) (b : Binding) (r : Span), l[i]? = some b → stretch b = some r → holds r = true →
    ¬P b → ∃ (j : Nat) (v : Binding) (q : Span), l[j]? = some v ∧ stretch v = some q ∧
      holds q = true ∧ P v ∧ (r.start < q.start ∨ r.start = q.start ∧ i < j)

/-- Some stretch starts last, if any satisfies `holds`. -/
theorem exists_startsLast {b : Binding} {r : Span} (hb : b ∈ l) (hr : stretch b = some r)
    (hholds : holds r = true) : ∃ d, StartsLast stretch holds l d := by
  have hcandidate : ∀ d, (stretch d).any holds = (stretch d).any holds := fun _ => rfl
  cases hlast : lastMaxBy (fun d => ((stretch d).map (·.start)).getD 0)
      (l.filter fun d => (stretch d).any holds) with
  | none =>
    rw [(lastMaxBy_filter_eq_none_iff hcandidate).1 hlast b hb r hr] at hholds
    cases hholds
  | some d =>
    exact ⟨d, (lastMaxBy_filter_eq_some_iff (fun _ _ h => by rw [h]; rfl) hcandidate).1 hlast⟩

/-- Whatever else satisfies `holds` starts earlier than the one that starts last, or at the same
offset and is further ahead in the list. -/
private theorem StartsLast.exists_index {b : Binding} (h : StartsLast stretch holds l b) :
    ∃ (i : Nat) (r : Span), l[i]? = some b ∧ stretch b = some r ∧ holds r = true ∧
      ∀ (j : Nat) (v : Binding) (q : Span), l[j]? = some v → stretch v = some q →
        holds q = true → j ≠ i → q.start < r.start ∨ q.start = r.start ∧ j < i := by
  obtain ⟨before, after, r, rfl, hr, hholds, hbefore, hafter⟩ := h
  refine ⟨before.length, r, by simp, hr, hholds, fun j v q hv hq hqholds hne => ?_⟩
  rcases Nat.lt_or_gt_of_ne hne with hj | hj
  · rw [List.getElem?_append_left hj] at hv
    have := hbefore v (List.mem_of_getElem? hv) q hq hqholds
    omega
  · obtain ⟨k, rfl⟩ : ∃ k, j = before.length + (k + 1) := ⟨j - before.length - 1, by omega⟩
    rw [List.getElem?_append_right (Nat.le_add_right _ _), Nat.add_sub_cancel_left,
      List.getElem?_cons_succ] at hv
    exact .inl (hafter v (List.mem_of_getElem? hv) q hq hqholds)

/-- The bindings that prevail are those to which the one that starts last belongs. -/
theorem prevails_iff :
    Prevails stretch holds l P ↔ ∀ b, StartsLast stretch holds l b → P b := by
  constructor
  · intro h b hlast
    obtain ⟨i, r, hb, hr, hholds, hothers⟩ := hlast.exists_index
    by_contra hP
    obtain ⟨j, v, q, hv, hq, hqholds, hPv, hlater⟩ := h i b r hb hr hholds hP
    have hne : j ≠ i := by
      rintro rfl
      exact hP (Option.some.inj (hv.symm.trans hb) ▸ hPv)
    have := hothers j v q hv hq hqholds hne
    omega
  · intro h i b r hb hr hholds hP
    obtain ⟨v, hlast⟩ := exists_startsLast (List.mem_of_getElem? hb) hr hholds
    have hPv := h v hlast
    obtain ⟨j, q, hv, hq, hqholds, hothers⟩ := hlast.exists_index
    have hne : i ≠ j := by
      rintro rfl
      exact hP (Option.some.inj (hv.symm.trans hb) ▸ hPv)
    have := hothers i b r hb hr hholds hne
    exact ⟨j, v, q, hv, hq, hqholds, hPv, by omega⟩

end Prevails

/-! ## Symbols in step forms -/

namespace Analysis

variable {a : Analysis} {f : BindingForm} {s : Span} {t : Symbol}

/-- The symbol is evaluated and starts in this step form of a `do` form that is collected. -/
structure InStepForm (a : Analysis) (f : BindingForm) (s : Span) (t : Symbol) : Prop where
  /-- The form is collected. -/
  collected : f ∈ BindingForm.all a.source (a.excluded a.settings.collection)
  /-- It is a `do` or `do*` form. -/
  head : ∃ sequential, f.head = .doLoop sequential
  /-- The span is one of its step forms. -/
  step : .stepForm s ∈ f.entries a.source
  /-- The symbol is one of the document. -/
  symbol : t ∈ a.symbols
  /-- It is evaluated. -/
  evaluated : a.source.layout.quotedContext.contains t.span.start = false
  /-- It starts in the step form. -/
  contains : s.contains t.span.start = true

/-- A name means a variable of the form at the symbol. -/
def MeansVariableOf (a : Analysis) (f : BindingForm) (t : Symbol) : Prop :=
  ∃ b ∈ a.table.locals t.name, b.IsVariableOf a.source f ∧ a.bindingOf t = some b

/-- What else binds the name of a symbol in a step form leaves it to the variables of the form. -/
structure Unhindered (a : Analysis) (f : BindingForm) (t : Symbol) : Prop where
  /-- The symbol is not itself where a local binding is written. -/
  sites : ∀ b ∈ a.table.locals t.name, b.site ≠ t.span
  /-- Of the scopes that hold the symbol, those of variables of the form prevail. -/
  scopes : Prevails Binding.scope (·.touches t.span.start) (a.table.locals t.name)
    (·.IsVariableOf a.source f)
  /-- If there are none, then of the windows that hold it, those of variables of the form
  prevail. -/
  windows : (∀ v ∈ a.table.locals t.name, v.IsVariableOf a.source f →
      v.isVisibleAt t.span.start = false) →
    Prevails Binding.doWindow (·.contains t.span.start) (a.table.locals t.name)
      (·.IsVariableOf a.source f)

/-- In each step form of a `do` form, a name that the form binds means a variable of the form,
unless a form inside the step form binds it there. -/
def StepFormsSee (a : Analysis) : Prop :=
  ∀ f s t, a.InStepForm f s t →
    (∃ b ∈ a.table.locals t.name, b.IsVariableOf a.source f) →
    (∀ g ∈ BindingForm.all a.source (a.excluded a.settings.collection),
      s.covers g.pair.span = true → ∀ c b, .binding c b ∈ g.entries a.source → b.name = t.name →
        b.isVisibleAt t.span.start = false) →
    a.MeansVariableOf f t

/-- A local binding that is found is what the symbol means. -/
theorem bindingOf_of_found {b : Binding} (h : a.resolve t = .found b) : a.bindingOf t = some b := by
  rw [bindingOf, h]
  rfl

end Analysis

/-- The step forms of the forms that are collected are found by their offsets. -/
theorem Table.stepForms_contains {src : Source} (hsrc : src.Sound) {mode : Mode} {f : BindingForm}
    (hf : f ∈ BindingForm.all src (src.layout.excluded mode)) {s : Span}
    (hs : .stepForm s ∈ f.entries src) {offset : Nat} (hoffset : s.contains offset = true) :
    (Table.ofSource src mode).stepForms.contains offset = true := by
  rw [Table.stepForms, SpanSet.contains_ofList]
  · exact ⟨s, mem_steps_ofSource.2 ⟨f, hf, hs⟩, hoffset⟩
  · exact fun r hr => ((Table.sound_ofSource hsrc mode).steps r hr).ordered

namespace Analysis

variable {settings : Settings} {text : String} {f : BindingForm} {s : Span} {t : Symbol}
  (h : (analyze settings text).InStepForm f s t)

include h

/-- A symbol in a step form is not where a variable of the form is written. -/
theorem InStepForm.site_ne {b : Binding} (hb : b.IsVariableOf (analyze settings text).source f) :
    b.site ≠ t.span := by
  rw [analyze_eq] at h hb
  obtain ⟨hf, -⟩ := BindingForm.at?_of_mem_all h.collected
  obtain ⟨sequential, hhead⟩ := h.head
  intro hsite
  rcases BindingForm.site_not_in_stepForm (Source.nests_ofText text) hf hhead h.step hb
    with hnot | ⟨r, hr, hcovers⟩
  · rw [hsite, h.contains] at hnot
    cases hnot
  · -- No symbol starts in a string.
    have hcontains := Span.contains_iff.1 h.contains
    rw [Span.covers_iff] at hcovers
    have hstring : (Source.ofText text).layout.strings.contains t.span.start = true :=
      (SpanSet.contains_iff_of_separated (Layout.separated_ofBytes _).2).2
        ⟨r, hr, Span.contains_iff.2 ⟨by omega, by omega⟩⟩
    rw [(Source.contains_eq_false_of_mem_symbols h.symbol).2] at hstring
    cases hstring

/-- If a symbol in a step form means a variable of the form, then nothing else that binds the name
gets in the way. -/
theorem InStepForm.unhindered (hmeans : (analyze settings text).MeansVariableOf f t) :
    (analyze settings text).Unhindered f t := by
  obtain ⟨b, hb, hvariable, hmeans⟩ := hmeans
  have hsites : ∀ d ∈ (analyze settings text).table.locals t.name, d.site ≠ t.span := by
    intro d hd hsite
    have hwritten := bindingOf_of_site h.evaluated hd hsite
    rw [hmeans] at hwritten
    exact h.site_ne hvariable (Option.some.inj hwritten)
  have hfind := Table.find?_site_eq_none_iff.2 hsites
  have hfound (d : Binding) (hd : (analyze settings text).resolve t = .found d) : b = d :=
    Option.some.inj (hmeans.symm.trans (bindingOf_of_found hd))
  have hresolve := resolve_of_evaluated h.evaluated
  have hinside : (analyze settings text).table.stepForms.contains t.span.start = true := by
    have hcollected := h.collected
    have hstep := h.step
    rw [analyze_eq] at hcollected hstep ⊢
    exact Table.stepForms_contains (Source.nests_ofText text).toSound hcollected hstep h.contains
  rw [Table.resolve] at hresolve
  simp only [hfind] at hresolve
  constructor
  case sites => exact hsites
  case scopes =>
    refine prevails_iff.2 fun d hd => ?_
    simp only [Table.innermost_eq_some_iff.2 hd] at hresolve
    exact hfound d hresolve ▸ hvariable
  case windows =>
    refine fun hhidden => prevails_iff.2 fun d hd => ?_
    cases hinner : Table.innermost ((analyze settings text).table.locals t.name) t.span.start with
    | some v =>
      simp only [hinner] at hresolve
      obtain rfl := hfound v hresolve
      obtain ⟨-, r, hr, htouches, -⟩ := Table.innermost_eq_some hinner
      have := hhidden b hb hvariable
      rw [Binding.isVisibleAt, hr, Option.any_some, htouches] at this
      cases this
    | none =>
      simp only [hinner, Table.stepVariable_eq_some_iff.2 ⟨hinside, hd⟩] at hresolve
      exact hfound d hresolve ▸ hvariable

/-- If nothing else that binds the name gets in the way, a symbol in a step form means a variable of
the form, which binds the name. -/
theorem InStepForm.meansVariableOf
    (hbinds : ∃ b ∈ (analyze settings text).table.locals t.name,
      b.IsVariableOf (analyze settings text).source f)
    (hfree : (analyze settings text).Unhindered f t) :
    (analyze settings text).MeansVariableOf f t := by
  rw [analyze_eq] at h hbinds hfree ⊢
  obtain ⟨hf, hat⟩ := BindingForm.at?_of_mem_all h.collected
  obtain ⟨sequential, hhead⟩ := h.head
  have hseen (b : Binding) (hb : b.IsVariableOf (Source.ofText text) f) :=
    BindingForm.seen_in_stepForm (Source.nests_ofText text) hf hhead hat h.step hb h.contains
  have hinside := Table.stepForms_contains (Source.nests_ofText text).toSound h.collected h.step
    h.contains
  have hresolve := resolve_of_evaluated h.evaluated
  have hfind := Table.find?_site_eq_none_iff.2 hfree.sites
  rw [Table.resolve] at hresolve
  simp only [hfind] at hbinds hinside hresolve
  cases hinner : Table.innermost
      ((Table.ofSource (Source.ofText text) settings.collection).locals t.name) t.span.start with
  | some b =>
    -- Some scope holds the symbol. The innermost one is that of a variable of the form.
    simp only [hinner] at hresolve
    have hlast := Table.innermost_eq_some_iff.1 hinner
    exact ⟨b, hlast.exists_stretch.1, prevails_iff.1 hfree.scopes b hlast,
      bindingOf_of_found hresolve⟩
  | none =>
    -- No scope holds it, so the window of the variable does.
    have hhidden := Table.innermost_eq_none hinner
    obtain ⟨v, hv, hvariable⟩ := hbinds
    obtain ⟨q, hq, hcontains⟩ := (hseen v hvariable).resolve_left (by simp [hhidden v hv])
    cases hstep : (Table.ofSource (Source.ofText text) settings.collection).stepVariable
        ((Table.ofSource (Source.ofText text) settings.collection).locals t.name)
        t.span.start with
    | none =>
      rw [Table.stepVariable_eq_none_iff.1 hstep hinside v hv q hq] at hcontains
      cases hcontains
    | some b =>
      simp only [hinner, hstep] at hresolve
      have hlast := (Table.stepVariable_eq_some_iff.1 hstep).2
      exact ⟨b, hlast.exists_stretch.1,
        prevails_iff.1 (hfree.windows fun v hv _ => hhidden v hv) b hlast,
        bindingOf_of_found hresolve⟩

end Analysis

/-! ## Forms whose entries are known -/

/-- A variable of a `do` form, with the window in which the step forms see it. -/
def Binding.doVariable (keyword name : String) (site window scope form : Span) : Binding :=
  { Binding.lexical name site .localVariable keyword scope form with stepWindow := some window }

namespace Analysis

section Entries

variable {settings : Settings} {text : String} {forms : List (BindingForm × List Entry)}
  {symbols : List Symbol} {f : BindingForm} {entries : List Entry} {s : Span} {t : Symbol}
  (hshows : (Source.ofText text).Shows settings.collection forms symbols)
  (hf : (f, entries) ∈ forms)

include hshows hf

/-- The variables of a form are among its entries. -/
private theorem isVariableOf_iff_mem {b : Binding} :
    b.IsVariableOf (analyze settings text).source f ↔
      .binding .anonymousVariable b ∈ entries := by
  rw [analyze_eq, Binding.IsVariableOf, hshows.entries _ hf]

/-- What makes a symbol stand in a step form of one of the forms. -/
private theorem inStepForm_of_mem (hhead : ∃ sequential, f.head = .doLoop sequential)
    (hs : .stepForm s ∈ entries) (ht : t ∈ symbols) (hcontains : s.contains t.span.start = true) :
    (analyze settings text).InStepForm f s t := by
  have hmem : f ∈ forms.map (·.1) := List.mem_map_of_mem hf
  rw [analyze_eq]
  constructor
  case collected => rwa [excluded, hshows.nothing, hshows.all]
  case head => exact hhead
  case step => rwa [hshows.entries _ hf]
  case symbol => rwa [hshows.symbols_eq]
  case evaluated =>
    simp only [hshows.quoted]
    rfl
  case contains => exact hcontains

/-- One step form is enough in which a binding of something else prevails. -/
private theorem InStepForm.not_stepFormsSee (h : (analyze settings text).InStepForm f s t)
    {locals : List Binding} (hlocals : (analyze settings text).table.locals t.name = locals)
    (hbinds : ∃ v ∈ locals, .binding .anonymousVariable v ∈ entries)
    (hinside : ∀ g ∈ forms, s.covers g.1.pair.span = true → ∀ c b, .binding c b ∈ g.2 →
      b.isVisibleAt t.span.start = false)
    {b : Binding} (hother : .binding .anonymousVariable b ∉ entries)
    (hlast : StartsLast Binding.scope (·.touches t.span.start) locals b ∨
      (∀ v ∈ locals, .binding .anonymousVariable v ∈ entries →
        v.isVisibleAt t.span.start = false) ∧
      StartsLast Binding.doWindow (·.contains t.span.start) locals b) :
    ¬(analyze settings text).StepFormsSee := by
  have hvariable {v : Binding} := isVariableOf_iff_mem (b := v) hshows hf
  subst hlocals
  intro hsee
  obtain ⟨v, hv, hentry⟩ := hbinds
  have hfree := h.unhindered (hsee f s t h ⟨v, hv, hvariable.2 hentry⟩ ?_)
  · rcases hlast with hlast | ⟨hhidden, hlast⟩
    · exact hother (hvariable.1 (prevails_iff.1 hfree.scopes b hlast))
    · have hwindows := hfree.windows fun v hv hmem => hhidden v hv (hvariable.1 hmem)
      exact hother (hvariable.1 (prevails_iff.1 hwindows b hlast))
  · rw [analyze_eq]
    intro g hg hcovers c d hd _
    rw [excluded, hshows.nothing, hshows.all] at hg
    obtain ⟨found, hfound, rfl⟩ := List.mem_map.1 hg
    rw [hshows.entries found hfound] at hd
    exact hinside found hfound hcovers c d hd

end Entries

/-! ## The law, and what it leaves out -/

/-- In a step form a symbol means a variable of the `do` form, if the form binds its name, exactly
where nothing else that binds the name gets in the way. -/
theorem meansVariableOf_iff_unhindered (settings : Settings) (text : String) {f : BindingForm}
    {s : Span} {t : Symbol} (h : (analyze settings text).InStepForm f s t)
    (hbinds : ∃ b ∈ (analyze settings text).table.locals t.name,
      b.IsVariableOf (analyze settings text).source f) :
    (analyze settings text).MeansVariableOf f t ↔ (analyze settings text).Unhindered f t :=
  ⟨h.unhindered, h.meansVariableOf hbinds⟩

private theorem shows_sequential : (Source.ofText "(do* ((i 0) (j 0 (do ((i i))))))").Shows
    .commentStringQuoteBackquoteExceptComma
    [(⟨⟨0, 31⟩, .doLoop true⟩,
        [.binding .anonymousVariable (.doVariable "do*" "i" ⟨7, 8⟩ ⟨5, 11⟩ ⟨11, 31⟩ ⟨0, 32⟩),
          .stepForm ⟨17, 29⟩,
          .binding .anonymousVariable (.doVariable "do*" "j" ⟨13, 14⟩ ⟨5, 30⟩ ⟨30, 31⟩ ⟨0, 32⟩)]),
      (⟨⟨17, 28⟩, .doLoop false⟩,
        [.binding .anonymousVariable
          (.doVariable "do" "i" ⟨23, 24⟩ ⟨21, 28⟩ ⟨28, 28⟩ ⟨17, 29⟩)])]
    [⟨"do*", ⟨1, 4⟩⟩, ⟨"i", ⟨7, 8⟩⟩, ⟨"j", ⟨13, 14⟩⟩, ⟨"do", ⟨18, 20⟩⟩, ⟨"i", ⟨23, 24⟩⟩,
      ⟨"i", ⟨25, 26⟩⟩] where
  nothing := by cbv
  all := by
    rw [BindingForm.all_eq, (by cbv : BindingForm.words _ _ = [(⟨0, 31⟩, "do*"), (⟨6, 10⟩, "i"),
      (⟨12, 29⟩, "j"), (⟨17, 28⟩, "do"), (⟨22, 26⟩, "i")])]
    rfl
  entries := by
    have hkeyword : keywordOf "do" = "do" ∧ keywordOf "do*" = "do*" := by decide
    rw [List.forall_mem_cons, List.forall_mem_singleton,
      BindingForm.entries_doLoop (by cbv : BindingForm.word? _ ⟨0, 31⟩ = some "do*"),
      BindingForm.entries_doLoop (by cbv : BindingForm.word? _ ⟨17, 28⟩ = some "do"),
      hkeyword.1, hkeyword.2]
    constructor <;> cbv
  quoted := by cbv
  symbols_eq := by cbv

/-- In `do*` the step form of a later variable sees an earlier one by its scope, also in an initial
value of another `do` form, whose window comes after all scopes. -/
theorem meansVariableOf_iff_unhindered_sequential :
    (analyze {} "(do* ((i 0) (j 0 (do ((i i))))))").InStepForm ⟨⟨0, 31⟩, .doLoop true⟩ ⟨17, 29⟩
        ⟨"i", ⟨25, 26⟩⟩ ∧
      (analyze {} "(do* ((i 0) (j 0 (do ((i i))))))").Unhindered ⟨⟨0, 31⟩, .doLoop true⟩
        ⟨"i", ⟨25, 26⟩⟩ ∧
      (analyze {} "(do* ((i 0) (j 0 (do ((i i))))))").MeansVariableOf ⟨⟨0, 31⟩, .doLoop true⟩
        ⟨"i", ⟨25, 26⟩⟩ := by
  have hshows := shows_sequential
  generalize "(do* ((i 0) (j 0 (do ((i i))))))" = text at *
  have hstep : (analyze {} text).InStepForm ⟨⟨0, 31⟩, .doLoop true⟩ ⟨17, 29⟩ ⟨"i", ⟨25, 26⟩⟩ :=
    inStepForm_of_mem hshows (.head _) ⟨true, rfl⟩ (.tail _ (.head _)) (by simp) (by decide)
  have hlocals : (analyze {} text).table.locals "i" =
      [.doVariable "do*" "i" ⟨7, 8⟩ ⟨5, 11⟩ ⟨11, 31⟩ ⟨0, 32⟩,
        .doVariable "do" "i" ⟨23, 24⟩ ⟨21, 28⟩ ⟨28, 28⟩ ⟨17, 29⟩] := by
    rw [table_analyze hshows.toHasForms]
    decide
  have hvariable : Binding.IsVariableOf (analyze {} text).source ⟨⟨0, 31⟩, .doLoop true⟩
      (.doVariable "do*" "i" ⟨7, 8⟩ ⟨5, 11⟩ ⟨11, 31⟩ ⟨0, 32⟩) :=
    (isVariableOf_iff_mem hshows (.head _)).2 (.head _)
  have hbinds : ∃ b ∈ (analyze {} text).table.locals "i",
      b.IsVariableOf (analyze {} text).source ⟨⟨0, 31⟩, .doLoop true⟩ :=
    ⟨_, hlocals ▸ .head _, hvariable⟩
  have hfree : (analyze {} text).Unhindered ⟨⟨0, 31⟩, .doLoop true⟩ ⟨"i", ⟨25, 26⟩⟩ := by
    constructor
    case sites =>
      rw [hlocals]
      decide
    case scopes =>
      rw [hlocals]
      rintro (_ | _ | i) b r hb hr hholds hother
      · cases hb
        exact absurd hvariable hother
      · cases hb
        cases hr
        cases hholds
      · cases hb
    case windows =>
      intro hhidden
      have hvisible := hhidden _ (hlocals ▸ .head _) hvariable
      cases hvisible
  exact ⟨hstep, hfree, (meansVariableOf_iff_unhindered {} text hstep hbinds).2 hfree⟩

private theorem shows_nested : (Source.ofText "(do ((i 0 (do ((i i))))))").Shows
    .commentStringQuoteBackquoteExceptComma
    [(⟨⟨0, 24⟩, .doLoop false⟩, [.stepForm ⟨10, 22⟩, .binding .anonymousVariable
        (.doVariable "do" "i" ⟨6, 7⟩ ⟨4, 24⟩ ⟨24, 24⟩ ⟨0, 25⟩)]),
      (⟨⟨10, 21⟩, .doLoop false⟩, [.binding .anonymousVariable
        (.doVariable "do" "i" ⟨16, 17⟩ ⟨14, 21⟩ ⟨21, 21⟩ ⟨10, 22⟩)])]
    [⟨"do", ⟨1, 3⟩⟩, ⟨"i", ⟨6, 7⟩⟩, ⟨"do", ⟨11, 13⟩⟩, ⟨"i", ⟨16, 17⟩⟩, ⟨"i", ⟨18, 19⟩⟩] where
  nothing := by cbv
  all := by
    rw [BindingForm.all_eq, (by cbv : BindingForm.words _ _ =
      [(⟨0, 24⟩, "do"), (⟨5, 22⟩, "i"), (⟨10, 21⟩, "do"), (⟨15, 19⟩, "i")])]
    rfl
  entries := by
    have hkeyword : keywordOf "do" = "do" := by decide
    rw [List.forall_mem_cons, List.forall_mem_singleton,
      BindingForm.entries_doLoop (by cbv : BindingForm.word? _ ⟨0, 24⟩ = some "do"),
      BindingForm.entries_doLoop (by cbv : BindingForm.word? _ ⟨10, 21⟩ = some "do"), hkeyword]
    constructor <;> cbv
  quoted := by cbv
  symbols_eq := by cbv

/-- The symbol is an initial value of another `do` form, whose window is nearer. -/
private theorem not_stepFormsSee_nested :
    ¬(analyze {} "(do ((i 0 (do ((i i))))))").StepFormsSee := by
  have hshows := shows_nested
  generalize "(do ((i 0 (do ((i i))))))" = text at *
  have hstep : (analyze {} text).InStepForm ⟨⟨0, 24⟩, .doLoop false⟩ ⟨10, 22⟩
      ⟨"i", ⟨18, 19⟩⟩ :=
    inStepForm_of_mem hshows (.head _) ⟨false, rfl⟩ (.head _) (by simp) (by decide)
  have hlocals : (analyze {} text).table.locals "i" =
      [.doVariable "do" "i" ⟨6, 7⟩ ⟨4, 24⟩ ⟨24, 24⟩ ⟨0, 25⟩,
        .doVariable "do" "i" ⟨16, 17⟩ ⟨14, 21⟩ ⟨21, 21⟩ ⟨10, 22⟩] := by
    rw [table_analyze hshows.toHasForms]
    decide
  refine hstep.not_stepFormsSee hshows (.head _) hlocals ⟨_, .head _, .tail _ (.head _)⟩ ?_
    (b := .doVariable "do" "i" ⟨16, 17⟩ ⟨14, 21⟩ ⟨21, 21⟩ ⟨10, 22⟩) ?_ (.inr ⟨?_, ?_⟩)
  · simp [Binding.doVariable, Binding.lexical, Binding.isVisibleAt, Span.touches, Span.covers]
  · simp [Binding.doVariable, Binding.lexical]
  · simp [Binding.doVariable, Binding.lexical, Binding.isVisibleAt, Span.touches]
  · exact ⟨[_], [], ⟨14, 21⟩, rfl, by decide, by decide, by decide, by decide⟩

private theorem shows_enclosed : (Source.ofText "(let (i) (do ((i 0 i))))").Shows
    .commentStringQuoteBackquoteExceptComma
    [(⟨⟨0, 23⟩, .letLike false .localVariable⟩, [.binding .anonymousVariable
        (.lexical "i" ⟨6, 7⟩ .localVariable "let" ⟨8, 23⟩ ⟨0, 24⟩)]),
      (⟨⟨9, 22⟩, .doLoop false⟩, [.stepForm ⟨19, 20⟩, .binding .anonymousVariable
        (.doVariable "do" "i" ⟨15, 16⟩ ⟨13, 22⟩ ⟨22, 22⟩ ⟨9, 23⟩)])]
    [⟨"let", ⟨1, 4⟩⟩, ⟨"i", ⟨6, 7⟩⟩, ⟨"do", ⟨10, 12⟩⟩, ⟨"i", ⟨15, 16⟩⟩, ⟨"i", ⟨19, 20⟩⟩] where
  nothing := by cbv
  all := by
    rw [BindingForm.all_eq, (by cbv : BindingForm.words _ _ =
      [(⟨0, 23⟩, "let"), (⟨5, 7⟩, "i"), (⟨9, 22⟩, "do"), (⟨14, 20⟩, "i")])]
    rfl
  entries := by
    have hkeyword : keywordOf "let" = "let" ∧ keywordOf "do" = "do" := by decide
    rw [List.forall_mem_cons, List.forall_mem_singleton,
      BindingForm.entries_letLike (by cbv : BindingForm.word? _ ⟨0, 23⟩ = some "let"),
      BindingForm.entries_doLoop (by cbv : BindingForm.word? _ ⟨9, 22⟩ = some "do"),
      hkeyword.1, hkeyword.2]
    constructor <;> cbv
  quoted := by cbv
  symbols_eq := by cbv

/-- A form around the `do` form binds the name, and no scope of a variable holds the symbol. -/
private theorem not_stepFormsSee_enclosed :
    ¬(analyze {} "(let (i) (do ((i 0 i))))").StepFormsSee := by
  have hshows := shows_enclosed
  generalize "(let (i) (do ((i 0 i))))" = text at *
  have hstep : (analyze {} text).InStepForm ⟨⟨9, 22⟩, .doLoop false⟩ ⟨19, 20⟩
      ⟨"i", ⟨19, 20⟩⟩ :=
    inStepForm_of_mem hshows (.tail _ (.head _)) ⟨false, rfl⟩ (.head _) (by simp) (by decide)
  have hlocals : (analyze {} text).table.locals "i" =
      [.lexical "i" ⟨6, 7⟩ .localVariable "let" ⟨8, 23⟩ ⟨0, 24⟩,
        .doVariable "do" "i" ⟨15, 16⟩ ⟨13, 22⟩ ⟨22, 22⟩ ⟨9, 23⟩] := by
    rw [table_analyze hshows.toHasForms]
    decide
  refine hstep.not_stepFormsSee hshows (.tail _ (.head _)) hlocals
    ⟨_, .tail _ (.head _), .tail _ (.head _)⟩ ?_
    (b := .lexical "i" ⟨6, 7⟩ .localVariable "let" ⟨8, 23⟩ ⟨0, 24⟩) ?_ (.inl ?_)
  · simp [Span.covers, Pair.span]
  · simp [Binding.doVariable, Binding.lexical]
  · exact ⟨[], [_], ⟨8, 23⟩, rfl, by decide, by decide, by decide, by decide⟩

/-- A name in a step form need not mean a variable of the `do` form, although no form inside the
step form has a scope there: the window of another `do` form may be nearer, and a form around may
bind the name. -/
theorem stepForms_hide :
    ¬(analyze {} "(do ((i 0 (do ((i i))))))").StepFormsSee ∧
      ¬(analyze {} "(let (i) (do ((i 0 i))))").StepFormsSee :=
  ⟨not_stepFormsSee_nested, not_stepFormsSee_enclosed⟩

end Analysis

end LexScope
