import LexScope.Document.Completion
import LexScope.Proofs.Binding.Siblings
import Mathlib

/-!
# What completion describes

Of the visible bindings of a name completion describes the local one that is written last, while the
name means the one whose scope starts last. Where each form opens in the scope of the bindings
around it and after their names, both orders agree. A function of `labels` is visible before it is
written, and there they do not.
-/

namespace LexScope

/-! ## The visible bindings -/

namespace Table

/-- The visible bindings come in the order of their names. -/
theorem pairwise_visibleAt (t : Table) (offset : Nat) :
    (t.visibleAt offset).Pairwise fun a b => a.name ≤ b.name :=
  (List.pairwise_mergeSort visibleOrder_trans visibleOrder_total _).imp name_le_of_visibleOrder

/-- The last bindings of each name are among the bindings. -/
theorem mem_lastOfEach {l : List Binding} {b : Binding} (h : b ∈ lastOfEach l) : b ∈ l := by
  fun_induction lastOfEach l with
  | case1 => cases h
  | case2 c rest hlater ih => exact List.mem_cons_of_mem _ (ih h)
  | case3 c rest hlast ih =>
    rcases List.mem_cons.1 h with rfl | hrest
    · exact List.mem_cons_self
    · exact List.mem_cons_of_mem _ (ih hrest)

end Table

/-! ## The binding that describes a name -/

namespace Analysis

/-- The binding is one of the list, and if there are local ones it is the one that is written
last. -/
structure Describes (l : List Binding) (b : Binding) : Prop where
  /-- It is one of them. -/
  mem : b ∈ l
  /-- Local bindings come before global ones, and later ones before earlier ones. -/
  last : ∀ c ∈ l, c.isGlobal = false → b.isGlobal = false ∧ c.site.start ≤ b.site.start

private theorem preferred_describes (current candidate : Binding) :
    Describes [current, candidate] (preferred current candidate) := by
  unfold preferred
  split
  · next hcandidate hcurrent => exact ⟨by simp, by simp [hcandidate, hcurrent]⟩
  · next hcandidate hcurrent => exact ⟨by simp, by simp [hcandidate, hcurrent]⟩
  · next hglobal hlocal =>
    -- Both are local or both are global.
    have hsame : current.isGlobal = candidate.isGlobal := by
      cases hc : current.isGlobal <;> cases hd : candidate.isGlobal <;> simp_all
    split
    · next hle => exact ⟨by simp, by simp [hsame, hle]⟩
    · next hlt =>
      refine ⟨by simp, ?_⟩
      simp only [List.mem_cons, List.not_mem_nil, or_false, forall_eq_or_imp, forall_eq, hsame]
      exact ⟨fun hc => ⟨hc, Nat.le_refl _⟩, fun hc => ⟨hc, by omega⟩⟩

/-- Of two bindings only the preferred one counts. -/
theorem Describes.cons_cons {c d p b : Binding} {l : List Binding} (hpair : Describes [c, d] p)
    (h : Describes (p :: l) b) : Describes (c :: d :: l) b := by
  have hsplit : c :: d :: l = [c, d] ++ l := rfl
  rw [hsplit]
  constructor
  · rcases List.mem_cons.1 h.mem with rfl | hmem
    · exact List.mem_append_left _ hpair.mem
    · exact List.mem_append_right _ hmem
  · intro e he hlocal
    rcases List.mem_append.1 he with he | he
    · obtain ⟨hp, hle⟩ := hpair.last e he hlocal
      obtain ⟨hb, hle'⟩ := h.last p List.mem_cons_self hp
      exact ⟨hb, Nat.le_trans hle hle'⟩
    · exact h.last e (List.mem_cons_of_mem _ he) hlocal

/-- A fold over the candidates keeps the one that describes the name. -/
theorem foldl_preferred_describes (current : Binding) (l : List Binding) :
    Describes (current :: l) (l.foldl preferred current) := by
  induction l generalizing current with
  | nil => exact ⟨List.mem_cons_self, by simp⟩
  | cons candidate rest ih => exact (preferred_describes current candidate).cons_cons (ih _)

/-- In a list sorted by name the bindings of the first name stand together. -/
theorem takeWhile_eq_filter {name : String} {l : List Binding}
    (h : l.Pairwise fun b c => b.name ≤ c.name) (hname : ∀ b ∈ l, name ≤ b.name) :
    l.takeWhile (·.name == name) = l.filter (·.name == name) ∧
      l.dropWhile (·.name == name) = l.filter (·.name != name) := by
  refine takeWhile_dropWhile_eq_filter (h.imp_of_mem ?_)
  intro b c hb _ hle hc
  rw [eq_of_beq hc] at hle
  exact beq_iff_eq.2 (String.le_antisymm hle (hname b hb))

/-- Each name of a list sorted by name is described by the best of its bindings. -/
theorem describes_of_mem_describe {l : List Binding} (h : l.Pairwise fun b c => b.name ≤ c.name)
    {b : Binding} (hb : b ∈ describe l) : Describes (l.filter (·.name == b.name)) b := by
  fun_induction describe l with
  | case1 => cases hb
  | case2 first rest ih =>
    obtain ⟨hfirst, hrest⟩ := List.pairwise_cons.1 h
    obtain ⟨htake, hdrop⟩ := takeWhile_eq_filter hrest hfirst
    rcases List.mem_cons.1 hb with hb | hb
    · have hdescribes := foldl_preferred_describes first (rest.takeWhile (·.name == first.name))
      rw [← hb, htake] at hdescribes
      have hname : b.name = first.name := by
        rcases List.mem_cons.1 hdescribes.mem with heq | hmem
        · rw [heq]
        · exact eq_of_beq (List.mem_filter.1 hmem).2
      rwa [List.filter_cons_of_pos (by simp [hname]), hname]
    · have hdescribes := ih (hrest.sublist (List.dropWhile_sublist _)) hb
      rw [hdrop, List.filter_filter] at hdescribes
      have hname : b.name ≠ first.name := by
        simpa using (List.mem_filter.1 hdescribes.mem).2
      rw [List.filter_cons_of_neg (by simpa using hname.symm)]
      have hfilter : ∀ c ∈ rest,
          (c.name == b.name && c.name != first.name) = (c.name == b.name) := by
        intro c _
        by_cases hc : c.name = b.name <;> simp [hc, hname]
      rwa [List.filter_congr hfilter] at hdescribes

/-- A proposal describes the best of the visible bindings of its name. -/
theorem describes_of_mem_completions {a : Analysis} {offset : Nat} {item : CompletionItem}
    (h : item ∈ a.completions offset) : ∃ b, item = completionItem b ∧
      Describes ((a.table.visibleAt offset).filter (·.name == item.label)) b := by
  obtain ⟨b, hb, rfl⟩ := List.mem_map.1 h
  have hdescribes := describes_of_mem_describe
    ((a.table.pairwise_visibleAt offset).sublist List.filter_sublist) hb
  have htyped := (List.mem_filter.1 (List.mem_filter.1 hdescribes.mem).1).2
  refine ⟨b, rfl, ?_⟩
  rw [List.filter_filter] at hdescribes
  have hfilter : ∀ c ∈ a.table.visibleAt offset,
      (c.name == b.name && (a.typedAt offset).toList.isPrefixOf c.name.toList) =
        (c.name == b.name) := by
    intro c _
    by_cases hc : c.name = b.name <;> simp [hc, htyped]
  rwa [List.filter_congr hfilter] at hdescribes

variable {settings : Settings} {text : String}

/-- The visible bindings of a name are its local ones, and perhaps a global one. -/
theorem mem_visibleAt {t : Table} {offset : Nat} {b : Binding} (hb : b ∈ t.lexicals)
    (hvisible : b.isVisibleAt offset = true) : b ∈ t.visibleAt offset :=
  List.mem_mergeSort.2 (List.mem_append_right _ (List.mem_filter.2 ⟨hb, hvisible⟩))

private theorem isGlobal_of_isVisibleAt {b : Binding} {offset : Nat}
    (h : b.isVisibleAt offset = true) :
    b.isGlobal = false := by
  obtain ⟨s, hs, -⟩ := (Option.any_eq_true _ _).1 h
  simp [Binding.isGlobal, hs]

/-- A name that is bound where the cursor is, is described by the visible local binding that is
written last. -/
theorem last_of_mem_completions {offset : Nat} {item : CompletionItem}
    (h : item ∈ (analyze settings text).completions offset)
    (hlocal : ∃ b ∈ (analyze settings text).table.locals item.label,
      b.isVisibleAt offset = true) :
    ∃ d ∈ (analyze settings text).table.locals item.label,
      d.isVisibleAt offset = true ∧ item = completionItem d ∧
        ∀ b ∈ (analyze settings text).table.locals item.label,
          b.isVisibleAt offset = true → b.site.start ≤ d.site.start := by
  have hregular : ∀ c, ∀ b ∈ (analyze settings text).table.get c,
      b.Regular (analyze settings text).source c := fun _ _ => regular_of_mem_get
  generalize analyze settings text = a at h hlocal hregular ⊢
  obtain ⟨d, hitem, hdescribes⟩ := describes_of_mem_completions h
  have hlast (b : Binding) (hb : b ∈ a.table.locals item.label)
      (hvisible : b.isVisibleAt offset = true) :
      d.isGlobal = false ∧ b.site.start ≤ d.site.start := by
    obtain ⟨hmem, hname⟩ := List.mem_filter.1 hb
    exact hdescribes.last b (List.mem_filter.2 ⟨mem_visibleAt hmem hvisible, hname⟩)
      (isGlobal_of_isVisibleAt hvisible)
  obtain ⟨b, hb, hvisible⟩ := hlocal
  have hnotGlobal := (hlast b hb hvisible).1
  obtain ⟨hmem, hname⟩ := List.mem_filter.1 hdescribes.mem
  rcases List.mem_append.1 (List.mem_mergeSort.1 hmem) with hglobal | hlexical
  · -- Global definitions have no scope.
    have := (hregular .globalDefinition d (Table.mem_lastOfEach hglobal)).global rfl
    simp [Binding.isGlobal, this.1] at hnotGlobal
  · obtain ⟨hlexical, hdvisible⟩ := List.mem_filter.1 hlexical
    exact ⟨d, List.mem_filter.2 ⟨hlexical, hname⟩, hdvisible, hitem,
      fun b hb hvisible => (hlast b hb hvisible).2⟩

/-- At a cursor a name that is bound there means the innermost binding. -/
theorem binding_resolve_point {name : String} {offset : Nat}
    (hlocal : ∃ b ∈ (analyze settings text).table.locals name, b.isVisibleAt offset = true) :
    ∃ b, Table.innermost ((analyze settings text).table.locals name) offset = some b ∧
      ((analyze settings text).table.resolve name (.point offset) (some offset)).binding =
        some b := by
  have hregular : ∀ c, ∀ b ∈ (analyze settings text).table.get c,
      b.Regular (analyze settings text).source c := fun _ _ => regular_of_mem_get
  generalize analyze settings text = a at hlocal hregular ⊢
  obtain ⟨b, hb, hvisible⟩ := hlocal
  have hnone : (a.table.locals name).find? (·.site == Span.point offset) = none := by
    rw [List.find?_eq_none]
    intro c hc
    obtain ⟨k, -, hmem⟩ := List.mem_flatMap.1 (List.mem_filter.1 hc).1
    have hproper := (hregular k c hmem).proper
    rw [beq_iff_eq]
    intro hsite
    rw [hsite] at hproper
    exact Nat.lt_irrefl _ hproper
  cases hinner : Table.innermost (a.table.locals name) offset with
  | none =>
    rw [Table.innermost_eq_none hinner b hb] at hvisible
    cases hvisible
  | some c =>
    refine ⟨c, rfl, ?_⟩
    rw [Table.resolve]
    simp only [hnone, hinner]
    rfl

end Analysis

/-! ## Where both orders agree -/

/-- The first binding is written and visible where the form opens to whose end the second one is
seen. -/
def Binding.IsAround (src : Source) (b c : Binding) : Prop :=
  ∃ q ∈ src.layout.pairs.pairs, c.scope.map (·.stop) = some q.closing ∧
    b.site.stop ≤ q.opening ∧ ∃ r, b.scope = some r ∧ r.start ≤ q.opening

/-- The two bindings come from one list: they belong to one collection, and are seen to the end of
one form. -/
def Table.AreListed (t : Table) (b c : Binding) : Prop :=
  ∃ k ∈ Collection.lexical, b ∈ t.get k ∧ c ∈ t.get k ∧
    b.scope.map (·.stop) = c.scope.map (·.stop)

/-- Of any two visible bindings of the name one is around the other, or they come from one list. -/
def Analysis.Nests (a : Analysis) (name : String) (offset : Nat) : Prop :=
  ∀ b ∈ a.table.locals name, ∀ c ∈ a.table.locals name,
    b.isVisibleAt offset = true → c.isVisibleAt offset = true →
      b.IsAround a.source c ∨ c.IsAround a.source b ∨ a.table.AreListed b c

/-- What is around another binding is written and seen before it. -/
theorem Binding.IsAround.seenBefore {src : Source} (hsrc : src.Nests) {k : Collection}
    (hk : k ≠ .globalDefinition) {b c : Binding} (h : b.IsAround src c) (hc : c.Regular src k) :
    b.SeenBefore c := by
  obtain ⟨q, hq, hstop, hsite, r, hr, hstart⟩ := h
  obtain ⟨-, q', hq', start, hscope, hcovers, hopening, -⟩ := hc.lexical hk
  rw [hscope, Option.map_some, Option.some.injEq] at hstop
  obtain rfl := hsrc.nests.laminar.eq_of_shared hq' hq (.inr hstop) (.inr rfl)
  have hform := (Span.covers_iff.1 hcovers).1
  have hinside := (Span.covers_iff.1 hc.inside).1
  simp only [Pair.span] at hform
  exact ⟨by omega, r, _, hr, hscope, Nat.lt_of_le_of_lt hstart hopening⟩

namespace Analysis

/-- Of two functions of one form the innermost one is the one that is written last. -/
theorem eq_of_localDefinition {src : Source} (hsrc : src.Nests) {mode : Mode} {name : String}
    {offset : Nat} {b d : Binding}
    (hinner : Table.innermost ((Table.ofSource src mode).locals name) offset = some b)
    (hd : d ∈ (Table.ofSource src mode).locals name) (hvisible : d.isVisibleAt offset = true)
    (hproper : d.site.start < d.site.stop) (hlast : b.site.start ≤ d.site.start)
    (hb : b ∈ (Table.ofSource src mode).get .localDefinition)
    (hd' : d ∈ (Table.ofSource src mode).get .localDefinition)
    (hstop : b.scope.map (·.stop) = d.scope.map (·.stop)) : b = d := by
  have hscope := Table.scope_eq_of_stop_eq hsrc hb hd' hstop
  obtain ⟨before, after, hsplit, -, hafter⟩ := exists_of_lastMaxBy hinner
  have hsub : (before ++ b :: after).Sublist (Table.ofSource src mode).lexicals := by
    rw [← hsplit]
    exact List.filter_sublist.trans List.filter_sublist
  have hmem : d ∈ before ++ b :: after := by
    rw [← hsplit]
    exact List.mem_filter.2 ⟨hd, hvisible⟩
  have hordered := List.pairwise_append.1 ((Table.pairwise_lexicals hsrc).sublist hsub)
  rcases List.mem_append.1 hmem with hbefore | hmem
  · have := hordered.2.2 d hbefore b List.mem_cons_self hd' hb hstop.symm
    omega
  · rcases List.mem_cons.1 hmem with rfl | hmem
    · rfl
    · have := hafter d hmem
      rw [hscope] at this
      omega

private theorem completionItem_congr {b d : Binding} (hname : b.name = d.name)
    (h : b.kind = d.kind ∧ b.container = d.container ∧ b.doc = d.doc) :
    completionItem b = completionItem d := by
  obtain ⟨hkind, hcontainer, hdoc⟩ := h
  simp only [completionItem, hname, hkind, hcontainer, hdoc]

variable {settings : Settings} {text : String} {offset : Nat}

/-- Where the visible bindings of a name nest, the binding that is written last reads like the
innermost one. -/
theorem completionItem_eq_of_nests {name : String}
    (hnests : (analyze settings text).Nests name offset) {b d : Binding}
    (hinner : Table.innermost ((analyze settings text).table.locals name) offset = some b)
    (hd : d ∈ (analyze settings text).table.locals name) (hvisible : d.isVisibleAt offset = true)
    (hlast : b.site.start ≤ d.site.start) : completionItem d = completionItem b := by
  have hregular : ∀ c, ∀ b ∈ (analyze settings text).table.get c,
      b.Regular (analyze settings text).source c := fun _ _ => regular_of_mem_get
  rw [analyze_eq] at hnests hinner hd hregular
  have hsrc := Source.nests_ofText text
  generalize Source.ofText text = src at *
  simp only [Nests] at hnests hinner hd hregular
  obtain ⟨hb, r, hr, htouches, hlatest⟩ := Table.innermost_eq_some hinner
  have hbvisible : b.isVisibleAt offset = true := by
    rw [Binding.isVisibleAt, hr, Option.any_some, htouches]
  have hof {b : Binding} (hb : b ∈ (Table.ofSource src settings.collection).locals name) :
      ∃ k, k ≠ .globalDefinition ∧ b.Regular src k := by
    obtain ⟨k, hk, hmem⟩ := List.mem_flatMap.1 (List.mem_filter.1 hb).1
    refine ⟨k, ?_, hregular k b hmem⟩
    rintro rfl
    simp [Collection.lexical] at hk
  obtain ⟨k, hk, hbregular⟩ := hof hb
  obtain ⟨k', hk', hdregular⟩ := hof hd
  have hproper := hdregular.proper
  -- Neither is seen before the other, since one starts last and the other one is written last.
  have hnotBefore : ¬b.SeenBefore d := by
    rintro ⟨-, r', s, hr', hs, hlt⟩
    rw [hr, Option.some.injEq] at hr'
    subst hr'
    obtain ⟨s', hs', htouches'⟩ := (Option.any_eq_true _ _).1 hvisible
    rw [hs, Option.some.injEq] at hs'
    have := hlatest d hd s hs (hs' ▸ htouches')
    omega
  have hnotBehind : ¬d.SeenBefore b := by
    rintro ⟨hle, -⟩
    omega
  have hname : d.name = b.name :=
    (eq_of_beq (List.mem_filter.1 hd).2).trans (eq_of_beq (List.mem_filter.1 hb).2).symm
  rcases hnests b hb d hd hbvisible hvisible with haround | haround | ⟨c, hc, hbc, hdc, hstop⟩
  · exact absurd (haround.seenBefore hsrc hk' hdregular) hnotBefore
  · exact absurd (haround.seenBefore hsrc hk hbregular) hnotBehind
  · by_cases hloop : c = .loopBinding
    · subst hloop
      rcases Table.loop_ordered hsrc hbc hdc hstop with rfl | h | h
      · rfl
      · exact absurd h hnotBefore
      · exact absurd h hnotBehind
    by_cases hfunction : c = .localDefinition
    · subst hfunction
      rw [eq_of_localDefinition hsrc hinner hd hvisible hproper hlast hbc hdc hstop]
    · have hglobal : c ≠ .globalDefinition := by
        rintro rfl
        simp [Collection.lexical] at hc
      exact completionItem_congr hname
        (Table.alike_of_stop_eq hsrc hdc hbc ⟨hglobal, hfunction, hloop⟩ hstop.symm)

/-- A proposal for a name that is bound where the cursor is describes the binding that the name
means there, if the visible bindings of the name nest. -/
theorem completion_describes_resolved (settings : Settings) (text : String) (offset : Nat)
    {item : CompletionItem} (h : item ∈ (analyze settings text).completions offset)
    (hlocal : ∃ b ∈ (analyze settings text).table.locals item.label,
      b.isVisibleAt offset = true)
    (hnests : (analyze settings text).Nests item.label offset) :
    ∃ b, ((analyze settings text).table.resolve item.label (.point offset)
        (some offset)).binding = some b ∧ item = completionItem b := by
  obtain ⟨d, hd, hvisible, hitem, hlast⟩ := last_of_mem_completions h hlocal
  obtain ⟨b, hinner, hbinding⟩ := binding_resolve_point hlocal
  obtain ⟨hb, r, hr, htouches, -⟩ := Table.innermost_eq_some hinner
  have hbvisible : b.isVisibleAt offset = true := by
    rw [Binding.isVisibleAt, hr, Option.any_some, htouches]
  exact ⟨b, hbinding, hitem.trans
    (completionItem_eq_of_nests hnests hinner hd hvisible (hlast b hb hbvisible))⟩

private theorem hasForms_let : (Source.ofText "(let (i) (let (i)))").HasForms
    .commentStringQuoteBackquoteExceptComma
    [(⟨⟨0, 18⟩, .letLike false .localVariable⟩, [.binding .anonymousVariable
        (.lexical "i" ⟨6, 7⟩ .localVariable "let" ⟨8, 18⟩ ⟨0, 19⟩)]),
      (⟨⟨9, 17⟩, .letLike false .localVariable⟩, [.binding .anonymousVariable
        (.lexical "i" ⟨15, 16⟩ .localVariable "let" ⟨17, 17⟩ ⟨9, 18⟩)])] where
  nothing := by cbv
  all := by
    rw [BindingForm.all_eq, (by cbv : BindingForm.words _ _ =
      [(⟨0, 18⟩, "let"), (⟨5, 7⟩, "i"), (⟨9, 17⟩, "let"), (⟨14, 16⟩, "i")])]
    rfl
  entries := by
    have hkeyword : keywordOf "let" = "let" := by decide
    rw [List.forall_mem_cons, List.forall_mem_singleton,
      BindingForm.entries_letLike (by cbv : BindingForm.word? _ ⟨0, 18⟩ = some "let"),
      BindingForm.entries_letLike (by cbv : BindingForm.word? _ ⟨9, 17⟩ = some "let"), hkeyword]
    constructor <;> cbv

/-- Two `let` forms that bind one name, with the cursor in the inner one. -/
theorem completion_describes_resolved_let :
    ∃ b, ((analyze {} "(let (i) (let (i)))").table.resolve "i" (.point 17)
        (some 17)).binding = some b ∧
      completionItem (.lexical "i" ⟨15, 16⟩ .localVariable (keywordOf "let") ⟨17, 17⟩ ⟨9, 18⟩) =
        completionItem b := by
  have hforms := hasForms_let
  have hpairs : (Source.ofText "(let (i) (let (i)))").layout.pairs.pairs =
      [⟨0, 18⟩, ⟨5, 7⟩, ⟨9, 17⟩, ⟨14, 16⟩] := by
    cbv
  have htyped : ∀ table symbols, (⟨"(let (i) (let (i)))", {}, .ofText "(let (i) (let (i)))", table,
      symbols⟩ : Analysis).typedAt 17 = "" := by
    intro table symbols
    cbv
  generalize "(let (i) (let (i)))" = text at *
  rw [(by decide : keywordOf "let" = "let")]
  have htable : Table.ofSource (.ofText text) .commentStringQuoteBackquoteExceptComma =
      { anonymousVariables := [.lexical "i" ⟨6, 7⟩ .localVariable "let" ⟨8, 18⟩ ⟨0, 19⟩,
          .lexical "i" ⟨15, 16⟩ .localVariable "let" ⟨17, 17⟩ ⟨9, 18⟩] } := by
    rw [hforms.table_eq]
    rfl
  have hitem : (analyze {} text).completions 17 =
      [completionItem (.lexical "i" ⟨15, 16⟩ .localVariable "let" ⟨17, 17⟩ ⟨9, 18⟩)] := by
    simp only [analyze_eq, htable, completions, bindingsAt, htyped]
    cbv
  have hlocals : (analyze {} text).table.locals "i" =
      [.lexical "i" ⟨6, 7⟩ .localVariable "let" ⟨8, 18⟩ ⟨0, 19⟩,
        .lexical "i" ⟨15, 16⟩ .localVariable "let" ⟨17, 17⟩ ⟨9, 18⟩] := by
    rw [analyze_eq, htable]
    simp [Table.locals, Table.lexicals, Collection.lexical, Table.get, Binding.lexical]
  have haround : (Binding.lexical "i" ⟨6, 7⟩ .localVariable "let" ⟨8, 18⟩ ⟨0, 19⟩).IsAround
      (.ofText text) (.lexical "i" ⟨15, 16⟩ .localVariable "let" ⟨17, 17⟩ ⟨9, 18⟩) := by
    refine ⟨⟨9, 17⟩, by simp [hpairs], rfl, ?_, _, rfl, ?_⟩ <;> simp [Binding.lexical]
  have hnests : (analyze {} text).Nests "i" 17 := by
    intro b hb c hc _ _
    rw [hlocals] at hb hc
    rw [analyze_eq, htable]
    simp only [List.mem_cons, List.not_mem_nil, or_false] at hb hc
    rcases hb with rfl | rfl <;> rcases hc with rfl | rfl
    · exact .inr (.inr ⟨.anonymousVariable, by decide, .head _, .head _, rfl⟩)
    · exact .inl haround
    · exact .inr (.inl haround)
    · exact .inr (.inr ⟨.anonymousVariable, by decide, .tail _ (.head _), .tail _ (.head _), rfl⟩)
  have hproposed : completionItem (.lexical "i" ⟨15, 16⟩ .localVariable "let" ⟨17, 17⟩ ⟨9, 18⟩) ∈
      (analyze {} text).completions 17 := by
    rw [hitem]
    exact List.mem_singleton_self _
  have hlocal : ∃ b ∈ (analyze {} text).table.locals "i", b.isVisibleAt 17 = true := by
    rw [hlocals]
    exact ⟨_, List.mem_cons_self, rfl⟩
  have hresolved := completion_describes_resolved {} text 17 hproposed hlocal hnests
  exact hresolved

/-- Each proposal for a name that is bound where the cursor is describes what the name means
there. -/
def CompletionDescribes (a : Analysis) : Prop :=
  ∀ offset, ∀ item ∈ a.completions offset,
    (∃ b ∈ a.table.locals item.label, b.isVisibleAt offset = true) →
      ∃ b, (a.table.resolve item.label (.point offset) (some offset)).binding = some b ∧
        item = completionItem b

private theorem hasForms_labels : (Source.ofText "(labels ((g (f)) (f)))").HasForms
    .commentStringQuoteBackquoteExceptComma
    [(⟨⟨0, 21⟩, .localFunctions .labels⟩,
      [.binding .localDefinition (.lexical "g" ⟨10, 11⟩ .localFunction "labels" ⟨8, 21⟩ ⟨9, 16⟩),
        .binding .localParameter (.lexical "f" ⟨13, 14⟩ .parameter "g" ⟨14, 15⟩ ⟨9, 16⟩),
        .binding .localDefinition
          (.lexical "f" ⟨18, 19⟩ .localFunction "labels" ⟨8, 21⟩ ⟨17, 20⟩)])] where
  nothing := by cbv
  all := by
    rw [BindingForm.all_eq, (by cbv : BindingForm.words _ _ =
      [(⟨0, 21⟩, "labels"), (⟨9, 15⟩, "g"), (⟨12, 14⟩, "f"), (⟨17, 19⟩, "f")])]
    rfl
  entries := by
    have hkeyword : keywordOf "labels" = "labels" := by decide
    rw [List.forall_mem_singleton,
      BindingForm.entries_localFunctions (by cbv : BindingForm.word? _ _ = some "labels"), hkeyword]
    cbv

/-- A function of `labels` is visible before it is written. So it describes the parameter of an
earlier function of the form. -/
theorem not_completionDescribes_labels :
    ¬(analyze {} "(labels ((g (f)) (f)))").CompletionDescribes := by
  have hforms := hasForms_labels
  have htyped : ∀ table symbols, (⟨"(labels ((g (f)) (f)))", {}, .ofText "(labels ((g (f)) (f)))",
      table, symbols⟩ : Analysis).typedAt 15 = "" := by
    intro table symbols
    cbv
  generalize "(labels ((g (f)) (f)))" = text at *
  have htable : Table.ofSource (.ofText text) .commentStringQuoteBackquoteExceptComma =
      { localDefinitions := [.lexical "g" ⟨10, 11⟩ .localFunction "labels" ⟨8, 21⟩ ⟨9, 16⟩,
          .lexical "f" ⟨18, 19⟩ .localFunction "labels" ⟨8, 21⟩ ⟨17, 20⟩]
        localParameters := [.lexical "f" ⟨13, 14⟩ .parameter "g" ⟨14, 15⟩ ⟨9, 16⟩] } := by
    rw [hforms.table_eq]
    rfl
  have hitems : (analyze {} text).completions 15 =
      [completionItem (.lexical "f" ⟨18, 19⟩ .localFunction "labels" ⟨8, 21⟩ ⟨17, 20⟩),
        completionItem (.lexical "g" ⟨10, 11⟩ .localFunction "labels" ⟨8, 21⟩ ⟨9, 16⟩)] := by
    simp only [analyze_eq, htable, completions, bindingsAt, htyped]
    cbv
  have hresolve : (analyze {} text).table.resolve "f" (.point 15) (some 15) =
      .found (.lexical "f" ⟨13, 14⟩ .parameter "g" ⟨14, 15⟩ ⟨9, 16⟩) := by
    simp only [analyze_eq, htable]
    cbv
  have hlocal : .lexical "f" ⟨13, 14⟩ .parameter "g" ⟨14, 15⟩ ⟨9, 16⟩ ∈
      (analyze {} text).table.locals "f" := by
    rw [analyze_eq, htable]
    simp [Table.locals, Table.lexicals, Collection.lexical, Table.get, Binding.lexical]
  intro h
  have hproposed : completionItem (.lexical "f" ⟨18, 19⟩ .localFunction "labels" ⟨8, 21⟩ ⟨17, 20⟩) ∈
      (analyze {} text).completions 15 := by
    rw [hitems]
    exact List.mem_cons_self
  obtain ⟨b, hb, hitem⟩ := h 15 _ hproposed ⟨_, hlocal, rfl⟩
  -- The name means the parameter, and what is proposed is the function.
  have hparameter : Option.some (Binding.lexical "f" ⟨13, 14⟩ .parameter "g" ⟨14, 15⟩ ⟨9, 16⟩) =
      some b := by
    rw [← hb]
    exact congrArg Resolution.binding hresolve.symm
  rw [← Option.some.inj hparameter] at hitem
  cases congrArg CompletionItem.kind hitem

end Analysis

end LexScope
