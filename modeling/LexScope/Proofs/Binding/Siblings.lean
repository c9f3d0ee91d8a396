import LexScope.Proofs.Binding.Lookup
import LexScope.Proofs.Binding.Regular

/-!
# Bindings of one form

Each kind of form fills collections of its own, and the scopes of what it binds end with it, so that
the bracket where a scope ends tells which form a binding comes from. Two bindings of one collection
that end there differ in name, place and start of scope only, with two exceptions. The names of a
`loop` are variables or the name of the form, and local functions have documentation. Both are
listed as they are written.
-/

namespace LexScope

/-- One binding is written before the other, and seen before it. -/
def Binding.SeenBefore (b d : Binding) : Prop :=
  b.site.stop ≤ d.site.start ∧
    ∃ r s, b.scope = some r ∧ d.scope = some s ∧ r.start < s.start

/-! ## What a binding says about its form -/

/-- The binding has this kind and container and no documentation, and is seen to the end of the
form. -/
structure Binding.Reads (kind : BindingKind) (container : String) (form : Pair) (b : Binding) :
    Prop where
  /-- Its kind. -/
  kind : b.kind = kind
  /-- Its container. -/
  container : b.container = some container
  /-- It has no documentation. -/
  doc : b.doc = none
  /-- Its scope ends with the form. -/
  scope : ∃ start, b.scope = some ⟨start, form.closing⟩

/-- A binding among the entries belongs to this collection and reads like this. -/
def Entry.Reads (c : Collection) (kind : BindingKind) (container : String) (form : Pair)
    (e : Entry) : Prop :=
  ∀ d b, e = .binding d b → d = c ∧ b.Reads kind container form

section Reads

variable {src : Source} {c : Collection} {kind : BindingKind} {container : String} {form : Pair}

private theorem Entry.reads_lexical {s : Span} {start : Nat} {n : NameSite} :
    ∀ e ∈ Entry.lexical c kind container form s start n, e.Reads c kind container form := by
  intro e he d b hb
  unfold Entry.lexical at he
  split at he
  · next scope hscope =>
    obtain ⟨rfl, -⟩ := eq_of_scopeIn hscope
    rw [List.mem_singleton.1 he] at hb
    cases hb
    exact ⟨rfl, rfl, rfl, rfl, start, rfl⟩
  · cases he

private theorem Entry.reads_parameters {ps : List Parameter} :
    ∀ e ∈ Entry.parameters c container form ps, e.Reads c .parameter container form := by
  intro e he
  obtain ⟨p, -, he⟩ := List.mem_flatMap.1 he
  exact Entry.reads_lexical e he

namespace Definition

variable {name : String} {operands : List Node}

private theorem reads_setfLists : ∀ e ∈ setfLists src name form operands,
    e.Reads .globalParameter .parameter name form := by
  cases operands with
  | nil => simp [setfLists]
  | cons list rest =>
    intro e he
    rw [setfLists] at he
    split at he
    · rcases List.mem_append.1 he with he | he
      · exact Entry.reads_parameters e he
      · split at he
        · obtain ⟨site, -, he⟩ := List.mem_flatMap.1 he
          exact Entry.reads_lexical e he
        · cases he
    · cases he

private theorem reads_combinationOptions : ∀ e ∈ combinationOptions src name form operands,
    e.Reads .globalParameter .parameter name form := by
  induction operands with
  | nil => simp [combinationOptions]
  | cons n rest ih =>
    intro e he
    rw [combinationOptions] at he
    split at he
    · split at he
      · rcases List.mem_append.1 he with he | he
        · obtain ⟨p, -, he⟩ := List.mem_flatMap.1 he
          exact Entry.reads_lexical e he
        · exact ih e he
      split at he
      · rcases List.mem_append.1 he with he | he
        · obtain ⟨site, -, he⟩ := List.mem_flatMap.1 he
          exact Entry.reads_lexical e he
        · exact ih e he
      · cases he
    · exact ih e he

private theorem reads_combinationLists : ∀ e ∈ combinationLists src name form operands,
    e.Reads .globalParameter .parameter name form := by
  cases operands with
  | nil => simp [combinationLists]
  | cons list rest =>
    intro e he
    rw [combinationLists.eq_def] at he
    simp only at he
    split at he
    · rcases List.mem_append.1 he with he | he
      · exact Entry.reads_parameters e he
      · cases rest with
        | nil => cases he
        | cons groups options =>
          simp only at he
          split at he
          · cases he
          · rcases List.mem_append.1 he with he | he
            · obtain ⟨site, -, he⟩ := List.mem_flatMap.1 he
              exact Entry.reads_lexical e he
            · exact reads_combinationOptions e he
    · cases he

/-- The parameters a global form reads from its lists belong to its definition. -/
theorem reads_lists {d : Definer} : ∀ e ∈ (lists src d name form operands).1,
    e.Reads .globalParameter .parameter name form := by
  unfold lists
  split
  · exact Entry.reads_parameters
  · exact Entry.reads_parameters
  · exact Entry.reads_parameters
  · split
    · exact reads_setfLists
    · exact reads_combinationLists
    · simp

/-- Whatever a definition binds besides its name is a parameter. -/
theorem reads_entries {d : Definer} : ∃ name, ∀ e ∈ entries src form d operands,
    e.Reads .globalParameter .parameter name form ∨ ∃ b, e = .binding .globalDefinition b := by
  cases operands with
  | nil => exact ⟨"", by simp [entries]⟩
  | cons first rest =>
    cases hname : nameOf src d first with
    | none => exact ⟨"", by simp [entries, hname]⟩
    | some n =>
      refine ⟨n.name, fun e he => ?_⟩
      simp only [entries, hname] at he
      rcases List.mem_append.1 he with he | he
      · exact .inl (reads_lists e he)
      · exact .inr ⟨_, List.mem_singleton.1 he⟩

end Definition

namespace Variable

variable {keyword : String} {operands : List Node}

private theorem reads_letEntries {sequential : Bool} :
    ∀ e ∈ letEntries src form keyword sequential kind operands,
      e.Reads .anonymousVariable kind keyword form := by
  intro e he
  unfold letEntries at he
  split at he
  · cases he
  · obtain ⟨spec, -, he⟩ := List.mem_flatMap.1 he
    exact Entry.reads_lexical e he

private theorem reads_doEntries {sequential : Bool} :
    ∀ e ∈ doEntries src form keyword sequential operands,
      e.Reads .anonymousVariable .localVariable keyword form := by
  intro e he d b hb
  unfold doEntries at he
  split at he
  · cases he
  · obtain ⟨spec, -, he⟩ := List.mem_flatMap.1 he
    unfold doEntry at he
    rcases List.mem_append.1 he with hstep | hbinding
    · split at hstep
      · obtain ⟨n, -, rfl⟩ := List.mem_map.1 hstep
        cases hb
      · cases hstep
    · split at hbinding
      · next scope hscope =>
        obtain ⟨rfl, -⟩ := eq_of_scopeIn hscope
        rw [List.mem_singleton.1 hbinding] at hb
        cases hb
        exact ⟨rfl, rfl, rfl, rfl, _, rfl⟩
      · cases hbinding

private theorem reads_valueEntries {destructuring : Bool} :
    ∀ e ∈ valueEntries src form keyword destructuring operands,
      e.Reads .anonymousVariable .localVariable keyword form := by
  intro e he
  unfold valueEntries at he
  split at he
  · split at he
    · cases he
    · obtain ⟨param, -, he⟩ := List.mem_flatMap.1 he
      exact Entry.reads_lexical e he
  · cases he

private theorem reads_singleEntries {iterates : Bool} :
    ∀ e ∈ singleEntries src form keyword iterates kind operands,
      e.Reads .singleVariable kind keyword form := by
  intro e he
  unfold singleEntries at he
  split at he
  · cases he
  · split at he
    · cases he
    · exact Entry.reads_lexical e he

end Variable

end Reads

/-- Of two bindings of the collection the first one is written before the second one. -/
def Entry.Before (c : Collection) (d e : Entry) : Prop :=
  ∀ b b', d = .binding c b → e = .binding c b' → b.site.stop ≤ b'.site.start

/-! ## Local functions -/

namespace LocalFunction

variable {src : Source} {form : Pair} {keyword : String} {f : LocalFunctionForm}

/-- A local function is seen to the end of the form that defines it, and written in its
definition. -/
structure Defines (form : Pair) (keyword : String) (f : LocalFunctionForm) (list : Pair)
    (definition : Pair) (b : Binding) : Prop where
  /-- Its kind. -/
  kind : b.kind = kind f
  /-- Its container. -/
  container : b.container = some keyword
  /-- Its scope. -/
  scope : b.scope = some ⟨visibleFrom f list, form.closing⟩
  /-- Its name. -/
  site : definition.span.covers b.site = true

/-- Each definition binds its name and the parameters of the function. -/
theorem cases_definitionEntries {list definition : Pair}
    (hitems : ∀ n ∈ src.items definition, n.Within (definition.opening + 1) definition.closing)
    {e : Entry} (he : e ∈ definitionEntries src form keyword f list definition) :
    (∃ b, e = .binding .localDefinition b ∧ Defines form keyword f list definition b) ∨
      ∃ n, (src.items definition).head?.bind src.nameAt = some n ∧
        e.Reads .localParameter .parameter n.name definition := by
  unfold definitionEntries at he
  split at he
  · cases he
  · next first rest heq =>
    rw [heq] at hitems
    split at he
    · cases he
    · next n hname =>
      rcases List.mem_append.1 he with he | he
      · left
        split at he
        · next scope hscope =>
          obtain ⟨rfl, -⟩ := eq_of_scopeIn hscope
          refine ⟨_, List.mem_singleton.1 he, rfl, rfl, rfl, ?_⟩
          exact (Source.written_nameAt (hitems first List.mem_cons_self) hname).covers
        · cases he
      · right
        refine ⟨n, ?_, Entry.reads_parameters e he⟩
        rw [heq, List.head?_cons, Option.bind_some, hname]

/-- A definition binds its name once. -/
theorem pairwise_definitionEntries {list definition : Pair} :
    (definitionEntries src form keyword f list definition).Pairwise
      (Entry.Before .localDefinition) := by
  have hparameters (container : String) (ps : List Parameter) :
      ∀ e ∈ Entry.parameters .localParameter container definition ps,
        ∀ b, e ≠ .binding .localDefinition b := by
    rintro _ he b rfl
    cases (Entry.reads_parameters _ he _ _ rfl).1
  unfold definitionEntries
  split
  · exact List.Pairwise.nil
  · split
    · exact List.Pairwise.nil
    · refine List.pairwise_append.2 ⟨?_, ?_, ?_⟩
      · split
        · exact List.pairwise_singleton _ _
        · exact List.Pairwise.nil
      · refine List.pairwise_of_forall_mem_list fun d hd e he b c hb => ?_
        exact absurd hb (hparameters _ _ d hd b)
      · intro d _ e he b c _ hc
        exact absurd hc (hparameters _ _ e he c)

/-- The functions of a form are listed as they are written. -/
theorem pairwise_entries (hsrc : src.Nests) {operands : List Node} :
    (entries src form keyword f operands).Pairwise (Entry.Before .localDefinition) := by
  unfold entries
  split
  · exact List.Pairwise.nil
  · next list _ =>
    refine List.pairwise_flatMap.2 ⟨fun p _ => pairwise_definitionEntries, ?_⟩
    refine (PairIndex.pairwise_children hsrc.nests.ordered list).imp_of_mem ?_
    rintro p q hp hq hlt d hd e he b c rfl rfl
    have hwritten {r : Pair} (hr : r ∈ src.layout.pairs.children list) {b : Binding}
        (hb : .binding .localDefinition b ∈ definitionEntries src form keyword f list r) :
        r.span.covers b.site = true := by
      have hitems := hsrc.items (PairIndex.mem_of_mem_children hr)
      rcases cases_definitionEntries hitems hb with ⟨b', heq, hdefines⟩ | ⟨n, -, hreads⟩
      · cases heq
        exact hdefines.site
      · cases (hreads _ _ rfl).1
    have hbefore := (Span.covers_iff.1 (hwritten hp hd)).2
    have hbehind := (Span.covers_iff.1 (hwritten hq he)).1
    simp only [Pair.span] at hbefore hbehind
    omega

end LocalFunction

/-! ## Names of `loop` -/

namespace Loop

variable {src : Source} {form p : Pair} {kind : BindingKind}

/-- The entry binds a name that stands in a span, from the end of the name to the end of the
form. -/
def BindsIn (form : Pair) (s : Span) (e : Entry) : Prop :=
  ∃ b, e = .binding .loopBinding b ∧ s.start ≤ b.site.start ∧ b.site.start < b.site.stop ∧
    b.site.stop ≤ s.stop ∧ b.scope = some ⟨b.site.stop, form.closing⟩

private theorem bindsIn_bindName {n : Node} (hn : n.Nested) {name : NameSite}
    (hname : src.nameAt n = some name) :
    ∀ e ∈ bindName form kind name, BindsIn form n.element.span e := by
  have hwithin : n.Within n.element.span.start n.element.span.stop :=
    ⟨hn, Nat.le_refl _, Nat.le_refl _⟩
  have hwritten := Source.written_nameAt hwithin hname
  intro e he
  unfold bindName Entry.lexical at he
  split at he
  · next scope hscope =>
    obtain ⟨rfl, -⟩ := eq_of_scopeIn hscope
    exact ⟨_, List.mem_singleton.1 he, hwritten.lo_le, hwritten.proper, hwritten.le_hi, rfl⟩
  · cases he

private theorem BindsIn.mono {s t : Span} {e : Entry} (h : BindsIn form s e)
    (hstart : t.start ≤ s.start)
    (hstop : s.stop ≤ t.stop) : BindsIn form t e := by
  obtain ⟨b, rfl, hlo, hproper, hhi, hscope⟩ := h
  exact ⟨b, rfl, Nat.le_trans hstart hlo, hproper, Nat.le_trans hhi hstop, hscope⟩

/-- Strings bind nothing. -/
theorem not_isString_of_mem_bindTarget {n : Node} {e : Entry}
    (he : e ∈ bindTarget src form kind n) : n.element.isString = false := by
  cases n with
  | mk element items =>
    unfold bindTarget at he
    split at he
    · next hkind => simp [Node.element, Element.isString, hkind]
    · next hkind => simp [Node.element, Element.isString, hkind]
    · cases he

mutual

private theorem bindsIn_bindTarget : ∀ n : Node, n.Nested →
    ∀ e ∈ bindTarget src form kind n, BindsIn form n.element.span e
  | .mk element items, h => by
    intro e he
    unfold bindTarget at he
    split at he
    · obtain ⟨name, hname, he⟩ := List.mem_flatMap.1 he
      exact bindsIn_bindName h (Option.mem_toList.1 hname) e he
    · split at he
      · cases he
      · obtain ⟨m, hm, -, hbinds⟩ := bindsIn_bindTargets items h.items e he
        obtain ⟨hstart, hstop⟩ := h.inside m hm
        exact hbinds.mono (Nat.le_of_lt hstart) (Nat.le_of_lt hstop)
    · cases he

private theorem bindsIn_bindTargets : ∀ nodes : List Node, (∀ n ∈ nodes, n.Nested) →
    ∀ e ∈ bindTargets src form kind nodes,
      ∃ m ∈ nodes, m.element.isString = false ∧ BindsIn form m.element.span e
  | [], _ => by simp [bindTargets]
  | n :: rest, h => by
    obtain ⟨hn, hrest⟩ := List.forall_mem_cons.1 h
    intro e he
    unfold bindTargets at he
    rcases List.mem_append.1 he with he | he
    · exact ⟨n, List.mem_cons_self, not_isString_of_mem_bindTarget he,
        bindsIn_bindTarget n hn e he⟩
    · obtain ⟨m, hm, hbinds⟩ := bindsIn_bindTargets rest hrest e he
      exact ⟨m, List.mem_cons_of_mem _ hm, hbinds⟩

end

private theorem bindsIn_clauses {nodes : List Node} (h : ∀ n ∈ nodes, n.Nested) {st : State} :
    ∀ e ∈ clauses src form st nodes,
      ∃ m ∈ nodes, m.element.isString = false ∧ BindsIn form m.element.span e := by
  induction nodes generalizing st with
  | nil => simp [clauses]
  | cons n rest ih =>
    obtain ⟨hn, hrest⟩ := List.forall_mem_cons.1 h
    have hlater {st : State} {e : Entry} (he : e ∈ clauses src form st rest) :
        ∃ m ∈ n :: rest, m.element.isString = false ∧ BindsIn form m.element.span e := by
      obtain ⟨m, hm, hbinds⟩ := ih hrest e he
      exact ⟨m, List.mem_cons_of_mem _ hm, hbinds⟩
    have hhere {kind : BindingKind} {e : Entry} (he : e ∈ bindTarget src form kind n) :
        ∃ m ∈ n :: rest, m.element.isString = false ∧ BindsIn form m.element.span e :=
      ⟨n, List.mem_cons_self, not_isString_of_mem_bindTarget he, bindsIn_bindTarget n hn e he⟩
    intro e he
    unfold clauses at he
    split at he
    · exact (List.mem_append.1 he).elim hhere hlater
    · exact (List.mem_append.1 he).elim hhere hlater
    · rcases List.mem_append.1 he with he | he
      · split at he
        · next hgroup =>
          obtain ⟨m, hm, he⟩ := List.mem_flatMap.1 he
          have hm := List.mem_of_getElem? (Option.mem_toList.1 hm)
          obtain ⟨hstart, hstop⟩ := hn.inside m hm
          refine ⟨n, List.mem_cons_self, ?_, (bindsIn_bindTarget m (hn.items m hm) e he).mono
            (Nat.le_of_lt hstart) (Nat.le_of_lt hstop)⟩
          obtain ⟨q, hq⟩ := Option.isSome_iff_exists.1 hgroup
          simp [Element.isString, Element.kind_of_group hq]
        · cases he
      · exact hlater he
    · exact hlater he

/-- What is written in one of two spans that follow each other comes before what is written in the
other. -/
theorem BindsIn.before {s t : Span} {d e : Entry} (hd : BindsIn form s d) (he : BindsIn form t e)
    (hle : s.stop ≤ t.start) : Entry.Before .loopBinding d e := by
  obtain ⟨b, rfl, -, -, hhi, -⟩ := hd
  obtain ⟨b', rfl, hlo, -⟩ := he
  rintro _ _ ⟨⟩ ⟨⟩
  omega

/-- The nodes are items of one form, and in order. -/
structure InOrder (src : Source) (nodes : List Node) : Prop where
  /-- They are items of a form. -/
  mem : ∃ p ∈ src.layout.pairs.pairs, ∀ n ∈ nodes, n ∈ src.items p
  /-- What is no string starts behind what comes before it. -/
  ordered : nodes.Pairwise fun m n => n.element.isString = false → m.stop ≤ n.element.span.start

namespace InOrder

variable {n : Node} {rest : List Node}

private theorem sublist {nodes : List Node} (h : InOrder src nodes) (hsub : rest.Sublist nodes) :
    InOrder src rest := by
  obtain ⟨p, hp, hmem⟩ := h.mem
  exact ⟨⟨p, hp, fun m hm => hmem m (hsub.subset hm)⟩, h.ordered.sublist hsub⟩

private theorem head (h : InOrder src (n :: rest)) : InOrder src [n] :=
  h.sublist (List.singleton_sublist.2 List.mem_cons_self)

/-- The nodes after the first stay in order. -/
theorem tail (h : InOrder src (n :: rest)) : InOrder src rest :=
  h.sublist (List.sublist_cons_self n rest)

/-- Nodes in order are nested when the source is. -/
theorem nested (hsrc : src.Nests) (h : InOrder src rest) : ∀ m ∈ rest, m.Nested := by
  obtain ⟨p, hp, hmem⟩ := h.mem
  exact fun m hm => (hsrc.items hp m (hmem m hm)).nested

/-- What is inside one of the nodes is in order too. -/
theorem items (hsrc : src.Nests) (h : InOrder src (n :: rest)) : InOrder src n.items := by
  obtain ⟨p, hp, hmem⟩ := h.mem
  rcases hsrc.items_of_mem_items hp (hmem n List.mem_cons_self) with hnil | ⟨q, hq, heq⟩
  · rw [hnil]
    exact ⟨⟨p, hp, by simp⟩, List.Pairwise.nil⟩
  · rw [heq]
    exact ⟨⟨q, hq, fun m hm => hm⟩, hsrc.pairwise_items q⟩

/-- What is bound in the first node comes before what is bound in the others. -/
theorem before (h : InOrder src (n :: rest)) {d e : Entry} (hd : BindsIn form n.element.span d)
    (he : ∃ m ∈ rest, m.element.isString = false ∧ BindsIn form m.element.span e) :
    Entry.Before .loopBinding d e := by
  obtain ⟨m, hm, hstring, he⟩ := he
  exact hd.before he ((List.pairwise_cons.1 h.ordered).1 m hm hstring)

end InOrder

section Ordered

variable (hsrc : src.Nests)
include hsrc

mutual

private theorem pairwise_bindTarget : ∀ n : Node, InOrder src [n] →
    (bindTarget src form kind n).Pairwise (Entry.Before .loopBinding)
  | .mk element items, h => by
    unfold bindTarget
    split
    · cases src.nameAt (.mk element items) with
      | none => exact List.Pairwise.nil
      | some name =>
        simp only [Option.toList_some, List.flatMap_cons, List.flatMap_nil, List.append_nil,
          bindName, Entry.lexical]
        split
        · exact List.pairwise_singleton _ _
        · exact List.Pairwise.nil
    · split
      · exact List.Pairwise.nil
      · exact pairwise_bindTargets items (h.items hsrc)
    · exact List.Pairwise.nil

private theorem pairwise_bindTargets : ∀ nodes : List Node, InOrder src nodes →
    (bindTargets src form kind nodes).Pairwise (Entry.Before .loopBinding)
  | [], _ => by simp [bindTargets]
  | n :: rest, h => by
    have hn := h.nested hsrc n List.mem_cons_self
    rw [bindTargets]
    exact List.pairwise_append.2 ⟨pairwise_bindTarget n h.head, pairwise_bindTargets rest h.tail,
      fun d hd e he => h.before (bindsIn_bindTarget n hn d hd)
        (bindsIn_bindTargets rest (h.tail.nested hsrc) e he)⟩

end

/-- The names of a `loop` are listed as they are written. -/
theorem pairwise_clauses {nodes : List Node} (h : InOrder src nodes) {st : State} :
    (clauses src form st nodes).Pairwise (Entry.Before .loopBinding) := by
  induction nodes generalizing st with
  | nil => simp [clauses]
  | cons n rest ih =>
    have hn := h.nested hsrc n List.mem_cons_self
    have hlater {st : State} {d : Entry} (hd : BindsIn form n.element.span d) :
        ∀ e ∈ clauses src form st rest, Entry.Before .loopBinding d e :=
      fun e he => h.before hd (bindsIn_clauses (h.tail.nested hsrc) e he)
    unfold clauses
    split
    · exact List.pairwise_append.2 ⟨pairwise_bindTarget hsrc n h.head, ih h.tail,
        fun d hd => hlater (bindsIn_bindTarget n hn d hd)⟩
    · exact List.pairwise_append.2 ⟨pairwise_bindTarget hsrc n h.head, ih h.tail,
        fun d hd => hlater (bindsIn_bindTarget n hn d hd)⟩
    · refine List.pairwise_append.2 ⟨?_, ih h.tail, fun d hd => ?_⟩
      · split
        · cases hsecond : n.items[1]? with
          | none => exact List.Pairwise.nil
          | some m =>
            have hm : [m].Sublist n.items :=
              List.singleton_sublist.2 (List.mem_of_getElem? hsecond)
            simpa using pairwise_bindTarget hsrc m ((h.items hsrc).sublist hm)
        · exact List.Pairwise.nil
      · split at hd
        · obtain ⟨m, hm, hd⟩ := List.mem_flatMap.1 hd
          have hm := List.mem_of_getElem? (Option.mem_toList.1 hm)
          obtain ⟨hstart, hstop⟩ := hn.inside m hm
          exact hlater ((bindsIn_bindTarget m (hn.items m hm) d hd).mono (Nat.le_of_lt hstart)
            (Nat.le_of_lt hstop))
        · cases hd
    · exact ih h.tail

end Ordered

end Loop

/-! ## Forms -/

/-- The collections that a form fills. -/
def Head.collections : Head → List Collection
  | .global _ => [.globalDefinition, .globalParameter]
  | .letLike _ _ | .doLoop _ | .lambda | .destructuringBind | .multipleValueBind =>
    [.anonymousVariable]
  | .localFunctions _ => [.localDefinition, .localParameter]
  | .singleVariable _ _ => [.singleVariable]
  | .loop => [.loopBinding]

/-- What a form binds, where its variables have this kind and container, and its functions this
scope. -/
inductive BindingForm.Binds (src : Source) (f : BindingForm) (kind : BindingKind)
    (container : String) (functions : Span) : Collection → Binding → Prop
  /-- A global definition. -/
  | definition {b : Binding} : Binds src f kind container functions .globalDefinition b
  /-- A variable, or a parameter of a global definition. -/
  | variable {c : Collection} {b : Binding} (h : b.Reads kind container f.pair)
      (hc : c ≠ .localDefinition ∧ c ≠ .localParameter ∧ c ≠ .loopBinding) :
      Binds src f kind container functions c b
  /-- A local function. -/
  | localFunction {b : Binding} (hkind : b.kind ≠ .parameter) (hscope : b.scope = some functions)
      (hstop : functions.stop = f.pair.closing) :
      Binds src f kind container functions .localDefinition b
  /-- A parameter of a local function, which belongs to its definition. -/
  | parameter {b : Binding} {definition : Pair} {n : NameSite}
      (hdefinition : definition ∈ src.layout.pairs.pairs)
      (hname : (src.items definition).head?.bind src.nameAt = some n)
      (h : b.Reads .parameter n.name definition) :
      Binds src f kind container functions .localParameter b
  /-- A name of a `loop`, which is seen right after it is written. -/
  | loop {b : Binding} (hproper : b.site.start < b.site.stop)
      (hscope : b.scope = some ⟨b.site.stop, f.pair.closing⟩) :
      Binds src f kind container functions .loopBinding b

section Forms

variable {src : Source} {f : BindingForm}

/-- All entries of the form that bind belong to its collections, and bind like this. -/
def BindingForm.BindsLike (src : Source) (f : BindingForm) (kind : BindingKind)
    (container : String) (functions : Span) (entries : List Entry) : Prop :=
  ∀ c b, .binding c b ∈ entries →
    c ∈ f.head.collections ∧ f.Binds src kind container functions c b

private theorem BindingForm.bindsLike_of_reads {c : Collection} {kind : BindingKind}
    {container : String}
    {entries : List Entry} (h : ∀ e ∈ entries, e.Reads c kind container f.pair)
    (hmem : c ∈ f.head.collections)
    (hc : c ≠ .localDefinition ∧ c ≠ .localParameter ∧ c ≠ .loopBinding) (functions : Span) :
    f.BindsLike src kind container functions entries := by
  intro d b hb
  obtain ⟨rfl, hreads⟩ := h _ hb d b rfl
  exact ⟨hmem, .variable hreads hc⟩

private theorem LocalFunction.bindsLike_entries (hsrc : src.Nests) {form : LocalFunctionForm}
    (hhead : f.head = .localFunctions form) {keyword : String} {operands : List Node} :
    ∃ functions, f.BindsLike src .parameter keyword functions
      (entries src f.pair keyword form operands) := by
  unfold entries
  split
  · exact ⟨⟨0, 0⟩, fun c b hb => by cases hb⟩
  · next list hlist =>
    refine ⟨⟨visibleFrom form list, f.pair.closing⟩, fun c b hb => ?_⟩
    obtain ⟨definition, hdefinition, hb⟩ := List.mem_flatMap.1 hb
    have hmem := PairIndex.mem_of_mem_children hdefinition
    rw [hhead, Head.collections]
    rcases cases_definitionEntries (hsrc.items hmem) hb with ⟨b', heq, hdefines⟩ | ⟨n, hname, h⟩
    · cases heq
      refine ⟨List.mem_cons_self, .localFunction ?_ hdefines.scope rfl⟩
      rw [hdefines.kind]
      cases form <;> decide
    · obtain ⟨rfl, hreads⟩ := h c b rfl
      exact ⟨List.mem_cons_of_mem _ List.mem_cons_self, .parameter hmem hname hreads⟩

/-- Whatever the form, its variables share kind and container, and its functions their scope. -/
theorem BindingForm.exists_bindsLike (hsrc : src.Nests) (hf : f.pair ∈ src.layout.pairs.pairs) :
    ∃ kind container functions, f.BindsLike src kind container functions (f.entries src) := by
  have hitems := hsrc.items hf
  unfold BindingForm.entries
  split
  · exact ⟨.parameter, "", ⟨0, 0⟩, fun c b hb => by cases hb⟩
  · next first operands heq =>
    rw [heq] at hitems
    obtain ⟨-, hoperands⟩ := List.forall_mem_cons.1 hitems
    simp only
    split
    · next d hhead =>
      obtain ⟨name, hreads⟩ : ∃ name, ∀ e ∈ Definition.entries src f.pair d operands,
          e.Reads .globalParameter .parameter name f.pair ∨ ∃ b, e = .binding .globalDefinition b :=
        Definition.reads_entries
      refine ⟨.parameter, name, ⟨0, 0⟩, fun c b hb => ?_⟩
      rw [hhead, Head.collections]
      rcases hreads _ hb with h | ⟨b', heq⟩
      · obtain ⟨rfl, hreads⟩ := h c b rfl
        exact ⟨by simp, .variable hreads (by decide)⟩
      · cases heq
        exact ⟨by simp, .definition⟩
    · next hhead => exact ⟨_, _, ⟨0, 0⟩, bindsLike_of_reads Variable.reads_letEntries
        (by simp [hhead, Head.collections]) (by decide) _⟩
    · next hhead => exact ⟨_, _, ⟨0, 0⟩, bindsLike_of_reads Variable.reads_doEntries
        (by simp [hhead, Head.collections]) (by decide) _⟩
    · next hhead => exact ⟨_, _, ⟨0, 0⟩, bindsLike_of_reads Entry.reads_parameters
        (by simp [hhead, Head.collections]) (by decide) _⟩
    · next hhead => exact ⟨_, _, ⟨0, 0⟩, bindsLike_of_reads Variable.reads_valueEntries
        (by simp [hhead, Head.collections]) (by decide) _⟩
    · next hhead => exact ⟨_, _, ⟨0, 0⟩, bindsLike_of_reads Variable.reads_valueEntries
        (by simp [hhead, Head.collections]) (by decide) _⟩
    · next form hhead =>
      obtain ⟨functions, h⟩ := LocalFunction.bindsLike_entries hsrc hhead
      exact ⟨_, _, functions, h⟩
    · next hhead => exact ⟨_, _, ⟨0, 0⟩, bindsLike_of_reads Variable.reads_singleEntries
        (by simp [hhead, Head.collections]) (by decide) _⟩
    · next hhead =>
      refine ⟨.parameter, "", ⟨0, 0⟩, fun c b hb => ?_⟩
      obtain ⟨m, -, -, b', heq, -, hproper, -, hscope⟩ :=
        Loop.bindsIn_clauses (fun n hn => (hoperands n hn).nested) _ hb
      cases heq
      exact ⟨by simp [hhead, Head.collections], .loop hproper hscope⟩

/-- Local functions and the names of a `loop` are listed as they are written. -/
theorem BindingForm.pairwise_entries (hsrc : src.Nests) (hf : f.pair ∈ src.layout.pairs.pairs)
    {c : Collection} (hc : c = .localDefinition ∨ c = .loopBinding) :
    (f.entries src).Pairwise (Entry.Before c) := by
  obtain ⟨kind, container, functions, hbinds⟩ := exists_bindsLike hsrc hf
  by_cases hmem : c ∈ f.head.collections
  · unfold BindingForm.entries
    split
    · exact List.Pairwise.nil
    · next first operands heq =>
      rcases hc with rfl | rfl
      · cases hhead : f.head with
        | localFunctions form => exact LocalFunction.pairwise_entries hsrc
        | _ => simp [hhead, Head.collections] at hmem
      · cases hhead : f.head with
        | loop =>
          have hitems : Loop.InOrder src (first :: operands) :=
            ⟨⟨f.pair, hf, fun n hn => heq ▸ hn⟩, heq ▸ hsrc.pairwise_items f.pair⟩
          exact Loop.pairwise_clauses hsrc hitems.tail
        | _ => simp [hhead, Head.collections] at hmem
  · refine List.pairwise_of_forall_mem_list fun d hd e he b _ hb _ => ?_
    exact absurd (hbinds c b (hb ▸ hd)).1 hmem

/-- Unless it is a parameter of a local function, a local binding is seen to the end of the form
that it comes from. -/
theorem BindingForm.Binds.stop_eq {kind : BindingKind} {container : String} {functions : Span}
    {c : Collection} {b : Binding} (h : f.Binds src kind container functions c b)
    (hglobal : c ≠ .globalDefinition) (hparameter : c ≠ .localParameter) :
    b.scope.map (·.stop) = some f.pair.closing := by
  cases h with
  | definition => exact absurd rfl hglobal
  | «variable» hreads =>
    obtain ⟨start, hscope⟩ := hreads.scope
    rw [hscope, Option.map_some]
  | localFunction _ hscope hstop => rw [hscope, Option.map_some, hstop]
  | parameter => exact absurd rfl hparameter
  | loop _ hscope => rw [hscope, Option.map_some]

variable {excluded : SpanSet}

/-- Of the forms that are found, one closes at each bracket at most. -/
theorem BindingForm.eq_of_closing (hsrc : src.Nests) {f g : BindingForm}
    (hf : f ∈ BindingForm.all src excluded) (hg : g ∈ BindingForm.all src excluded)
    (h : f.pair.closing = g.pair.closing) : f = g := by
  obtain ⟨hfpair, hfat⟩ := at?_of_mem_all hf
  obtain ⟨hgpair, hgat⟩ := at?_of_mem_all hg
  have hpair := hsrc.nests.laminar.eq_of_shared hfpair hgpair (.inr h) (.inr rfl)
  rw [hpair, hgat] at hfat
  exact (Option.some.inj hfat).symm

/-- Local bindings whose scopes end together come from one form, unless they are parameters of local
functions. -/
theorem BindingForm.eq_of_stop_eq (hsrc : src.Nests) {f g : BindingForm}
    (hf : f ∈ BindingForm.all src excluded) (hg : g ∈ BindingForm.all src excluded)
    {c c' : Collection} {b d : Binding} (hb : .binding c b ∈ f.entries src)
    (hd : .binding c' d ∈ g.entries src)
    (hglobal : c ≠ .globalDefinition ∧ c' ≠ .globalDefinition)
    (hparameter : c ≠ .localParameter ∧ c' ≠ .localParameter)
    (hstop : b.scope.map (·.stop) = d.scope.map (·.stop)) : f = g := by
  obtain ⟨_, _, _, hfbinds⟩ := exists_bindsLike hsrc (at?_of_mem_all hf).1
  obtain ⟨_, _, _, hgbinds⟩ := exists_bindsLike hsrc (at?_of_mem_all hg).1
  rw [(hfbinds c b hb).2.stop_eq hglobal.1 hparameter.1,
    (hgbinds c' d hd).2.stop_eq hglobal.2 hparameter.2] at hstop
  exact eq_of_closing hsrc hf hg (Option.some.inj hstop)

/-- No form is found twice. -/
theorem BindingForm.pairwise_all (hsrc : src.Nests) :
    (BindingForm.all src excluded).Pairwise fun f g => f ≠ g := by
  unfold BindingForm.all
  refine List.Pairwise.filterMap _ ?_ (hsrc.nests.ordered.sublist List.filter_sublist)
  rintro p q hlt f hf g hg rfl
  rw [← (at?_eq_some hf).1, ← (at?_eq_some hg).1] at hlt
  exact Nat.lt_irrefl _ hlt

end Forms

/-! ## The table -/

namespace Table

variable {src : Source} {mode : Mode} {c : Collection} {b d : Binding}

/-- The form that a binding comes from. -/
theorem exists_form (hb : b ∈ (Table.ofSource src mode).get c) :
    ∃ f ∈ BindingForm.all src (src.layout.excluded mode), f.pair ∈ src.layout.pairs.pairs ∧
      .binding c b ∈ f.entries src := by
  obtain ⟨-, f, hf, hentry⟩ := mem_get_ofSource.1 hb
  exact ⟨f, hf, (BindingForm.at?_of_mem_all hf).1, hentry⟩

variable (hsrc : src.Nests)
include hsrc

private theorem exists_form_of_stop_eq (hb : b ∈ (Table.ofSource src mode).get c)
    {c' : Collection} (hd : d ∈ (Table.ofSource src mode).get c')
    (hglobal : c ≠ .globalDefinition ∧ c' ≠ .globalDefinition)
    (hparameter : c ≠ .localParameter ∧ c' ≠ .localParameter)
    (hstop : b.scope.map (·.stop) = d.scope.map (·.stop)) :
    ∃ f ∈ BindingForm.all src (src.layout.excluded mode), f.pair ∈ src.layout.pairs.pairs ∧
      .binding c b ∈ f.entries src ∧ .binding c' d ∈ f.entries src := by
  obtain ⟨f, hf, hfpair, hfentry⟩ := exists_form hb
  obtain ⟨g, hg, hgpair, hgentry⟩ := exists_form hd
  obtain rfl :=
    BindingForm.eq_of_stop_eq hsrc hf hg hfentry hgentry hglobal hparameter hstop
  exact ⟨f, hf, hfpair, hfentry, hgentry⟩

/-- Two parameters or variables of one collection whose scopes end together differ in name, place
and start of scope only. -/
theorem alike_of_stop_eq (hb : b ∈ (Table.ofSource src mode).get c)
    (hd : d ∈ (Table.ofSource src mode).get c)
    (hc : c ≠ .globalDefinition ∧ c ≠ .localDefinition ∧ c ≠ .loopBinding)
    (hstop : b.scope.map (·.stop) = d.scope.map (·.stop)) :
    b.kind = d.kind ∧ b.container = d.container ∧ b.doc = d.doc := by
  have halike {kind : BindingKind} {container : String} {form form' : Pair}
      (hb : b.Reads kind container form) (hd : d.Reads kind container form') :
      b.kind = d.kind ∧ b.container = d.container ∧ b.doc = d.doc :=
    ⟨hb.kind.trans hd.kind.symm, hb.container.trans hd.container.symm, hb.doc.trans hd.doc.symm⟩
  by_cases hparameter : c = .localParameter
  · -- The definition at whose end both scopes end says what the function is called.
    subst hparameter
    obtain ⟨f, -, hfpair, hfentry⟩ := exists_form hb
    obtain ⟨g, -, hgpair, hgentry⟩ := exists_form hd
    obtain ⟨_, _, _, hfbinds⟩ := BindingForm.exists_bindsLike hsrc hfpair
    obtain ⟨_, _, _, hgbinds⟩ := BindingForm.exists_bindsLike hsrc hgpair
    cases (hfbinds _ b hfentry).2 with
    | «variable» _ hne => exact absurd rfl hne.2.1
    | parameter hp hpname hpreads =>
      cases (hgbinds _ d hgentry).2 with
      | «variable» _ hne => exact absurd rfl hne.2.1
      | parameter hq hqname hqreads =>
        obtain ⟨_, hbscope⟩ := hpreads.scope
        obtain ⟨_, hdscope⟩ := hqreads.scope
        rw [hbscope, hdscope, Option.map_some, Option.map_some, Option.some.injEq] at hstop
        obtain rfl := hsrc.nests.laminar.eq_of_shared hp hq (.inr hstop) (.inr rfl)
        rw [hpname] at hqname
        rw [Option.some.inj hqname] at hpreads
        exact halike hpreads hqreads
  · obtain ⟨f, -, hfpair, hbentry, hdentry⟩ :=
      exists_form_of_stop_eq hsrc hb hd ⟨hc.1, hc.1⟩ ⟨hparameter, hparameter⟩ hstop
    obtain ⟨_, _, _, hbinds⟩ := BindingForm.exists_bindsLike hsrc hfpair
    cases (hbinds c b hbentry).2 with
    | definition => exact absurd rfl hc.1
    | localFunction => exact absurd rfl hc.2.1
    | parameter => exact absurd rfl hparameter
    | loop => exact absurd rfl hc.2.2
    | «variable» hbreads =>
      cases (hbinds c d hdentry).2 with
      | definition => exact absurd rfl hc.1
      | localFunction => exact absurd rfl hc.2.1
      | parameter => exact absurd rfl hparameter
      | loop => exact absurd rfl hc.2.2
      | «variable» hdreads => exact halike hbreads hdreads

/-- Two names of a `loop` are seen in the order in which they are written. -/
theorem loop_ordered (hb : b ∈ (Table.ofSource src mode).get .loopBinding)
    (hd : d ∈ (Table.ofSource src mode).get .loopBinding)
    (hstop : b.scope.map (·.stop) = d.scope.map (·.stop)) :
    b = d ∨ b.SeenBefore d ∨ d.SeenBefore b := by
  obtain ⟨f, -, hfpair, hbentry, hdentry⟩ :=
    exists_form_of_stop_eq hsrc hb hd (by decide) (by decide) hstop
  obtain ⟨_, _, _, hbinds⟩ := BindingForm.exists_bindsLike hsrc hfpair
  have hseen {b : Binding} (hb : .binding .loopBinding b ∈ f.entries src) :
      b.site.start < b.site.stop ∧ b.scope = some ⟨b.site.stop, f.pair.closing⟩ := by
    cases (hbinds _ b hb).2 with
    | «variable» _ hne => exact absurd rfl hne.2.2
    | loop hproper hscope => exact ⟨hproper, hscope⟩
  have hbefore {b d : Binding} (hb : .binding .loopBinding b ∈ f.entries src)
      (hd : .binding .loopBinding d ∈ f.entries src)
      (h : Entry.Before .loopBinding (.binding .loopBinding b) (.binding .loopBinding d)) :
      b.SeenBefore d := by
    obtain ⟨-, hbscope⟩ := hseen hb
    obtain ⟨hproper, hdscope⟩ := hseen hd
    have hle := h b d rfl rfl
    exact ⟨hle, _, _, hbscope, hdscope, Nat.lt_of_le_of_lt hle hproper⟩
  have hordered := BindingForm.pairwise_entries hsrc hfpair (.inr rfl)
  rcases eq_or_rel_of_pairwise hordered hbentry hdentry with heq | h | h
  · exact .inl (Entry.binding.inj heq).2
  · exact .inr (.inl (hbefore hbentry hdentry h))
  · exact .inr (.inr (hbefore hdentry hbentry h))

/-- The functions of one form are seen alike. -/
theorem scope_eq_of_stop_eq (hb : b ∈ (Table.ofSource src mode).get .localDefinition)
    (hd : d ∈ (Table.ofSource src mode).get .localDefinition)
    (hstop : b.scope.map (·.stop) = d.scope.map (·.stop)) : b.scope = d.scope := by
  obtain ⟨f, -, hfpair, hbentry, hdentry⟩ :=
    exists_form_of_stop_eq hsrc hb hd (by decide) (by decide) hstop
  obtain ⟨_, _, functions, hbinds⟩ := BindingForm.exists_bindsLike hsrc hfpair
  have hscope {b : Binding} (hb : .binding .localDefinition b ∈ f.entries src) :
      b.scope = some functions := by
    cases (hbinds _ b hb).2 with
    | «variable» _ hne => exact absurd rfl hne.1
    | localFunction _ hscope => exact hscope
  rw [hscope hbentry, hscope hdentry]

/-- What is listed among the local functions is listed nowhere else. -/
theorem eq_localDefinition (hb : b ∈ (Table.ofSource src mode).get .localDefinition)
    (hc : c ∈ Collection.lexical) (hbc : b ∈ (Table.ofSource src mode).get c) :
    c = .localDefinition := by
  have hglobal : c ≠ .globalDefinition := by
    rintro rfl
    simp [Collection.lexical] at hc
  by_cases hparameter : c = .localParameter
  · subst hparameter
    obtain ⟨f, -, hfpair, hfentry⟩ := exists_form hb
    obtain ⟨g, -, hgpair, hgentry⟩ := exists_form hbc
    obtain ⟨_, _, _, hfbinds⟩ := BindingForm.exists_bindsLike hsrc hfpair
    obtain ⟨_, _, _, hgbinds⟩ := BindingForm.exists_bindsLike hsrc hgpair
    cases (hfbinds _ b hfentry).2 with
    | «variable» _ hne => exact absurd rfl hne.1
    | localFunction hkind =>
      cases (hgbinds _ b hgentry).2 with
      | «variable» _ hne => exact absurd rfl hne.2.1
      | parameter _ _ hreads => exact absurd hreads.kind hkind
  · obtain ⟨f, -, hfpair, hbentry, hcentry⟩ :=
      exists_form_of_stop_eq hsrc hb hbc ⟨by decide, hglobal⟩ ⟨by decide, hparameter⟩ rfl
    obtain ⟨_, _, _, hbinds⟩ := BindingForm.exists_bindsLike hsrc hfpair
    have hhere := (hbinds _ b hbentry).1
    have hthere := (hbinds c b hcentry).1
    cases hhead : f.head <;> simp_all [Head.collections]

/-- Bindings of one collection are related in order if those of each form are, and those of any two
forms. -/
theorem pairwise_get {R : Binding → Binding → Prop}
    (hwithin : ∀ f ∈ BindingForm.all src (src.layout.excluded mode),
      (f.entries src).Pairwise fun d e => ∀ b b', d = .binding c b → e = .binding c b' → R b b')
    (hacross : ∀ f ∈ BindingForm.all src (src.layout.excluded mode),
      ∀ g ∈ BindingForm.all src (src.layout.excluded mode), f ≠ g → ∀ b b',
        .binding c b ∈ f.entries src → .binding c b' ∈ g.entries src → R b b') :
    ((Table.ofSource src mode).get c).Pairwise R := by
  have hsome {e : Entry} {b : Binding} (h : e.binding? c = some b) : e = .binding c b := by
    cases e with
    | stepForm => cases h
    | binding d b' =>
      rw [Entry.binding?] at h
      split at h
      · next hc => rw [hc, Option.some.inj h]
      · cases h
  rw [get_ofSource, List.pairwise_filterMap, found, List.pairwise_flatMap]
  constructor
  · refine fun k _ => List.Pairwise.sublist List.filter_sublist (List.pairwise_flatMap.2 ⟨?_, ?_⟩)
    · intro f hf
      exact (hwithin f (List.mem_filter.1 hf).1).imp fun h b hb b' hb' =>
        h b b' (hsome hb) (hsome hb')
    · refine ((BindingForm.pairwise_all hsrc).sublist List.filter_sublist).imp_of_mem ?_
      intro f g hf hg hne d hd e he b hb b' hb'
      exact hacross f (List.mem_filter.1 hf).1 g (List.mem_filter.1 hg).1 hne b b' (hsome hb ▸ hd)
        (hsome hb' ▸ he)
  · -- A form belongs to one pass.
    have hnodup : Category.all.Nodup := by decide
    refine hnodup.imp fun {k k'} hne d hd e he b hb b' hb' => ?_
    obtain ⟨f, hf, hd⟩ := List.mem_flatMap.1 (List.mem_filter.1 hd).1
    obtain ⟨g, hg, he⟩ := List.mem_flatMap.1 (List.mem_filter.1 he).1
    obtain ⟨hf, hk⟩ := List.mem_filter.1 hf
    obtain ⟨hg, hk'⟩ := List.mem_filter.1 hg
    refine hacross f hf g hg ?_ b b' (hsome hb ▸ hd) (hsome hb' ▸ he)
    rintro rfl
    exact hne ((eq_of_beq hk).symm.trans (eq_of_beq hk'))

/-- Of two functions of one form, the one that is listed first is written first. -/
theorem pairwise_localDefinitions :
    ((Table.ofSource src mode).get .localDefinition).Pairwise fun b d =>
      b.scope.map (·.stop) = d.scope.map (·.stop) → b.site.stop ≤ d.site.start := by
  refine pairwise_get hsrc (fun f hf => ?_) fun f hf g hg hne b d hb hd hstop => ?_
  · have hpair := (BindingForm.at?_of_mem_all hf).1
    exact (BindingForm.pairwise_entries hsrc hpair (.inl rfl)).imp
      fun hbefore b d hb hd _ => hbefore b d hb hd
  · -- Two forms never end at one bracket, so only functions of one form are compared.
    exact absurd (BindingForm.eq_of_stop_eq hsrc hf hg hb hd (by decide) (by decide) hstop) hne

/-- The same among all bindings that have a scope. -/
theorem pairwise_lexicals :
    (Table.ofSource src mode).lexicals.Pairwise fun b d =>
      b ∈ (Table.ofSource src mode).get .localDefinition →
        d ∈ (Table.ofSource src mode).get .localDefinition →
          b.scope.map (·.stop) = d.scope.map (·.stop) → b.site.stop ≤ d.site.start := by
  refine List.pairwise_flatMap.2 ⟨fun c hc => ?_, ?_⟩
  · by_cases hdefinition : c = .localDefinition
    · subst hdefinition
      exact (pairwise_localDefinitions hsrc).imp fun h _ _ => h
    · refine List.pairwise_of_forall_mem_list fun b hb d _ hlocal => ?_
      exact absurd (eq_localDefinition hsrc hlocal hc hb) hdefinition
  · have hnodup : Collection.lexical.Nodup := by decide
    refine hnodup.imp_of_mem fun {c c'} hc hc' hne b hb d hd hb' hd' => ?_
    rw [eq_localDefinition hsrc hb' hc hb, eq_localDefinition hsrc hd' hc' hd] at hne
    exact absurd rfl hne

end Table

end LexScope