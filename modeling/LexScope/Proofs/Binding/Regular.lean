import LexScope.Proofs.Binding.Bounds
import LexScope.Proofs.Form.Nesting

/-!
# Where bindings stand

Each form computes the place of a name, its form and its scope by hand, and all of them agree on
this: the name is written inside the form, the scope starts after the name and inside of a form that
encloses it, and it ends at the closing bracket of that form. Functions of `labels` are the one
exception, since they are visible from the list of definitions on. Only variables of `do` and `do*`
have a window for their step forms.
-/

namespace LexScope

/-! ## Names -/

/-- The name stands between two offsets, and is not empty. -/
structure NameSite.Stands (lo hi : Nat) (n : NameSite) : Prop where
  /-- It starts after the first offset. -/
  lo_le : lo ≤ n.site.start
  /-- It is not empty. -/
  proper : n.site.start < n.site.stop
  /-- It ends before the second offset. -/
  le_hi : n.site.stop ≤ hi

/-- The name is what is written between two offsets, and can be bound. -/
structure NameSite.Written (src : Source) (lo hi : Nat) (n : NameSite) : Prop
    extends n.Stands lo hi where
  /-- It is the text of its place in lower case. -/
  name : n.name = lowerCase (src.slice n.site)
  /-- It can be bound. -/
  bindable : isBindable n.name = true

section Names

variable {src : Source} {lo hi : Nat}

private theorem Node.Within.stands {n : Node} (h : n.Within lo hi) (name : String) :
    NameSite.Stands lo hi ⟨name, n.element.span⟩ :=
  ⟨h.lo_le, h.nested.proper, h.le_hi⟩

/-- The name of a node is written where the node stands. -/
theorem Source.written_nameAt {n : Node} (hn : n.Within lo hi) {name : NameSite}
    (h : src.nameAt n = some name) : name.Written src lo hi := by
  unfold Source.nameAt at h
  split at h
  · simp only at h
    split at h
    · next hbindable =>
      rw [← Option.some.inj h]
      exact ⟨hn.stands _, rfl, hbindable⟩
    · cases h
  · cases h

/-- The name of the first of some nodes is written where they stand. -/
theorem Source.written_head {nodes : List Node} (hnodes : ∀ n ∈ nodes, n.Within lo hi)
    {name : NameSite} (h : nodes.head?.bind src.nameAt = some name) : name.Written src lo hi := by
  obtain ⟨n, hn, hname⟩ := Option.bind_eq_some_iff.1 h
  exact Source.written_nameAt (hnodes n (List.mem_of_head? hn)) hname

end Names

/-! ## Lambda lists -/

/-- The parameter is written between two offsets, and before it becomes visible. -/
def Parameter.Written (src : Source) (lo hi : Nat) (p : Parameter) : Prop :=
  NameSite.Written src lo (min hi p.visibleFrom) ⟨p.name, p.site⟩

namespace LambdaList

variable {src : Source} {destructuring : Bool} {lo hi : Nat}

/-- The parameters of a list are written where its entries stand. -/
theorem written_ofItems {nodes : List Node} (h : ∀ n ∈ nodes, n.Within lo hi) :
    ∀ p ∈ ofEntries src destructuring none .required nodes, p.Written src lo hi := by
  intro p hp
  -- Each entry ends no later than where its parameters become visible.
  obtain ⟨n, hn, -, hp⟩ := (extracts_ofEntries none .required nodes).exists_atom
    (P := fun v n => n.Within lo (min hi v)) (fun v n hn => hn.items)
    (fun n hn => { h n hn with le_hi := Nat.le_min.2 ⟨(h n hn).le_hi, Nat.le_refl _⟩ }) p hp
  obtain ⟨hbindable, heq⟩ := mem_parameterAt.1 hp
  have hwritten : NameSite.Written src lo (min hi p.visibleFrom)
      ⟨lowerCase (src.slice n.element.span), n.element.span⟩ := ⟨hn.stands _, rfl, hbindable⟩
  rw [Parameter.Written, heq]
  exact hwritten

end LambdaList

section Parameters

variable {src : Source} {lo hi : Nat}

private theorem Source.written_parametersAt {n : Node} (hn : n.Within lo hi) {destructuring : Bool}
    {parameters : List Parameter} (h : src.parametersAt n destructuring = some parameters) :
    ∀ p ∈ parameters, p.Written src lo hi := by
  unfold Source.parametersAt at h
  split at h
  · split at h
    · cases h
    · rw [← Option.some.inj h]
      exact LambdaList.written_ofItems hn.items
  · split at h
    · rw [← Option.some.inj h]
      simp
    · cases h
  · cases h

/-- The parameters of the lambda list that comes first are written where the operands stand. -/
theorem Source.written_headParameters {operands : List Node}
    (h : ∀ n ∈ operands, n.Within lo hi) (destructuring : Bool) :
    ∀ p ∈ (operands.head?.bind (src.parametersAt · destructuring)).getD [],
      p.Written src lo hi := by
  intro p hp
  cases hps : operands.head?.bind (src.parametersAt · destructuring) with
  | none => simp [hps] at hp
  | some ps =>
    rw [hps] at hp
    obtain ⟨n, hn, hps⟩ := Option.bind_eq_some_iff.1 hps
    exact Source.written_parametersAt (h n (List.mem_of_head? hn)) hps p hp

end Parameters

/-! ## Bindings -/

/-- The span is a form `(do ...)` or `(do* ...)`. -/
def Source.IsDoForm (src : Source) (s : Span) : Prop :=
  ∃ p sequential, p.span = s ∧ BindingForm.at? src p = some ⟨p, .doLoop sequential⟩

/-- The binding of a collection is the name of a function of `labels`. -/
def Binding.IsLabelsName (b : Binding) (c : Collection) : Prop :=
  c = .localDefinition ∧ b.container = some "labels"

/-- How a function of `labels` is visible: from the opening bracket of the list of definitions to
the end of the form. -/
def Binding.SeenByLabels (src : Source) (b : Binding) : Prop :=
  ∃ form list definition : Pair,
    BindingForm.at? src form = some ⟨form, .localFunctions .labels⟩ ∧
      (src.items form)[1]?.bind (·.element.group) = some list ∧
      definition ∈ src.layout.pairs.children list ∧ b.form = definition.span ∧
      b.scope = some ⟨list.opening, form.closing⟩ ∧ list.opening < b.site.start

/-- What holds of every binding of a collection. -/
structure Binding.Regular (src : Source) (c : Collection) (b : Binding) : Prop where
  /-- The name is not empty. -/
  proper : b.site.start < b.site.stop
  /-- It is written inside the form. -/
  inside : b.form.covers b.site = true
  /-- The form is a bracketed form of the document. -/
  form : ∃ p ∈ src.layout.pairs.pairs, b.form = p.span
  /-- The name is the text of its place in lower case, and can be bound. -/
  name : b.kind ≠ .package → b.name = lowerCase (src.slice b.site) ∧ isBindable b.name = true
  /-- A global definition has no scope and no container. -/
  global : c = .globalDefinition → b.scope = none ∧ b.container = none
  /-- Any other binding has both, and the scope ends where a form ends that encloses its own. -/
  lexical : c ≠ .globalDefinition → b.container.isSome = true ∧
    ∃ q ∈ src.layout.pairs.pairs, ∃ start, b.scope = some ⟨start, q.closing⟩ ∧
      q.span.covers b.form = true ∧ q.opening < start ∧ start ≤ q.closing
  /-- The scope starts after the name, -/
  after : ¬b.IsLabelsName c → ∀ s ∈ b.scope, b.site.stop ≤ s.start
  /-- except for functions of `labels`. -/
  labels : b.IsLabelsName c → b.SeenByLabels src
  /-- Variables of `do` and `do*`, and only these, have a window for step forms, -/
  window : b.stepWindow.isSome = true ↔ c = .anonymousVariable ∧ src.IsDoForm b.form
  /-- which ends where the scope starts and holds the name. -/
  windowEnds : ∀ w ∈ b.stepWindow,
    w.covers b.site = true ∧ ∃ s ∈ b.scope, w.stop = s.start

/-- What holds of every binding among the entries. -/
def Entry.Regular (src : Source) : Entry → Prop
  | .binding c b => b.Regular src c
  | .stepForm _ => True

section Entries

variable {src : Source} {form : Pair}

/-- A name that stands inside a form lies in it. -/
theorem NameSite.Stands.covers {n : NameSite} (h : n.Stands (form.opening + 1) form.closing) :
    form.span.covers n.site = true := by
  have hlo := h.lo_le
  have hhi := h.le_hi
  rw [Span.covers_iff]
  simp only [Pair.span]
  omega

private theorem NameSite.Written.mono {lo hi lo' hi' : Nat} {n : NameSite} (h : n.Written src lo hi)
    (hlo : lo' ≤ lo) (hhi : hi ≤ hi') : n.Written src lo' hi' :=
  { h with lo_le := Nat.le_trans hlo h.lo_le, le_hi := Nat.le_trans h.le_hi hhi }

/-- A scope starts where it is asked to, and ends with its form. -/
theorem eq_of_scopeIn {start : Nat} {scope : Span} (h : scopeIn form start = some scope) :
    scope = ⟨start, form.closing⟩ ∧ start ≤ form.closing := by
  unfold scopeIn at h
  split at h
  · next hle => exact ⟨(Option.some.inj h).symm, hle⟩
  · cases h

/-- A name that is seen after it is written, to the end of its form, makes a regular binding. -/
theorem Entry.regular_lexical (hform : form ∈ src.layout.pairs.pairs) {c : Collection}
    (hglobal : c ≠ .globalDefinition) (hlocal : c ≠ .localDefinition)
    (hdo : c = .anonymousVariable → ¬src.IsDoForm form.span) {start : Nat} {n : NameSite}
    (hn : n.Written src (form.opening + 1) start) {kind : BindingKind} {container : String} :
    ∀ e ∈ Entry.lexical c kind container form form.span start n, e.Regular src := by
  intro e he
  unfold Entry.lexical at he
  split at he
  · next scope hscope =>
    obtain ⟨rfl, hle⟩ := eq_of_scopeIn hscope
    have hproper := hn.proper
    have hlo := hn.lo_le
    have hhi := hn.le_hi
    rw [List.mem_singleton.1 he]
    exact
      { proper := hproper
        inside := (hn.mono (Nat.le_refl _) hle).covers
        form := ⟨form, hform, rfl⟩
        name := fun _ => ⟨hn.name, hn.bindable⟩
        global := fun heq => absurd heq hglobal
        lexical := fun _ => ⟨rfl, form, hform, start, rfl,
          Span.covers_iff.2 ⟨Nat.le_refl _, Nat.le_refl _⟩, by omega, hle⟩
        after := by simpa [Binding.lexical] using fun _ => hhi
        labels := fun hlabels => absurd hlabels.1 hlocal
        window := by simpa [Binding.lexical] using hdo
        windowEnds := by simp [Binding.lexical] }
  · cases he

private theorem Entry.regular_parameters (hform : form ∈ src.layout.pairs.pairs) {c : Collection}
    (hglobal : c ≠ .globalDefinition) (hlocal : c ≠ .localDefinition)
    (hdo : c = .anonymousVariable → ¬src.IsDoForm form.span) {ps : List Parameter}
    (hps : ∀ p ∈ ps, p.Written src (form.opening + 1) form.closing) {container : String} :
    ∀ e ∈ Entry.parameters c container form ps, e.Regular src := by
  intro e he
  obtain ⟨p, hp, he⟩ := List.mem_flatMap.1 he
  exact Entry.regular_lexical hform hglobal hlocal hdo
    ((hps p hp).mono (Nat.le_refl _) (Nat.min_le_right _ _)) e he

end Entries

/-! ## Global definitions -/

namespace Definition

variable {src : Source} {form : Pair} {lo hi : Nat}

private theorem stands_packageName {n : Node} (hn : n.Within lo hi) {name : NameSite}
    (h : packageName src n = some name) : name.Stands lo hi := by
  unfold packageName at h
  simp only at h
  split at h
  · split at h
    · cases h
    · rw [← Option.some.inj h]
      exact hn.stands _
  · cases h

private theorem written_groupName {d : Definer} {items : List Node}
    (hitems : ∀ n ∈ items, n.Within lo hi)
    {name : NameSite} (h : groupName src d items = some name) : name.Written src lo hi := by
  cases items with
  | nil => cases h
  | cons first rest =>
    obtain ⟨hfirst, hrest⟩ := List.forall_mem_cons.1 hitems
    have hsetf (hbind : (if src.isWord first "setf" then rest.head?.bind src.nameAt else none) =
        some name) : name.Written src lo hi := by
      split at hbind
      · exact Source.written_head hrest hbind
      · cases hbind
    cases d with
    | function | genericFunction | method => exact hsetf h
    | structType | methodCombination => exact Source.written_nameAt hfirst h
    | _ => cases h

/-- The defined name stands where its node stands, and is written there unless it is that of a
package. -/
theorem stands_nameOf {d : Definer} {n : Node} (hn : n.Within lo hi) {name : NameSite}
    (h : nameOf src d n = some name) :
    name.Stands lo hi ∧ (d.kind ≠ .package → name.Written src lo hi) := by
  have hwritten (hname : name.Written src lo hi) :
      name.Stands lo hi ∧ (d.kind ≠ .package → name.Written src lo hi) :=
    ⟨hname.toStands, fun _ => hname⟩
  have hpackage (hd : (d == .package) = true) (hname : packageName src n = some name) :
      name.Stands lo hi ∧ (d.kind ≠ .package → name.Written src lo hi) := by
    refine ⟨stands_packageName hn hname, fun hkind => absurd ?_ hkind⟩
    rw [eq_of_beq hd, Definer.kind]
  unfold nameOf at h
  split at h
  · cases h
  split at h
  · exact hwritten (written_groupName hn.items h)
  · split at h
    · next hd => exact hpackage hd h
    · exact hwritten (Source.written_nameAt hn h)
  · split at h
    · next hd => exact hpackage hd h
    · cases h

section Lists

variable (hform : form ∈ src.layout.pairs.pairs) {name : String}
include hform

private theorem regular_parameters {ps : Option (List Parameter)}
    (hps : ∀ p ∈ ps.getD [], p.Written src (form.opening + 1) form.closing) :
    ∀ e ∈ parameters name form ps, e.Regular src :=
  Entry.regular_parameters hform (by decide) (by decide) (by simp) hps

private theorem regular_afterList {list : Pair} {n : NameSite}
    (hn : n.Written src (form.opening + 1) list.closing) :
    ∀ e ∈ afterList name form list n, e.Regular src :=
  Entry.regular_lexical hform (by decide) (by decide) (by simp)
    (hn.mono (Nat.le_refl _) (Nat.le_succ _))

variable {operands : List Node}
  (h : ∀ n ∈ operands, n.Within (form.opening + 1) form.closing)
include h

private theorem regular_setfLists : ∀ e ∈ setfLists src name form operands, e.Regular src := by
  cases operands with
  | nil => simp [setfLists]
  | cons list rest =>
    obtain ⟨hlist, hrest⟩ := List.forall_mem_cons.1 h
    intro e he
    rw [setfLists] at he
    split at he
    · next _ ps _ hps =>
      rcases List.mem_append.1 he with he | he
      · exact regular_parameters hform (Source.written_parametersAt hlist hps) e he
      · split at he
        · next stores p hstores =>
          obtain ⟨n, hn, hgroup⟩ := Option.bind_eq_some_iff.1 hstores
          obtain ⟨q, hq, heq⟩ := Option.map_eq_some_iff.1 hgroup
          obtain ⟨rfl, rfl⟩ := Prod.mk.inj heq
          have hitems := (hrest n (List.mem_of_head? hn)).items_of_group hq
          obtain ⟨site, hsite, he⟩ := List.mem_flatMap.1 he
          obtain ⟨m, hm, hname⟩ := List.mem_filterMap.1 hsite
          exact regular_afterList hform (Source.written_nameAt (hitems m hm) hname) e he
        · cases he
    · cases he

private theorem regular_combinationOptions :
    ∀ e ∈ combinationOptions src name form operands, e.Regular src := by
  induction operands with
  | nil => simp [combinationOptions]
  | cons n rest ih =>
    obtain ⟨hn, hrest⟩ := List.forall_mem_cons.1 h
    intro e he
    rw [combinationOptions] at he
    split at he
    · next option head parts hkind hitems =>
      have hgroup : n.element.group = some option := by simp [Element.group, hkind]
      have hinside := hn.items_of_group hgroup
      split at he
      · rcases List.mem_append.1 he with he | he
        · obtain ⟨p, hp, he⟩ := List.mem_flatMap.1 he
          have hwritten := LambdaList.written_ofItems hinside p hp
          exact regular_afterList hform
            (hwritten.mono (Nat.le_refl _) (Nat.min_le_left _ _)) e he
        · exact ih hrest e he
      split at he
      · rcases List.mem_append.1 he with he | he
        · obtain ⟨site, hsite, he⟩ := List.mem_flatMap.1 he
          have hparts : ∀ m ∈ parts, m.Within (form.opening + 1) option.closing :=
            fun m hm => hinside m (by rw [hitems]; exact List.mem_cons_of_mem _ hm)
          exact regular_afterList hform
            (Source.written_head hparts (Option.mem_toList.1 hsite)) e he
        · exact ih hrest e he
      · cases he
    · exact ih hrest e he

private theorem regular_combinationLists :
    ∀ e ∈ combinationLists src name form operands, e.Regular src := by
  cases operands with
  | nil => simp [combinationLists]
  | cons list rest =>
    obtain ⟨hlist, hrest⟩ := List.forall_mem_cons.1 h
    intro e he
    rw [combinationLists.eq_def] at he
    simp only at he
    split at he
    · next _ ps _ hps =>
      rcases List.mem_append.1 he with he | he
      · exact regular_parameters hform (Source.written_parametersAt hlist hps) e he
      · cases rest with
        | nil => cases he
        | cons groups options =>
          obtain ⟨hgroups, hoptions⟩ := List.forall_mem_cons.1 hrest
          simp only at he
          split at he
          · cases he
          · next p hp =>
            rcases List.mem_append.1 he with he | he
            · obtain ⟨site, hsite, he⟩ := List.mem_flatMap.1 he
              obtain ⟨spec, hspec, hsome⟩ := List.mem_filterMap.1 hsite
              split at hsome
              · have hparts := (hgroups.items_of_group hp spec hspec).items
                exact regular_afterList hform (Source.written_head hparts hsome) e he
              · cases hsome
            · exact regular_combinationOptions hform hoptions e he
    · cases he

private theorem regular_lists {d : Definer} :
    ∀ e ∈ (lists src d name form operands).1, e.Regular src := by
  unfold lists
  split
  · exact regular_parameters hform (Source.written_headParameters h false)
  · exact regular_parameters hform (Source.written_headParameters h true)
  · apply regular_parameters hform
    apply Source.written_headParameters
    exact fun n hn => h n ((List.dropWhile_sublist _).subset hn)
  · split
    · exact regular_setfLists hform h
    · exact regular_combinationLists hform h
    · simp

private theorem regular_entries {d : Definer} :
    ∀ e ∈ entries src form d operands, e.Regular src := by
  cases operands with
  | nil => simp [entries]
  | cons first rest =>
    obtain ⟨hfirst, hrest⟩ := List.forall_mem_cons.1 h
    intro e he
    rw [entries] at he
    split at he
    · cases he
    · next n hname =>
      obtain ⟨hstands, hwritten⟩ := stands_nameOf hfirst hname
      rcases List.mem_append.1 he with he | he
      · exact regular_lists hform hrest e he
      · rw [List.mem_singleton.1 he]
        exact
          { proper := hstands.proper
            inside := hstands.covers
            form := ⟨form, hform, rfl⟩
            name := fun hkind => ⟨(hwritten hkind).name, (hwritten hkind).bindable⟩
            global := fun _ => ⟨rfl, rfl⟩
            lexical := fun hc => absurd rfl hc
            after := by simp [Binding.global]
            labels := fun hlabels => by cases hlabels.1
            window := by simp [Binding.global]
            windowEnds := by simp [Binding.global] }

end Lists

end Definition

/-! ## Variables -/

namespace Variable

variable {src : Source} {form : Pair} {lo hi : Nat}

/-- The variable of an entry is written where the entry stands. -/
theorem written_of_mem_specs {list : Node} (hlist : ∀ n ∈ list.items, n.Within lo hi) {spec : Spec}
    (h : spec ∈ specs src list) : spec.name.Written src lo (min hi spec.entry.stop) := by
  obtain ⟨entry, hentry, hspec⟩ := List.mem_filterMap.1 h
  obtain ⟨name, hname, rfl⟩ := Option.map_eq_some_iff.1 hspec
  obtain ⟨n, hn, hname⟩ := Option.bind_eq_some_iff.1 hname
  have hin : entry.Within lo (min hi entry.stop) :=
    { hlist entry hentry with
      le_hi := Nat.le_min.2 ⟨(hlist entry hentry).le_hi, Nat.le_refl _⟩ }
  split at hn
  · rw [← Option.some.inj hn] at hname
    exact Source.written_nameAt hin hname
  · split at hn
    · cases hn
    · exact Source.written_nameAt (hin.items n (List.mem_of_head? hn)) hname
  · cases hn

/-- A variable is written before it becomes visible. -/
theorem written_visibleFrom {list : Node} {p : Pair}
    (hlist : ∀ n ∈ list.items, n.Within lo p.closing) {spec : Spec} (h : spec ∈ specs src list)
    (sequential : Bool) : spec.name.Written src lo (visibleFrom sequential p spec) := by
  refine (written_of_mem_specs hlist h).mono (Nat.le_refl _) ?_
  unfold visibleFrom
  split
  · exact Nat.min_le_right _ _
  · omega

/-- The first operand, where it is a group, and what is inside it. -/
theorem within_of_firstGroup {operands : List Node} (h : ∀ n ∈ operands, n.Within lo hi)
    {list : Node} {p : Pair} (hgroup : firstGroup operands = some (list, p)) :
    lo ≤ p.opening ∧ (∀ n ∈ list.items, n.Within (p.opening + 1) p.closing) ∧
      list.items.Pairwise fun m n => m.stop < n.stop := by
  obtain ⟨n, hn, hmap⟩ := Option.bind_eq_some_iff.1 hgroup
  obtain ⟨q, hq, heq⟩ := Option.map_eq_some_iff.1 hmap
  obtain ⟨rfl, rfl⟩ := Prod.mk.inj heq
  have hin := h n (List.mem_of_head? hn)
  have hspan := hin.nested.group hq
  have hlo := hin.lo_le
  rw [hspan] at hlo
  refine ⟨hlo, fun m hm => ?_, hin.nested.ordered⟩
  have hinside := hin.nested.inside m hm
  rw [hspan] at hinside
  exact ⟨hin.nested.items m hm, hinside.1, Nat.le_of_lt_succ hinside.2⟩

/-- The name of the first of some nodes is written before the second one ends. -/
theorem written_head_of_second {nodes : List Node} (hnodes : ∀ n ∈ nodes, n.Within lo hi)
    (hordered : nodes.Pairwise fun m n => m.stop < n.stop) {name : NameSite}
    (hname : nodes.head?.bind src.nameAt = some name) {value : Node}
    (hvalue : nodes[1]? = some value) : name.Written src lo value.stop := by
  match nodes with
  | first :: second :: rest =>
    have hlt := (List.pairwise_cons.1 hordered).1 second List.mem_cons_self
    rw [← Option.some.inj hvalue]
    exact Source.written_nameAt { hnodes first List.mem_cons_self with le_hi := Nat.le_of_lt hlt }
      hname

section Forms

variable (hform : form ∈ src.layout.pairs.pairs) {keyword : String} {operands : List Node}
  (h : ∀ n ∈ operands, n.Within (form.opening + 1) form.closing)
include hform h

private theorem regular_letEntries (hdo : ¬src.IsDoForm form.span) {sequential : Bool}
    {kind : BindingKind} :
    ∀ e ∈ letEntries src form keyword sequential kind operands, e.Regular src := by
  intro e he
  unfold letEntries at he
  split at he
  · cases he
  · next list p hgroup =>
    obtain ⟨hopening, hitems, -⟩ := within_of_firstGroup h hgroup
    obtain ⟨spec, hspec, he⟩ := List.mem_flatMap.1 he
    have hname := written_visibleFrom hitems hspec sequential
    exact Entry.regular_lexical hform (by decide) (by decide) (fun _ => hdo)
      (hname.mono (by omega) (Nat.le_refl _)) e he

private theorem regular_doEntries (hdo : src.IsDoForm form.span) {sequential : Bool} :
    ∀ e ∈ doEntries src form keyword sequential operands, e.Regular src := by
  intro e he
  unfold doEntries at he
  split at he
  · cases he
  · next list p hgroup =>
    obtain ⟨hopening, hitems, -⟩ := within_of_firstGroup h hgroup
    obtain ⟨spec, hspec, he⟩ := List.mem_flatMap.1 he
    have hname := written_visibleFrom hitems hspec sequential
    have hlo := hname.lo_le
    have hproper := hname.proper
    have hhi := hname.le_hi
    unfold doEntry at he
    rcases List.mem_append.1 he with hstep | hbinding
    · split at hstep
      · obtain ⟨n, -, rfl⟩ := List.mem_map.1 hstep
        trivial
      · cases hstep
    · split at hbinding
      · next scope hscope =>
        obtain ⟨rfl, hle⟩ := eq_of_scopeIn hscope
        rw [List.mem_singleton.1 hbinding]
        exact
          { proper := hproper
            inside := (hname.mono (by omega) hle).covers
            form := ⟨form, hform, rfl⟩
            name := fun _ => ⟨hname.name, hname.bindable⟩
            global := fun hglobal => (by cases hglobal)
            lexical := fun _ => ⟨rfl, form, hform, _, rfl,
              Span.covers_iff.2 ⟨Nat.le_refl _, Nat.le_refl _⟩, by omega, hle⟩
            after := by simpa [Binding.lexical] using fun _ => hhi
            labels := fun hlabels => by cases hlabels.1
            window := ⟨fun _ => ⟨rfl, hdo⟩, fun _ => rfl⟩
            windowEnds := by
              rintro w ⟨⟩
              exact ⟨Span.covers_iff.2 ⟨by simp only [Binding.lexical]; omega, hhi⟩, _, rfl, rfl⟩ }
      · cases hbinding

private theorem regular_lambdaEntries (hdo : ¬src.IsDoForm form.span) :
    ∀ e ∈ lambdaEntries src form operands, e.Regular src :=
  Entry.regular_parameters hform (by decide) (by decide) (fun _ => hdo)
    (Source.written_headParameters h false)

private theorem regular_valueEntries (hdo : ¬src.IsDoForm form.span) {destructuring : Bool} :
    ∀ e ∈ valueEntries src form keyword destructuring operands, e.Regular src := by
  intro e he
  unfold valueEntries at he
  split at he
  · next list value rest =>
    split at he
    · cases he
    · next p hp =>
      obtain ⟨param, hparam, he⟩ := List.mem_flatMap.1 he
      have hitems := (h list List.mem_cons_self).items_of_group hp
      have hwritten := LambdaList.written_ofItems hitems param hparam
      exact Entry.regular_lexical hform (by decide) (by decide) (fun _ => hdo)
        (hwritten.mono (Nat.le_refl _) (by omega)) e he
  · cases he

private theorem regular_singleEntries {iterates : Bool} {kind : BindingKind} :
    ∀ e ∈ singleEntries src form keyword iterates kind operands, e.Regular src := by
  intro e he
  unfold singleEntries at he
  split at he
  · cases he
  · next spec p hgroup =>
    obtain ⟨hopening, hitems, hordered⟩ := within_of_firstGroup h hgroup
    split at he
    · cases he
    · next name hname =>
      have hlist : name.Written src (form.opening + 1) (p.closing + 1) :=
        (Source.written_head hitems hname).mono (by omega) (Nat.le_succ _)
      refine Entry.regular_lexical hform (by decide) (by decide) (by simp) ?_ e he
      split
      · next value hvalue =>
        split
        · exact (written_head_of_second hitems hordered hname hvalue).mono (by omega)
            (Nat.le_refl _)
        · exact hlist
      · exact hlist

end Forms

end Variable

/-! ## Local functions -/

namespace LocalFunction

variable {src : Source} {form : Pair}

private theorem opening_le_visibleFrom (f : LocalFunctionForm) {list : Pair}
    (h : list.opening < list.closing) : list.opening ≤ visibleFrom f list := by
  cases f with
  | labels => exact Nat.le_refl _
  | flet | macrolet =>
    show _ ≤ list.closing + 1
    omega

/-- The entries of a definition in the list of a form. -/
theorem regular_definitionEntries (hsrc : src.Nests) (hform : form ∈ src.layout.pairs.pairs)
    {f : LocalFunctionForm}
    (hat : BindingForm.at? src form = some ⟨form, .localFunctions f⟩) {list definition : Pair}
    (hlist : list ∈ src.layout.pairs.pairs) (hopening : form.opening < list.opening)
    (hclosing : list.closing < form.closing)
    (hsecond : (src.items form)[1]?.bind (·.element.group) = some list)
    (hdefinition : definition ∈ src.layout.pairs.children list) :
    ∀ e ∈ definitionEntries src form f.keyword f list definition, e.Regular src := by
  have hpair := hsrc.nests.laminar.lt list hlist
  have hmem := PairIndex.mem_of_mem_children hdefinition
  obtain ⟨hbefore, hbehind⟩ :=
    hsrc.nests.laminar.between_of_mem_children hsrc.nests.ordered hlist hdefinition
  have hitems := hsrc.items hmem
  intro e he
  unfold definitionEntries at he
  split at he
  · cases he
  · next first rest heq =>
    rw [heq] at hitems
    obtain ⟨hfirst, hrest⟩ := List.forall_mem_cons.1 hitems
    split at he
    · cases he
    · next n hname =>
      have hwritten := Source.written_nameAt hfirst hname
      have hlo := hwritten.lo_le
      have hhi := hwritten.le_hi
      rcases List.mem_append.1 he with hbound | hparameters
      · split at hbound
        · next scope hscope =>
          obtain ⟨rfl, hle⟩ := eq_of_scopeIn hscope
          rw [List.mem_singleton.1 hbound]
          exact
            { proper := hwritten.proper
              inside := hwritten.covers
              form := ⟨definition, hmem, rfl⟩
              name := fun _ => ⟨hwritten.name, hwritten.bindable⟩
              global := fun hglobal => (by cases hglobal)
              lexical := fun _ => ⟨rfl, form, hform, _, rfl,
                Span.covers_iff.2 ⟨by simp only [Binding.lexical, Pair.span]; omega,
                  by simp only [Binding.lexical, Pair.span]; omega⟩,
                Nat.lt_of_lt_of_le hopening (opening_le_visibleFrom f hpair), hle⟩
              after := by
                rintro hlabels scope ⟨⟩
                cases f with
                | labels => exact absurd ⟨rfl, rfl⟩ hlabels
                | flet | macrolet => exact Nat.le_trans hhi (by show _ ≤ list.closing + 1; omega)
              labels := by
                rintro ⟨-, hkeyword⟩
                cases f with
                | labels =>
                  exact ⟨form, list, definition, hat, hsecond, hdefinition, rfl, rfl,
                    by simp only [Binding.lexical]; omega⟩
                | flet | macrolet => simp [Binding.lexical, LocalFunctionForm.keyword] at hkeyword
              window := by simp [Binding.lexical]
              windowEnds := by simp [Binding.lexical] }
        · cases hbound
      · exact Entry.regular_parameters hmem (by decide) (by decide) (by simp)
          (Source.written_headParameters hrest _) e hparameters

private theorem regular_entries (hsrc : src.Nests) (hform : form ∈ src.layout.pairs.pairs)
    {f : LocalFunctionForm}
    (hat : BindingForm.at? src form = some ⟨form, .localFunctions f⟩) {first : Node}
    {operands : List Node} (hitems : src.items form = first :: operands) :
    ∀ e ∈ entries src form f.keyword f operands, e.Regular src := by
  intro e he
  unfold entries at he
  split at he
  · cases he
  · next list hgroup =>
    obtain ⟨n, hn, hlist⟩ := Option.bind_eq_some_iff.1 hgroup
    have hmem : n ∈ src.items form := by
      rw [hitems]
      exact List.mem_cons_of_mem _ (List.mem_of_head? hn)
    have hin := hsrc.items hform n hmem
    have hlo := hin.lo_le
    have hhi := hin.le_hi
    rw [hin.nested.group hlist] at hlo hhi
    have hpair := ((hsrc.toSound.items hform n hmem).element.group list
      (Element.kind_of_group hlist)).1
    have hsecond : (src.items form)[1]?.bind (·.element.group) = some list := by
      rw [hitems, List.getElem?_cons_succ, ← List.head?_eq_getElem?, hgroup]
    obtain ⟨definition, hdefinition, he⟩ := List.mem_flatMap.1 he
    exact regular_definitionEntries hsrc hform hat hpair hlo hhi hsecond hdefinition e he

end LocalFunction

/-! ## Variables of `loop` -/

namespace Loop

variable {src : Source} {form : Pair}

private theorem regular_bindName (hform : form ∈ src.layout.pairs.pairs) {kind : BindingKind}
    {n : NameSite} {hi : Nat} (hn : n.Written src (form.opening + 1) hi) :
    ∀ e ∈ bindName form kind n, e.Regular src :=
  Entry.regular_lexical hform (by decide) (by decide) (by simp)
    { hn with le_hi := Nat.le_refl _ }

mutual

private theorem regular_bindTarget (hform : form ∈ src.layout.pairs.pairs) {kind : BindingKind} :
    ∀ n : Node, n.Within (form.opening + 1) form.closing →
      ∀ e ∈ bindTarget src form kind n, e.Regular src
  | .mk element items, h => by
    intro e he
    unfold bindTarget at he
    split at he
    · obtain ⟨name, hname, he⟩ := List.mem_flatMap.1 he
      exact regular_bindName hform (Source.written_nameAt h (Option.mem_toList.1 hname)) e he
    · split at he
      · cases he
      · exact regular_bindTargets hform items h.items e he
    · cases he

private theorem regular_bindTargets (hform : form ∈ src.layout.pairs.pairs) {kind : BindingKind} :
    ∀ nodes : List Node, (∀ n ∈ nodes, n.Within (form.opening + 1) form.closing) →
      ∀ e ∈ bindTargets src form kind nodes, e.Regular src
  | [], _ => by simp [bindTargets]
  | n :: rest, h => by
    obtain ⟨hn, hrest⟩ := List.forall_mem_cons.1 h
    intro e he
    unfold bindTargets at he
    rcases List.mem_append.1 he with he | he
    · exact regular_bindTarget hform n hn e he
    · exact regular_bindTargets hform rest hrest e he

end

private theorem regular_clauses (hform : form ∈ src.layout.pairs.pairs) {st : State}
    {nodes : List Node} (h : ∀ n ∈ nodes, n.Within (form.opening + 1) form.closing) :
    ∀ e ∈ clauses src form st nodes, e.Regular src := by
  induction nodes generalizing st with
  | nil => simp [clauses]
  | cons n rest ih =>
    obtain ⟨hn, hrest⟩ := List.forall_mem_cons.1 h
    intro e he
    unfold clauses at he
    split at he
    case h_1 | h_2 =>
      rcases List.mem_append.1 he with he | he
      · exact regular_bindTarget hform n hn e he
      · exact ih hrest e he
    case h_3 =>
      rcases List.mem_append.1 he with he | he
      · split at he
        · obtain ⟨m, hm, he⟩ := List.mem_flatMap.1 he
          have hm := List.mem_of_getElem? (Option.mem_toList.1 hm)
          exact regular_bindTarget hform m (hn.items m hm) e he
        · cases he
      · exact ih hrest e he
    case h_4 => exact ih hrest e he

end Loop

/-! ## The table -/

/-- Where a form was found, and what its first word says about it. -/
theorem BindingForm.at?_eq_some {src : Source} {p : Pair} {f : BindingForm}
    (h : BindingForm.at? src p = some f) : f.pair = p ∧
      ∀ first operands, src.items p = first :: operands →
        Head.classify (src.textAt first) = some f.head := by
  unfold BindingForm.at? at h
  split at h
  · cases h
  · next e rest helements =>
    split at h
    · obtain ⟨head, hhead, rfl⟩ := Option.map_eq_some_iff.1 h
      refine ⟨rfl, fun first operands hitems => ?_⟩
      rw [Source.items, Source.nodes_eq] at hitems
      rw [Source.elements] at helements
      rw [helements, List.map_cons] at hitems
      rw [← (List.cons.inj hitems).1]
      exact hhead
    · cases h

private theorem Head.ofWord_ne_localFunctions (word : String) (f : LocalFunctionForm) :
    Head.ofWord word ≠ some (.localFunctions f) := by
  unfold Head.ofWord
  split <;> simp

/-- A form of local functions starts with its keyword. -/
theorem Head.keywordOf_of_classify {text : String} {f : LocalFunctionForm}
    (h : Head.classify text = some (.localFunctions f)) : keywordOf text = f.keyword := by
  unfold Head.classify at h
  simp only at h
  split at h
  · cases h
  · split at h
    · next g hfind =>
      have hkeyword := List.find?_some hfind
      simp only [beq_iff_eq] at hkeyword
      rw [← Head.localFunctions.inj (Option.some.inj h), hkeyword]
    · exact absurd h (Head.ofWord_ne_localFunctions _ f)

/-- A form is a `do` form if it binds as such. -/
theorem BindingForm.isDoForm_iff {src : Source} {f : BindingForm}
    (h : BindingForm.at? src f.pair = some f) :
    src.IsDoForm f.pair.span ↔ ∃ sequential, f.head = .doLoop sequential := by
  constructor
  · rintro ⟨p, sequential, hspan, hp⟩
    have hpair : p = f.pair := by
      cases hq : f.pair
      cases p
      simp only [hq, Pair.span, Span.mk.injEq, Nat.add_right_cancel_iff] at hspan
      rw [hspan.1, hspan.2]
    rw [hpair, h] at hp
    exact ⟨sequential, by rw [Option.some.inj hp]⟩
  · rintro ⟨sequential, hhead⟩
    exact ⟨f.pair, sequential, rfl, by rw [h, ← hhead]⟩

/-- Whatever the form, its entries are regular. -/
theorem BindingForm.regular_entries {src : Source} (hsrc : src.Nests) {f : BindingForm}
    (hf : f.pair ∈ src.layout.pairs.pairs) (hat : BindingForm.at? src f.pair = some f) :
    ∀ e ∈ f.entries src, e.Regular src := by
  have hdo := isDoForm_iff hat
  have hitems := hsrc.items hf
  unfold BindingForm.entries
  split
  · simp
  · next first operands heq =>
    have hclassify := (BindingForm.at?_eq_some hat).2 first operands heq
    rw [heq] at hitems
    obtain ⟨-, hoperands⟩ := List.forall_mem_cons.1 hitems
    simp only
    split
    · exact Definition.regular_entries hf hoperands
    · exact Variable.regular_letEntries hf hoperands (by simp_all)
    · exact Variable.regular_doEntries hf hoperands (by simp_all)
    · exact Variable.regular_lambdaEntries hf hoperands (by simp_all)
    · exact Variable.regular_valueEntries hf hoperands (by simp_all)
    · exact Variable.regular_valueEntries hf hoperands (by simp_all)
    · next form hhead =>
      rw [Head.keywordOf_of_classify (hhead ▸ hclassify)]
      refine LocalFunction.regular_entries hsrc hf ?_ heq
      rw [hat, ← hhead]
    · exact Variable.regular_singleEntries hf hoperands
    · exact Loop.regular_clauses hf hoperands

/-- The form of a document that was found at a pair. -/
theorem BindingForm.at?_of_mem_all {src : Source} {excluded : SpanSet} {f : BindingForm}
    (h : f ∈ BindingForm.all src excluded) :
    f.pair ∈ src.layout.pairs.pairs ∧ BindingForm.at? src f.pair = some f := by
  obtain ⟨p, hp, hat⟩ := List.mem_filterMap.1 h
  rw [(BindingForm.at?_eq_some hat).1]
  exact ⟨(List.mem_filter.1 hp).1, hat⟩

/-- What holds of the bindings of a document, from which something is left out. -/
structure Table.Regular (src : Source) (excluded : SpanSet) (t : Table) : Prop where
  /-- Every binding is regular. -/
  bindings : ∀ c, ∀ b ∈ t.get c, b.Regular src c
  /-- No name is written in what is left out. -/
  kept : ∀ c, ∀ b ∈ t.get c, excluded.meets b.site = false

namespace Table.Regular

variable {src : Source} {excluded : SpanSet} {t : Table}

private theorem empty : Table.Regular src excluded {} := by
  constructor <;> intro c <;> cases c <;> simp [Table.get]

/-- An entry that is kept and regular may be added. -/
theorem add (h : t.Regular src excluded) {e : Entry} (he : e.Regular src)
    (hkept : e.isKept excluded = true) : (t.add e).Regular src excluded := by
  cases e with
  | stepForm s =>
    exact ⟨by simpa only [Table.add, get_insertStep] using h.bindings,
      by simpa only [Table.add, get_insertStep] using h.kept⟩
  | binding c b =>
    have hmeets : excluded.meets b.site = false := by simpa [Entry.isKept] using hkept
    have hget (d : Collection) : ∀ b' ∈ (t.insert c b).get d, b' ∈ t.get d ∨ (b' = b ∧ d = c) := by
      intro b' hb'
      by_cases hd : d = c
      · subst hd
        rw [get_insert_self] at hb'
        exact (List.mem_append.1 hb').imp_right fun heq => ⟨List.mem_singleton.1 heq, rfl⟩
      · rw [get_insert_of_ne t b hd] at hb'
        exact .inl hb'
    constructor <;> intro d b' hb'
    · rcases hget d b' hb' with hold | ⟨rfl, rfl⟩
      · exact h.bindings d b' hold
      · exact he
    · rcases hget d b' hb' with hold | ⟨rfl, rfl⟩
      · exact h.kept d b' hold
      · exact hmeets

private theorem foldl_add (h : t.Regular src excluded) {entries : List Entry}
    (hentries : ∀ e ∈ entries, e.Regular src ∧ e.isKept excluded = true) :
    (entries.foldl Table.add t).Regular src excluded := by
  induction entries generalizing t with
  | nil => exact h
  | cons e rest ih =>
    obtain ⟨⟨hregular, hkept⟩, hrest⟩ := List.forall_mem_cons.1 hentries
    exact ih (h.add hregular hkept) hrest

/-- One pass adds regular bindings only. -/
theorem collectPass (hsrc : src.Nests) (h : t.Regular src excluded) (c : Category) :
    (t.collectPass src excluded (BindingForm.all src excluded) c).Regular src excluded := by
  apply h.foldl_add
  intro e he
  obtain ⟨hfound, hkept⟩ := List.mem_filter.1 he
  obtain ⟨f, hf, he⟩ := List.mem_flatMap.1 hfound
  obtain ⟨hpair, hat⟩ := BindingForm.at?_of_mem_all (List.mem_filter.1 hf).1
  exact ⟨BindingForm.regular_entries hsrc hpair hat e he, hkept⟩

end Table.Regular

/-- The table of a nested source is regular. -/
theorem Table.regular_ofSource {src : Source} (hsrc : src.Nests) (mode : Mode) :
    (Table.ofSource src mode).Regular src (src.layout.excluded mode) := by
  unfold Table.ofSource
  generalize Category.all = passes
  have hempty : Table.Regular src (src.layout.excluded mode) {} := .empty
  generalize ({} : Table) = t at hempty ⊢
  induction passes generalizing t with
  | nil => exact hempty
  | cons c rest ih => exact ih _ (hempty.collectPass hsrc c)

/-- Every binding of a document is regular. -/
theorem Analysis.regular_of_mem_get {settings : Settings} {text : String} {c : Collection}
    {b : Binding} (hb : b ∈ (analyze settings text).table.get c) :
    b.Regular (analyze settings text).source c := by
  rw [analyze_eq] at hb ⊢
  exact (Table.regular_ofSource (Source.nests_ofText text) settings.collection).bindings c b hb

/-- The bindings of every document are regular, whatever the settings, and no name is written in
what the mode for collecting leaves out. -/
theorem Analysis.regular_analyze (settings : Settings) (text : String) :
    (analyze settings text).table.Regular (analyze settings text).source
      ((analyze settings text).excluded settings.collection) := by
  rw [analyze_eq]
  exact Table.regular_ofSource (Source.nests_ofText text) settings.collection

end LexScope
