import LexScope.Proofs.Binding.Lookup
import LexScope.Proofs.Binding.Regular

/-!
# Names stand at atoms

A binding with a scope takes its name from an atom among the elements of a form, however deep in a
lambda list, a pattern or a clause the atom is found, and stands exactly where that atom stands.
-/

namespace LexScope

/-! ## Items and atoms -/

namespace Source

/-- The node is an item of a form. -/
def HasItem (src : Source) (n : Node) : Prop :=
  ∃ p ∈ src.layout.pairs.pairs, n ∈ src.items p

end Source

/-- The name is that of an atom among the elements of a form. -/
structure NameSite.AtAtom (src : Source) (n : NameSite) : Prop where
  /-- The atom stands there. -/
  atom : ∃ p ∈ src.layout.pairs.pairs, ∃ e ∈ src.elements p, e.isAtom = true ∧ e.span = n.site
  /-- The name is its text in lower case. -/
  name : n.name = lowerCase (src.slice n.site)

namespace Source

variable {src : Source} {n : Node}

private theorem HasItem.atAtom (h : src.HasItem n) (hatom : n.element.isAtom = true) :
    NameSite.AtAtom src ⟨lowerCase (src.slice n.element.span), n.element.span⟩ := by
  obtain ⟨p, hp, hn⟩ := h
  rw [items, nodes_eq] at hn
  obtain ⟨e, he, rfl⟩ := List.mem_map.1 hn
  exact ⟨⟨p, hp, e, he, hatom, rfl⟩, rfl⟩

/-- What is inside an item is an item too. -/
theorem HasItem.items (hsrc : src.Nests) (h : src.HasItem n) : ∀ m ∈ n.items, src.HasItem m := by
  obtain ⟨p, hp, hn⟩ := h
  intro m hm
  rcases hsrc.items_of_mem_items hp hn with hnil | ⟨q, hq, heq⟩
  · rw [hnil] at hm
    cases hm
  · exact ⟨q, hq, heq ▸ hm⟩

/-- A name stands where its node stands. -/
theorem atAtom_nameAt (hn : src.HasItem n) {name : NameSite} (h : src.nameAt n = some name) :
    name.AtAtom src := by
  unfold nameAt at h
  split at h
  · next hatom =>
    simp only at h
    split at h
    · rw [← Option.some.inj h]
      exact hn.atAtom (Bool.and_eq_true_iff.1 hatom).1
    · cases h
  · cases h

private theorem atAtom_head {nodes : List Node} (hnodes : ∀ n ∈ nodes, src.HasItem n)
    {name : NameSite}
    (h : nodes.head?.bind src.nameAt = some name) : name.AtAtom src := by
  obtain ⟨n, hn, hname⟩ := Option.bind_eq_some_iff.1 h
  exact atAtom_nameAt (hnodes n (List.mem_of_head? hn)) hname

end Source

/-! ## Lambda lists -/

/-- The parameter is that of an atom among the elements of a form. -/
def Parameter.AtAtom (src : Source) (p : Parameter) : Prop :=
  NameSite.AtAtom src ⟨p.name, p.site⟩

namespace LambdaList

variable {src : Source} {destructuring : Bool}

private theorem atAtom_ofEntries (hsrc : src.Nests) (outer : Option Nat) (part : ListPart)
    (nodes : List Node) (h : ∀ n ∈ nodes, src.HasItem n) :
    ∀ p ∈ ofEntries src destructuring outer part nodes, p.AtAtom src := by
  intro p hp
  obtain ⟨n, hn, hatom, hp⟩ := (extracts_ofEntries outer part nodes).exists_atom
    (P := fun _ n => src.HasItem n) (fun _ n hn => hn.items hsrc) h p hp
  rw [Parameter.AtAtom, (mem_parameterAt.1 hp).2]
  exact hn.atAtom hatom

end LambdaList

section Parameters

variable {src : Source} (hsrc : src.Nests)
include hsrc

private theorem Source.atAtom_parametersAt {n : Node} (hn : src.HasItem n) {destructuring : Bool}
    {parameters : List Parameter} (h : src.parametersAt n destructuring = some parameters) :
    ∀ p ∈ parameters, p.AtAtom src := by
  unfold Source.parametersAt at h
  split at h
  · split at h
    · cases h
    · rw [← Option.some.inj h]
      exact LambdaList.atAtom_ofEntries hsrc none .required n.items (hn.items hsrc)
  · split at h
    · rw [← Option.some.inj h]
      simp
    · cases h
  · cases h

private theorem Source.atAtom_headParameters {operands : List Node}
    (h : ∀ n ∈ operands, src.HasItem n)
    (destructuring : Bool) :
    ∀ p ∈ (operands.head?.bind (src.parametersAt · destructuring)).getD [],
      p.AtAtom src := by
  intro p hp
  cases hps : operands.head?.bind (src.parametersAt · destructuring) with
  | none => simp [hps] at hp
  | some ps =>
    rw [hps] at hp
    obtain ⟨n, hn, hps⟩ := Option.bind_eq_some_iff.1 hps
    exact Source.atAtom_parametersAt hsrc (h n (List.mem_of_head? hn)) hps p hp

end Parameters

/-! ## Entries -/

/-- A binding among the entries stands at an atom, unless it is a global definition. -/
def Entry.AtAtom (src : Source) : Entry → Prop
  | .binding c b => c ≠ .globalDefinition → NameSite.AtAtom src ⟨b.name, b.site⟩
  | .stepForm _ => True

section Entries

variable {src : Source}

private theorem Entry.atAtom_lexical {c : Collection} {kind : BindingKind} {container : String}
    {scopeForm : Pair} {form : Span} {start : Nat} {n : NameSite} (hn : n.AtAtom src) :
    ∀ e ∈ Entry.lexical c kind container scopeForm form start n, e.AtAtom src := by
  intro e he
  unfold Entry.lexical at he
  split at he
  · rw [List.mem_singleton.1 he]
    exact fun _ => hn
  · cases he

private theorem Entry.atAtom_parameters {c : Collection} {container : String} {form : Pair}
    {ps : List Parameter} (hps : ∀ p ∈ ps, p.AtAtom src) :
    ∀ e ∈ Entry.parameters c container form ps, e.AtAtom src := by
  intro e he
  obtain ⟨p, hp, he⟩ := List.mem_flatMap.1 he
  exact Entry.atAtom_lexical (hps p hp) e he

end Entries

/-! ## Global definitions -/

namespace Definition

variable {src : Source} (hsrc : src.Nests) {form : Pair} {name : String} {operands : List Node}
  (h : ∀ n ∈ operands, src.HasItem n)
include hsrc h

private theorem atAtom_setfLists : ∀ e ∈ setfLists src name form operands, e.AtAtom src := by
  cases operands with
  | nil => simp [setfLists]
  | cons list rest =>
    obtain ⟨hlist, hrest⟩ := List.forall_mem_cons.1 h
    intro e he
    rw [setfLists] at he
    split at he
    · next _ ps _ hps =>
      rcases List.mem_append.1 he with he | he
      · exact Entry.atAtom_parameters (Source.atAtom_parametersAt hsrc hlist hps) e he
      · split at he
        · next stores p hstores =>
          obtain ⟨n, hn, hgroup⟩ := Option.bind_eq_some_iff.1 hstores
          obtain ⟨q, hq, heq⟩ := Option.map_eq_some_iff.1 hgroup
          obtain ⟨rfl, rfl⟩ := Prod.mk.inj heq
          obtain ⟨site, hsite, he⟩ := List.mem_flatMap.1 he
          obtain ⟨m, hm, hname⟩ := List.mem_filterMap.1 hsite
          have hm := (hrest n (List.mem_of_head? hn)).items hsrc m hm
          exact Entry.atAtom_lexical (Source.atAtom_nameAt hm hname) e he
        · cases he
    · cases he

private theorem atAtom_combinationOptions :
    ∀ e ∈ combinationOptions src name form operands, e.AtAtom src := by
  induction operands with
  | nil => simp [combinationOptions]
  | cons n rest ih =>
    obtain ⟨hn, hrest⟩ := List.forall_mem_cons.1 h
    have hitems := hn.items hsrc
    intro e he
    rw [combinationOptions] at he
    split at he
    · next option head parts hkind heq =>
      split at he
      · rcases List.mem_append.1 he with he | he
        · obtain ⟨p, hp, he⟩ := List.mem_flatMap.1 he
          exact Entry.atAtom_lexical
            (LambdaList.atAtom_ofEntries hsrc none .required n.items hitems p hp) e he
        · exact ih hrest e he
      split at he
      · rcases List.mem_append.1 he with he | he
        · obtain ⟨site, hsite, he⟩ := List.mem_flatMap.1 he
          have hparts : ∀ m ∈ parts, src.HasItem m :=
            fun m hm => hitems m (by rw [heq]; exact List.mem_cons_of_mem _ hm)
          exact Entry.atAtom_lexical
            (Source.atAtom_head hparts (Option.mem_toList.1 hsite)) e he
        · exact ih hrest e he
      · cases he
    · exact ih hrest e he

private theorem atAtom_combinationLists :
    ∀ e ∈ combinationLists src name form operands, e.AtAtom src := by
  cases operands with
  | nil => simp [combinationLists]
  | cons list rest =>
    obtain ⟨hlist, hrest⟩ := List.forall_mem_cons.1 h
    intro e he
    rw [combinationLists.eq_def] at he
    simp only at he
    split at he
    · next _ ps _ hps =>
      rcases List.mem_append.1 he with he | he
      · exact Entry.atAtom_parameters (Source.atAtom_parametersAt hsrc hlist hps) e he
      · cases rest with
        | nil => cases he
        | cons groups options =>
          obtain ⟨hgroups, hoptions⟩ := List.forall_mem_cons.1 hrest
          simp only at he
          split at he
          · cases he
          · rcases List.mem_append.1 he with he | he
            · obtain ⟨site, hsite, he⟩ := List.mem_flatMap.1 he
              obtain ⟨spec, hspec, hsome⟩ := List.mem_filterMap.1 hsite
              split at hsome
              · have hparts := (hgroups.items hsrc spec hspec).items hsrc
                exact Entry.atAtom_lexical (Source.atAtom_head hparts hsome) e he
              · cases hsome
            · exact atAtom_combinationOptions hsrc hoptions e he
    · cases he

private theorem atAtom_lists {d : Definer} :
    ∀ e ∈ (lists src d name form operands).1, e.AtAtom src := by
  unfold lists
  split
  · exact Entry.atAtom_parameters (Source.atAtom_headParameters hsrc h false)
  · exact Entry.atAtom_parameters (Source.atAtom_headParameters hsrc h true)
  · apply Entry.atAtom_parameters
    apply Source.atAtom_headParameters hsrc
    exact fun n hn => h n ((List.dropWhile_sublist _).subset hn)
  · split
    · exact atAtom_setfLists hsrc h
    · exact atAtom_combinationLists hsrc h
    · simp

private theorem atAtom_entries {d : Definer} : ∀ e ∈ entries src form d operands, e.AtAtom src := by
  cases operands with
  | nil => simp [entries]
  | cons first rest =>
    intro e he
    rw [entries] at he
    split at he
    · cases he
    · rcases List.mem_append.1 he with he | he
      · exact atAtom_lists hsrc (List.forall_mem_cons.1 h).2 e he
      · rw [List.mem_singleton.1 he]
        exact fun hc => absurd rfl hc

end Definition

/-! ## Variables -/

namespace Variable

variable {src : Source} (hsrc : src.Nests) {form : Pair} {keyword : String}
include hsrc

private theorem atAtom_of_mem_specs {list : Node} (hlist : src.HasItem list) {spec : Spec}
    (h : spec ∈ specs src list) : spec.name.AtAtom src := by
  obtain ⟨entry, hentry, hspec⟩ := List.mem_filterMap.1 h
  obtain ⟨name, hname, rfl⟩ := Option.map_eq_some_iff.1 hspec
  obtain ⟨n, hn, hname⟩ := Option.bind_eq_some_iff.1 hname
  have hitem := hlist.items hsrc entry hentry
  split at hn
  · rw [← Option.some.inj hn] at hname
    exact Source.atAtom_nameAt hitem hname
  · split at hn
    · cases hn
    · exact Source.atAtom_nameAt (hitem.items hsrc n (List.mem_of_head? hn)) hname
  · cases hn

omit hsrc in
private theorem hasItem_of_firstGroup {operands : List Node} (h : ∀ n ∈ operands, src.HasItem n)
    {list : Node} {p : Pair} (hgroup : firstGroup operands = some (list, p)) :
    src.HasItem list := by
  obtain ⟨n, hn, hmap⟩ := Option.bind_eq_some_iff.1 hgroup
  obtain ⟨q, -, heq⟩ := Option.map_eq_some_iff.1 hmap
  obtain ⟨rfl, -⟩ := Prod.mk.inj heq
  exact h n (List.mem_of_head? hn)

variable {operands : List Node} (h : ∀ n ∈ operands, src.HasItem n)
include h

private theorem atAtom_letEntries {sequential : Bool} {kind : BindingKind} :
    ∀ e ∈ letEntries src form keyword sequential kind operands, e.AtAtom src := by
  intro e he
  unfold letEntries at he
  split at he
  · cases he
  · next list p hgroup =>
    obtain ⟨spec, hspec, he⟩ := List.mem_flatMap.1 he
    have hlist := hasItem_of_firstGroup h hgroup
    exact Entry.atAtom_lexical (atAtom_of_mem_specs hsrc hlist hspec) e he

private theorem atAtom_doEntries {sequential : Bool} :
    ∀ e ∈ doEntries src form keyword sequential operands, e.AtAtom src := by
  intro e he
  unfold doEntries at he
  split at he
  · cases he
  · next list p hgroup =>
    obtain ⟨spec, hspec, he⟩ := List.mem_flatMap.1 he
    have hlist := hasItem_of_firstGroup h hgroup
    unfold doEntry at he
    rcases List.mem_append.1 he with hstep | hbinding
    · split at hstep
      · obtain ⟨n, -, rfl⟩ := List.mem_map.1 hstep
        trivial
      · cases hstep
    · split at hbinding
      · rw [List.mem_singleton.1 hbinding]
        exact fun _ => atAtom_of_mem_specs hsrc hlist hspec
      · cases hbinding

private theorem atAtom_lambdaEntries : ∀ e ∈ lambdaEntries src form operands, e.AtAtom src :=
  Entry.atAtom_parameters (Source.atAtom_headParameters hsrc h false)

private theorem atAtom_valueEntries {destructuring : Bool} :
    ∀ e ∈ valueEntries src form keyword destructuring operands, e.AtAtom src := by
  intro e he
  unfold valueEntries at he
  split at he
  · next list value rest =>
    split at he
    · cases he
    · obtain ⟨param, hparam, he⟩ := List.mem_flatMap.1 he
      have hitems := (h list List.mem_cons_self).items hsrc
      exact Entry.atAtom_lexical
        (LambdaList.atAtom_ofEntries hsrc none .required list.items hitems param hparam) e he
  · cases he

private theorem atAtom_singleEntries {iterates : Bool} {kind : BindingKind} :
    ∀ e ∈ singleEntries src form keyword iterates kind operands, e.AtAtom src := by
  intro e he
  unfold singleEntries at he
  split at he
  · cases he
  · next spec p hgroup =>
    split at he
    · cases he
    · next name hname =>
      have hitems := (hasItem_of_firstGroup h hgroup).items hsrc
      exact Entry.atAtom_lexical (Source.atAtom_head hitems hname) e he

end Variable

/-! ## Local functions -/

namespace LocalFunction

variable {src : Source} (hsrc : src.Nests) {form : Pair} {keyword : String}
  {f : LocalFunctionForm}
include hsrc

private theorem atAtom_definitionEntries {list definition : Pair}
    (hdefinition : definition ∈ src.layout.pairs.pairs) :
    ∀ e ∈ definitionEntries src form keyword f list definition, e.AtAtom src := by
  have hitems : ∀ n ∈ src.items definition, src.HasItem n :=
    fun n hn => ⟨definition, hdefinition, hn⟩
  intro e he
  unfold definitionEntries at he
  split at he
  · cases he
  · next first rest heq =>
    rw [heq] at hitems
    obtain ⟨hfirst, hrest⟩ := List.forall_mem_cons.1 hitems
    split at he
    · cases he
    · next n hname =>
      rcases List.mem_append.1 he with hbound | hparameters
      · split at hbound
        · rw [List.mem_singleton.1 hbound]
          exact fun _ => Source.atAtom_nameAt hfirst hname
        · cases hbound
      · exact Entry.atAtom_parameters (Source.atAtom_headParameters hsrc hrest _) e hparameters

private theorem atAtom_entries {operands : List Node} :
    ∀ e ∈ entries src form keyword f operands, e.AtAtom src := by
  intro e he
  unfold entries at he
  split at he
  · cases he
  · obtain ⟨definition, hdefinition, he⟩ := List.mem_flatMap.1 he
    exact atAtom_definitionEntries hsrc (PairIndex.mem_of_mem_children hdefinition) e he

end LocalFunction

/-! ## Variables of `loop` -/

namespace Loop

variable {src : Source} {form : Pair}

mutual

private theorem atAtom_bindTarget (hsrc : src.Nests) (kind : BindingKind) :
    ∀ n : Node, src.HasItem n → ∀ e ∈ bindTarget src form kind n, e.AtAtom src
  | .mk element items, h => by
    intro e he
    unfold bindTarget at he
    split at he
    · obtain ⟨name, hname, he⟩ := List.mem_flatMap.1 he
      exact Entry.atAtom_lexical (Source.atAtom_nameAt h (Option.mem_toList.1 hname)) e he
    · split at he
      · cases he
      · exact atAtom_bindTargets hsrc kind items (h.items hsrc) e he
    · cases he

private theorem atAtom_bindTargets (hsrc : src.Nests) (kind : BindingKind) : ∀ nodes : List Node,
    (∀ n ∈ nodes, src.HasItem n) → ∀ e ∈ bindTargets src form kind nodes, e.AtAtom src
  | [], _ => by simp [bindTargets]
  | n :: rest, h => by
    obtain ⟨hn, hrest⟩ := List.forall_mem_cons.1 h
    intro e he
    unfold bindTargets at he
    rcases List.mem_append.1 he with he | he
    · exact atAtom_bindTarget hsrc kind n hn e he
    · exact atAtom_bindTargets hsrc kind rest hrest e he

end

private theorem atAtom_clauses (hsrc : src.Nests) {st : State} {nodes : List Node}
    (h : ∀ n ∈ nodes, src.HasItem n) :
    ∀ e ∈ clauses src form st nodes, e.AtAtom src := by
  induction nodes generalizing st with
  | nil => simp [clauses]
  | cons n rest ih =>
    obtain ⟨hn, hrest⟩ := List.forall_mem_cons.1 h
    intro e he
    unfold clauses at he
    split at he
    case h_1 | h_2 =>
      rcases List.mem_append.1 he with he | he
      · exact atAtom_bindTarget hsrc _ n hn e he
      · exact ih hrest e he
    case h_3 =>
      rcases List.mem_append.1 he with he | he
      · split at he
        · obtain ⟨m, hm, he⟩ := List.mem_flatMap.1 he
          have hm := List.mem_of_getElem? (Option.mem_toList.1 hm)
          exact atAtom_bindTarget hsrc _ m (hn.items hsrc m hm) e he
        · cases he
      · exact ih hrest e he
    case h_4 => exact ih hrest e he

end Loop

/-! ## The table -/

/-- Whatever the form, its entries stand at atoms. -/
theorem BindingForm.atAtom_entries {src : Source} (hsrc : src.Nests) {f : BindingForm}
    (hf : f.pair ∈ src.layout.pairs.pairs) : ∀ e ∈ f.entries src, e.AtAtom src := by
  have hitems : ∀ n ∈ src.items f.pair, src.HasItem n := fun n hn => ⟨f.pair, hf, hn⟩
  unfold BindingForm.entries
  split
  · simp
  · next first operands heq =>
    rw [heq] at hitems
    obtain ⟨-, hoperands⟩ := List.forall_mem_cons.1 hitems
    simp only
    split
    · exact Definition.atAtom_entries hsrc hoperands
    · exact Variable.atAtom_letEntries hsrc hoperands
    · exact Variable.atAtom_doEntries hsrc hoperands
    · exact Variable.atAtom_lambdaEntries hsrc hoperands
    · exact Variable.atAtom_valueEntries hsrc hoperands
    · exact Variable.atAtom_valueEntries hsrc hoperands
    · exact LocalFunction.atAtom_entries hsrc
    · exact Variable.atAtom_singleEntries hsrc hoperands
    · exact Loop.atAtom_clauses hsrc hoperands

/-- Every binding of a document with a scope has its name from an atom of a form. -/
theorem Table.atAtom_of_mem_locals {src : Source} (hsrc : src.Nests) {mode : Mode}
    {name : String} {b : Binding} (h : b ∈ (Table.ofSource src mode).locals name) :
    NameSite.AtAtom src ⟨b.name, b.site⟩ := by
  obtain ⟨-, -, c, hc, f, hf, hb⟩ := Table.mem_locals_ofSource.1 h
  refine BindingForm.atAtom_entries hsrc (BindingForm.at?_of_mem_all hf).1 _ hb ?_
  rintro rfl
  exact absurd hc (by decide)

end LexScope
