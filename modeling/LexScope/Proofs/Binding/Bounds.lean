import LexScope.Document.Analysis
import LexScope.Proofs.Binding.Parameters
import LexScope.Proofs.Form.Reading

/-!
# Bindings stay inside the text

Every span of a binding is made from the spans of elements and the brackets of forms: the name is an
atom, the scope starts where an element or a list ends and stops at a closing bracket. As elements
and brackets stay inside the text, so do bindings, whatever the form that introduces them.
-/

namespace LexScope

open Utf8

/-! ## Lambda lists -/

/-- The parameter is written in the text and becomes visible at a boundary. -/
structure Parameter.Sound (src : Source) (p : Parameter) : Prop where
  /-- The name fits. -/
  site : Fits src.bytes p.site
  /-- The parameter is visible from a boundary on. -/
  visibleFrom : Boundary src.bytes p.visibleFrom

namespace LambdaList

variable {src : Source} {destructuring : Bool}

/-- The parameters of some entries are sound if the entries are. -/
theorem sound_ofEntries {outer : Option Nat} (houter : ∀ v ∈ outer, Boundary src.bytes v)
    (part : ListPart) (nodes : List Node) (h : ∀ n ∈ nodes, n.Sound src) :
    ∀ p ∈ ofEntries src destructuring outer part nodes, p.Sound src := by
  intro p hp
  have hfrom : ∀ n ∈ nodes, Boundary src.bytes (outer.getD n.stop) := by
    intro n hn
    cases outer with
    | none => exact (h n hn).element.span.stop
    | some v => exact houter v rfl
  obtain ⟨n, ⟨hn, hvisible⟩, -, hp⟩ := (extracts_ofEntries outer part nodes).exists_atom
    (P := fun v n => n.Sound src ∧ Boundary src.bytes v)
    (fun v n hn m hm => ⟨hn.1.items m hm, hn.2⟩) (fun n hn => ⟨h n hn, hfrom n hn⟩) p hp
  refine ⟨?_, hvisible⟩
  rw [site_of_mem_parameterAt hp]
  exact hn.element.span

/-- The parameters of a lambda list are sound, wherever the list stands. -/
theorem sound_parse (hsrc : src.Sound) {opening : Nat} {parameters : List Parameter}
    (h : parse src opening destructuring = some parameters) : ∀ p ∈ parameters, p.Sound src := by
  obtain ⟨pair, hget, rfl⟩ := Option.map_eq_some_iff.1 h
  exact sound_ofEntries (by simp) .required _ (hsrc.items (PairIndex.mem_of_get? hget).1)

end LambdaList

/-! ## Entries -/

/-- All spans of the binding fit. -/
structure Binding.Sound (src : Source) (b : Binding) : Prop where
  /-- The name fits. -/
  site : Fits src.bytes b.site
  /-- The form fits. -/
  form : Fits src.bytes b.form
  /-- The scope fits. -/
  scope : ∀ s ∈ b.scope, Fits src.bytes s
  /-- The window of a `do` variable fits. -/
  stepWindow : ∀ s ∈ b.stepWindow, Fits src.bytes s

/-- All spans of the entry fit. -/
def Entry.Sound (src : Source) : Entry → Prop
  | .binding _ b => b.Sound src
  | .stepForm s => Fits src.bytes s

section Entries

variable {src : Source} {form : Pair}

private theorem Source.fits_nameAt {n : Node} {name : NameSite} (hn : n.Sound src)
    (h : src.nameAt n = some name) : Fits src.bytes name.site := by
  unfold Source.nameAt at h
  split at h
  · simp only at h
    split at h
    · rw [← Option.some.inj h]
      exact hn.element.span
    · cases h
  · cases h

private theorem sound_parametersAt {n : Node} (hn : n.Sound src) {destructuring : Bool}
    {parameters : List Parameter} (h : src.parametersAt n destructuring = some parameters) :
    ∀ p ∈ parameters, p.Sound src := by
  unfold Source.parametersAt at h
  split at h
  · split at h
    · cases h
    · rw [← Option.some.inj h]
      exact LambdaList.sound_ofEntries (by simp) .required _ hn.items
  · split at h
    · rw [← Option.some.inj h]
      simp
    · cases h
  · cases h

/-- The parameters of the lambda list that comes first are sound. -/
theorem sound_headParameters {operands : List Node} (h : ∀ n ∈ operands, n.Sound src)
    (destructuring : Bool) :
    ∀ p ∈ (operands.head?.bind (src.parametersAt · destructuring)).getD [], p.Sound src := by
  intro p hp
  cases hps : operands.head?.bind (src.parametersAt · destructuring) with
  | none => simp [hps] at hp
  | some ps =>
    rw [hps] at hp
    obtain ⟨n, hn, hps⟩ := Option.bind_eq_some_iff.1 hps
    exact sound_parametersAt (h n (List.mem_of_head? hn)) hps p hp

private theorem fits_scopeIn (hform : form.Sits src.bytes) {start : Nat}
    (hstart : Boundary src.bytes start) {scope : Span} (h : scopeIn form start = some scope) :
    Fits src.bytes scope := by
  unfold scopeIn at h
  split at h
  · next hle =>
    rw [← Option.some.inj h]
    exact .of_le hle hstart hform.boundary_closing
  · cases h

namespace Entry

private theorem sound_lexical (hform : form.Sits src.bytes) {span : Span}
    (hspan : Fits src.bytes span)
    {start : Nat} (hstart : Boundary src.bytes start) {name : NameSite}
    (hname : Fits src.bytes name.site) {c : Collection} {kind : BindingKind} {container : String} :
    ∀ e ∈ lexical c kind container form span start name, e.Sound src := by
  intro e he
  unfold lexical at he
  split at he
  · next scope hscope =>
    rw [List.mem_singleton.1 he]
    refine ⟨hname, hspan, ?_, by simp [Binding.lexical]⟩
    simpa [Binding.lexical] using fits_scopeIn hform hstart hscope
  · cases he

private theorem sound_parameters (hclean : Clean src.bytes) (hform : form.Sits src.bytes)
    {parameters : List Parameter} (hparameters : ∀ p ∈ parameters, p.Sound src)
    {c : Collection} {container : String} :
    ∀ e ∈ Entry.parameters c container form parameters, e.Sound src := by
  intro e he
  obtain ⟨p, hp, he⟩ := List.mem_flatMap.1 he
  exact sound_lexical hform (hform.fits_span hclean) (hparameters p hp).visibleFrom
    (hparameters p hp).site e he

end Entry

private theorem Node.Sound.sits_group {n : Node} (hn : n.Sound src) (hsrc : src.Sound) {p : Pair}
    (hp : n.element.group = some p) : p.Sits src.bytes := by
  exact hsrc.layout.pairs p (hn.element.group p (Element.kind_of_group hp)).1

end Entries

/-! ## Global definitions -/

namespace Definition

variable {src : Source} {form : Pair}

private theorem fits_packageName {n : Node} {name : NameSite} (hn : n.Sound src)
    (h : packageName src n = some name) : Fits src.bytes name.site := by
  unfold packageName at h
  simp only at h
  split at h
  · split at h
    · cases h
    · rw [← Option.some.inj h]
      exact hn.element.span
  · cases h

private theorem fits_groupName {d : Definer} {items : List Node} {name : NameSite}
    (hitems : ∀ n ∈ items, n.Sound src) (h : groupName src d items = some name) :
    Fits src.bytes name.site := by
  cases items with
  | nil => cases h
  | cons first rest =>
    obtain ⟨hfirst, hrest⟩ := List.forall_mem_cons.1 hitems
    have hsetf (hbind : (if src.isWord first "setf" then rest.head?.bind src.nameAt else none) =
        some name) : Fits src.bytes name.site := by
      split at hbind
      · obtain ⟨n, hn, hname⟩ := Option.bind_eq_some_iff.1 hbind
        exact Source.fits_nameAt (hrest n (List.mem_of_head? hn)) hname
      · cases hbind
    cases d with
    | function | genericFunction | method => exact hsetf h
    | structType | methodCombination => exact Source.fits_nameAt hfirst h
    | _ => cases h

private theorem fits_nameOf {d : Definer} {n : Node} {name : NameSite} (hn : n.Sound src)
    (h : nameOf src d n = some name) : Fits src.bytes name.site := by
  unfold nameOf at h
  split at h
  · cases h
  split at h
  · exact fits_groupName hn.items h
  · split at h
    · exact fits_packageName hn h
    · exact Source.fits_nameAt hn h
  · split at h
    · exact fits_packageName hn h
    · cases h

private theorem sound_parameters (hsrc : src.Sound) (hform : form.Sits src.bytes)
    {ps : Option (List Parameter)} (hps : ∀ p ∈ ps.getD [], p.Sound src) {name : String} :
    ∀ e ∈ parameters name form ps, e.Sound src :=
  Entry.sound_parameters hsrc.clean hform hps

private theorem sound_afterList (hsrc : src.Sound) (hform : form.Sits src.bytes) {list : Pair}
    (hlist : list.Sits src.bytes) {n : NameSite} (hn : Fits src.bytes n.site) {name : String} :
    ∀ e ∈ afterList name form list n, e.Sound src :=
  Entry.sound_lexical hform (hform.fits_span hsrc.clean) (hlist.boundary_after hsrc.clean) hn

private theorem sound_setfLists (hsrc : src.Sound) (hform : form.Sits src.bytes) {name : String}
    {operands : List Node} (h : ∀ n ∈ operands, n.Sound src) :
    ∀ e ∈ setfLists src name form operands, e.Sound src := by
  cases operands with
  | nil => simp [setfLists]
  | cons list rest =>
    obtain ⟨hlist, hrest⟩ := List.forall_mem_cons.1 h
    intro e he
    rw [setfLists] at he
    split at he
    · next _ ps _ hps =>
      rcases List.mem_append.1 he with he | he
      · exact sound_parameters hsrc hform (sound_parametersAt hlist hps) e he
      · split at he
        · next stores p hstores =>
          obtain ⟨n, hn, hgroup⟩ := Option.bind_eq_some_iff.1 hstores
          obtain ⟨q, hq, heq⟩ := Option.map_eq_some_iff.1 hgroup
          obtain ⟨rfl, rfl⟩ := Prod.mk.inj heq
          have hstore := hrest n (List.mem_of_head? hn)
          obtain ⟨site, hsite, he⟩ := List.mem_flatMap.1 he
          obtain ⟨m, hm, hname⟩ := List.mem_filterMap.1 hsite
          exact sound_afterList hsrc hform (hstore.sits_group hsrc hq)
            (Source.fits_nameAt (hstore.items m hm) hname) e he
        · cases he
    · cases he

private theorem sound_combinationOptions (hsrc : src.Sound) (hform : form.Sits src.bytes)
    {name : String} {operands : List Node} (h : ∀ n ∈ operands, n.Sound src) :
    ∀ e ∈ combinationOptions src name form operands, e.Sound src := by
  induction operands with
  | nil => simp [combinationOptions]
  | cons n rest ih =>
    obtain ⟨hn, hrest⟩ := List.forall_mem_cons.1 h
    intro e he
    rw [combinationOptions] at he
    split at he
    · next option head parts hkind hitems =>
      have hgroup : n.element.group = some option := by simp [Element.group, hkind]
      have hoption := hn.sits_group hsrc hgroup
      have hparts : ∀ m ∈ parts, m.Sound src := by
        intro m hm
        exact hn.items m (by rw [hitems]; exact List.mem_cons_of_mem _ hm)
      split at he
      · rcases List.mem_append.1 he with he | he
        · obtain ⟨p, hp, he⟩ := List.mem_flatMap.1 he
          have hsound := LambdaList.sound_ofEntries (by simp) .required _ hn.items p hp
          exact sound_afterList hsrc hform hoption hsound.site e he
        · exact ih hrest e he
      split at he
      · rcases List.mem_append.1 he with he | he
        · obtain ⟨site, hsite, he⟩ := List.mem_flatMap.1 he
          obtain ⟨m, hm, hname⟩ := Option.bind_eq_some_iff.1 (Option.mem_toList.1 hsite)
          exact sound_afterList hsrc hform hoption
            (Source.fits_nameAt (hparts m (List.mem_of_head? hm)) hname) e he
        · exact ih hrest e he
      · cases he
    · exact ih hrest e he

private theorem sound_combinationLists (hsrc : src.Sound) (hform : form.Sits src.bytes)
    {name : String}
    {operands : List Node} (h : ∀ n ∈ operands, n.Sound src) :
    ∀ e ∈ combinationLists src name form operands, e.Sound src := by
  cases operands with
  | nil => simp [combinationLists]
  | cons list rest =>
    obtain ⟨hlist, hrest⟩ := List.forall_mem_cons.1 h
    intro e he
    rw [combinationLists.eq_def] at he
    simp only at he
    split at he
    · next _ ps _ hps =>
      rcases List.mem_append.1 he with he | he
      · exact sound_parameters hsrc hform (sound_parametersAt hlist hps) e he
      · cases rest with
        | nil => cases he
        | cons groups options =>
          obtain ⟨hgroups, hoptions⟩ := List.forall_mem_cons.1 hrest
          simp only at he
          split at he
          · cases he
          · next p hp =>
            rcases List.mem_append.1 he with he | he
            · obtain ⟨site, hsite, he⟩ := List.mem_flatMap.1 he
              obtain ⟨spec, hspec, hsome⟩ := List.mem_filterMap.1 hsite
              split at hsome
              · obtain ⟨m, hm, hname⟩ := Option.bind_eq_some_iff.1 hsome
                have hm := (hgroups.items spec hspec).items m (List.mem_of_head? hm)
                exact sound_afterList hsrc hform (hgroups.sits_group hsrc hp)
                  (Source.fits_nameAt hm hname) e he
              · cases hsome
            · exact sound_combinationOptions hsrc hform hoptions e he
    · cases he

private theorem sound_lists (hsrc : src.Sound) (hform : form.Sits src.bytes) {d : Definer}
    {name : String}
    {operands : List Node} (h : ∀ n ∈ operands, n.Sound src) :
    ∀ e ∈ (lists src d name form operands).1, e.Sound src := by
  unfold lists
  split
  · exact sound_parameters hsrc hform (sound_headParameters h false)
  · exact sound_parameters hsrc hform (sound_headParameters h true)
  · apply sound_parameters hsrc hform
    apply sound_headParameters
    exact fun n hn => h n ((List.dropWhile_sublist _).subset hn)
  · split
    · exact sound_setfLists hsrc hform h
    · exact sound_combinationLists hsrc hform h
    · simp

private theorem sound_entries (hsrc : src.Sound) (hform : form.Sits src.bytes) {d : Definer}
    {operands : List Node} (h : ∀ n ∈ operands, n.Sound src) :
    ∀ e ∈ entries src form d operands, e.Sound src := by
  cases operands with
  | nil => simp [entries]
  | cons first rest =>
    obtain ⟨hfirst, hrest⟩ := List.forall_mem_cons.1 h
    intro e he
    rw [entries] at he
    split at he
    · cases he
    · next n hname =>
      rcases List.mem_append.1 he with he | he
      · exact sound_lists hsrc hform hrest e he
      · rw [List.mem_singleton.1 he]
        exact ⟨fits_nameOf hfirst hname, hform.fits_span hsrc.clean, by simp [Binding.global],
          by simp [Binding.global]⟩

end Definition

/-! ## Variables -/

namespace Variable

variable {src : Source} {form : Pair}

private theorem fits_of_mem_specs {list : Node} (hlist : list.Sound src) {spec : Spec}
    (h : spec ∈ specs src list) : Fits src.bytes spec.name.site ∧ spec.entry ∈ list.items := by
  obtain ⟨entry, hentry, hspec⟩ := List.mem_filterMap.1 h
  obtain ⟨name, hname, rfl⟩ := Option.map_eq_some_iff.1 hspec
  obtain ⟨n, hn, hname⟩ := Option.bind_eq_some_iff.1 hname
  refine ⟨?_, hentry⟩
  have hentrySound := hlist.items entry hentry
  split at hn
  · rw [← Option.some.inj hn] at hname
    exact Source.fits_nameAt hentrySound hname
  · split at hn
    · cases hn
    · exact Source.fits_nameAt (hentrySound.items n (List.mem_of_head? hn)) hname
  · cases hn

private theorem boundary_visibleFrom (hsrc : src.Sound) {list : Node} (hlist : list.Sound src)
    {p : Pair}
    (hp : p.Sits src.bytes) {spec : Spec} (h : spec.entry ∈ list.items) (sequential : Bool) :
    Boundary src.bytes (visibleFrom sequential p spec) := by
  unfold visibleFrom
  split
  · exact (hlist.items _ h).element.span.stop
  · exact hp.boundary_after hsrc.clean

private theorem sound_of_firstGroup (hsrc : src.Sound) {operands : List Node}
    (h : ∀ n ∈ operands, n.Sound src) {list : Node} {p : Pair}
    (hgroup : firstGroup operands = some (list, p)) :
    list.Sound src ∧ list.element.group = some p ∧ p.Sits src.bytes := by
  obtain ⟨n, hn, hmap⟩ := Option.bind_eq_some_iff.1 hgroup
  obtain ⟨q, hq, heq⟩ := Option.map_eq_some_iff.1 hmap
  obtain ⟨rfl, rfl⟩ := Prod.mk.inj heq
  have hsound := h n (List.mem_of_head? hn)
  exact ⟨hsound, hq, hsound.sits_group hsrc hq⟩

private theorem sound_letEntries (hsrc : src.Sound) (hform : form.Sits src.bytes) {keyword : String}
    {sequential : Bool} {kind : BindingKind} {operands : List Node}
    (h : ∀ n ∈ operands, n.Sound src) :
    ∀ e ∈ letEntries src form keyword sequential kind operands, e.Sound src := by
  intro e he
  unfold letEntries at he
  split at he
  · cases he
  · next list p hgroup =>
    obtain ⟨hlist, -, hp⟩ := sound_of_firstGroup hsrc h hgroup
    obtain ⟨spec, hspec, he⟩ := List.mem_flatMap.1 he
    obtain ⟨hname, hentry⟩ := fits_of_mem_specs hlist hspec
    exact Entry.sound_lexical hform (hform.fits_span hsrc.clean)
      (boundary_visibleFrom hsrc hlist hp hentry sequential) hname e he

/-- The list of a `do` form opens before its variables become visible. -/
theorem opening_le_visibleFrom {list : Node} (hlist : list.Sound src) {p : Pair}
    (hp : list.element.group = some p) (hsits : p.Sits src.bytes) {spec : Spec}
    (hentry : spec.entry ∈ list.items) (sequential : Bool) :
    p.opening ≤ visibleFrom sequential p spec := by
  unfold visibleFrom
  split
  · have hin := hlist.inside hp spec.entry hentry
    have hle := hin.outer.ordered
    have hpos := hin.pos_le
    simp only [Node.stop, Element.stop] at hle ⊢
    omega
  · have := hsits.lt
    omega

private theorem sound_doEntry (hsrc : src.Sound) (hform : form.Sits src.bytes) {keyword : String}
    {sequential : Bool} {list : Node} (hlist : list.Sound src) {p : Pair}
    (hp : list.element.group = some p) {spec : Spec} (hspec : spec ∈ specs src list) :
    ∀ e ∈ doEntry form keyword sequential p spec, e.Sound src := by
  have hsits := hlist.sits_group hsrc hp
  obtain ⟨hname, hentry⟩ := fits_of_mem_specs hlist hspec
  have hstart := boundary_visibleFrom hsrc hlist hsits hentry sequential
  intro e he
  unfold doEntry at he
  rcases List.mem_append.1 he with hstep | hbinding
  · split at hstep
    · obtain ⟨n, hn, rfl⟩ := List.mem_map.1 hstep
      have hn := List.mem_of_getElem? (Option.mem_toList.1 hn)
      exact ((hlist.items _ hentry).items n hn).element.span
    · cases hstep
  · split at hbinding
    · next scope hscope =>
      rw [List.mem_singleton.1 hbinding]
      refine ⟨hname, hform.fits_span hsrc.clean, ?_, ?_⟩
      · simpa [Binding.lexical] using fits_scopeIn hform hstart hscope
      · have hwindow : Fits src.bytes ⟨p.opening, visibleFrom sequential p spec⟩ :=
          .of_le (opening_le_visibleFrom hlist hp hsits hentry sequential)
            hsits.boundary_opening hstart
        simpa using hwindow
    · cases hbinding

private theorem sound_doEntries (hsrc : src.Sound) (hform : form.Sits src.bytes) {keyword : String}
    {sequential : Bool} {operands : List Node} (h : ∀ n ∈ operands, n.Sound src) :
    ∀ e ∈ doEntries src form keyword sequential operands, e.Sound src := by
  intro e he
  unfold doEntries at he
  split at he
  · cases he
  · next list p hgroup =>
    obtain ⟨hlist, hp, -⟩ := sound_of_firstGroup hsrc h hgroup
    obtain ⟨spec, hspec, he⟩ := List.mem_flatMap.1 he
    exact sound_doEntry hsrc hform hlist hp hspec e he

private theorem sound_lambdaEntries (hsrc : src.Sound) (hform : form.Sits src.bytes)
    {operands : List Node} (h : ∀ n ∈ operands, n.Sound src) :
    ∀ e ∈ lambdaEntries src form operands, e.Sound src :=
  Entry.sound_parameters hsrc.clean hform (sound_headParameters h false)

private theorem sound_valueEntries (hsrc : src.Sound) (hform : form.Sits src.bytes)
    {keyword : String}
    {destructuring : Bool} {operands : List Node} (h : ∀ n ∈ operands, n.Sound src) :
    ∀ e ∈ valueEntries src form keyword destructuring operands, e.Sound src := by
  intro e he
  unfold valueEntries at he
  split at he
  · next list value rest =>
    have hlist := h list (by simp)
    split at he
    · cases he
    · next p hp =>
      obtain ⟨param, hparam, he⟩ := List.mem_flatMap.1 he
      have hsound := LambdaList.sound_ofEntries (by simp) .required _ hlist.items param hparam
      exact Entry.sound_lexical hform (hform.fits_span hsrc.clean)
        ((hlist.sits_group hsrc hp).boundary_after hsrc.clean) hsound.site e he
  · cases he

private theorem sound_singleEntries (hsrc : src.Sound) (hform : form.Sits src.bytes)
    {keyword : String}
    {iterates : Bool} {kind : BindingKind} {operands : List Node}
    (h : ∀ n ∈ operands, n.Sound src) :
    ∀ e ∈ singleEntries src form keyword iterates kind operands, e.Sound src := by
  intro e he
  unfold singleEntries at he
  split at he
  · cases he
  · next spec p hgroup =>
    obtain ⟨hspec, -, hp⟩ := sound_of_firstGroup hsrc h hgroup
    split at he
    · cases he
    · next name hname =>
      obtain ⟨n, hn, hname⟩ := Option.bind_eq_some_iff.1 hname
      have hsite := Source.fits_nameAt (hspec.items n (List.mem_of_head? hn)) hname
      refine Entry.sound_lexical hform (hform.fits_span hsrc.clean) ?_ hsite e he
      split
      · next value hvalue =>
        split
        · exact (hspec.items value (List.mem_of_getElem? hvalue)).element.span.stop
        · exact hp.boundary_after hsrc.clean
      · exact hp.boundary_after hsrc.clean

end Variable

/-! ## Local functions -/

namespace LocalFunction

variable {src : Source} {form : Pair}

private theorem sound_definitionEntries (hsrc : src.Sound) (hform : form.Sits src.bytes)
    {keyword : String}
    {f : LocalFunctionForm} {list definition : Pair} (hlist : list.Sits src.bytes)
    (hdefinition : definition ∈ src.layout.pairs.pairs) :
    ∀ e ∈ definitionEntries src form keyword f list definition, e.Sound src := by
  have hitems := hsrc.items hdefinition
  have hsits := hsrc.layout.pairs definition hdefinition
  have hstart : Boundary src.bytes (visibleFrom f list) := by
    unfold visibleFrom
    split
    · exact hlist.boundary_opening
    · exact hlist.boundary_after hsrc.clean
  intro e he
  unfold definitionEntries at he
  split at he
  · cases he
  · next first rest heq =>
    rw [heq] at hitems
    obtain ⟨hfirst, hrest⟩ := List.forall_mem_cons.1 hitems
    split at he
    · cases he
    · next n hname =>
      rcases List.mem_append.1 he with hbound | hparameters
      · split at hbound
        · next scope hscope =>
          rw [List.mem_singleton.1 hbound]
          refine ⟨Source.fits_nameAt hfirst hname, hsits.fits_span hsrc.clean, ?_, ?_⟩
          · simpa [Binding.lexical] using fits_scopeIn hform hstart hscope
          · simp [Binding.lexical]
        · cases hbound
      · exact Entry.sound_parameters hsrc.clean hsits (sound_headParameters hrest _) e hparameters

private theorem sound_entries (hsrc : src.Sound) (hform : form.Sits src.bytes) {keyword : String}
    {f : LocalFunctionForm} {operands : List Node} (h : ∀ n ∈ operands, n.Sound src) :
    ∀ e ∈ entries src form keyword f operands, e.Sound src := by
  intro e he
  unfold entries at he
  split at he
  · cases he
  · next list hgroup =>
    obtain ⟨n, hn, hlist⟩ := Option.bind_eq_some_iff.1 hgroup
    obtain ⟨definition, hdefinition, he⟩ := List.mem_flatMap.1 he
    exact sound_definitionEntries hsrc hform
      ((h n (List.mem_of_head? hn)).sits_group hsrc hlist)
      (PairIndex.mem_of_mem_children hdefinition) e he

end LocalFunction

/-! ## Variables of `loop` -/

namespace Loop

variable {src : Source} {form : Pair}

private theorem sound_bindName (hsrc : src.Sound) (hform : form.Sits src.bytes) {kind : BindingKind}
    {name : NameSite} (hname : Fits src.bytes name.site) :
    ∀ e ∈ bindName form kind name, e.Sound src :=
  Entry.sound_lexical hform (hform.fits_span hsrc.clean) hname.stop hname

mutual

private theorem sound_bindTarget (hsrc : src.Sound) (hform : form.Sits src.bytes)
    {kind : BindingKind} :
    ∀ n : Node, n.Sound src → ∀ e ∈ bindTarget src form kind n, e.Sound src
  | .mk element items, h => by
    intro e he
    unfold bindTarget at he
    split at he
    · obtain ⟨name, hname, he⟩ := List.mem_flatMap.1 he
      exact sound_bindName hsrc hform (Source.fits_nameAt h (Option.mem_toList.1 hname)) e he
    · split at he
      · cases he
      · exact sound_bindTargets hsrc hform items h.items e he
    · cases he

private theorem sound_bindTargets (hsrc : src.Sound) (hform : form.Sits src.bytes)
    {kind : BindingKind} :
    ∀ nodes : List Node, (∀ n ∈ nodes, n.Sound src) →
      ∀ e ∈ bindTargets src form kind nodes, e.Sound src
  | [], _ => by simp [bindTargets]
  | n :: rest, h => by
    obtain ⟨hn, hrest⟩ := List.forall_mem_cons.1 h
    intro e he
    unfold bindTargets at he
    rcases List.mem_append.1 he with he | he
    · exact sound_bindTarget hsrc hform n hn e he
    · exact sound_bindTargets hsrc hform rest hrest e he

end

private theorem sound_clauses (hsrc : src.Sound) (hform : form.Sits src.bytes) {st : State}
    {nodes : List Node} (h : ∀ n ∈ nodes, n.Sound src) :
    ∀ e ∈ clauses src form st nodes, e.Sound src := by
  induction nodes generalizing st with
  | nil => simp [clauses]
  | cons n rest ih =>
    obtain ⟨hn, hrest⟩ := List.forall_mem_cons.1 h
    intro e he
    unfold clauses at he
    split at he
    case h_1 | h_2 =>
      rcases List.mem_append.1 he with he | he
      · exact sound_bindTarget hsrc hform n hn e he
      · exact ih hrest e he
    case h_3 =>
      rcases List.mem_append.1 he with he | he
      · split at he
        · obtain ⟨m, hm, he⟩ := List.mem_flatMap.1 he
          have hm := List.mem_of_getElem? (Option.mem_toList.1 hm)
          exact sound_bindTarget hsrc hform m (hn.items m hm) e he
        · cases he
      · exact ih hrest e he
    case h_4 => exact ih hrest e he

end Loop

/-! ## The table -/

/-- Whatever the form, its entries are sound. -/
theorem BindingForm.sound_entries {src : Source} (hsrc : src.Sound) {f : BindingForm}
    (hf : f.pair ∈ src.layout.pairs.pairs) : ∀ e ∈ f.entries src, e.Sound src := by
  have hform := hsrc.layout.pairs f.pair hf
  have hitems := hsrc.items hf
  unfold BindingForm.entries
  split
  · simp
  · next first operands heq =>
    rw [heq] at hitems
    obtain ⟨-, hoperands⟩ := List.forall_mem_cons.1 hitems
    split
    · exact Definition.sound_entries hsrc hform hoperands
    · exact Variable.sound_letEntries hsrc hform hoperands
    · exact Variable.sound_doEntries hsrc hform hoperands
    · exact Variable.sound_lambdaEntries hsrc hform hoperands
    · exact Variable.sound_valueEntries hsrc hform hoperands
    · exact Variable.sound_valueEntries hsrc hform hoperands
    · exact LocalFunction.sound_entries hsrc hform hoperands
    · exact Variable.sound_singleEntries hsrc hform hoperands
    · exact Loop.sound_clauses hsrc hform hoperands

/-- A binding form stands at a pair of its source. -/
theorem BindingForm.pair_mem_of_mem_all {src : Source} {excluded : SpanSet} {f : BindingForm}
    (h : f ∈ BindingForm.all src excluded) : f.pair ∈ src.layout.pairs.pairs := by
  obtain ⟨p, hp, hat⟩ := List.mem_filterMap.1 h
  have hpair : f.pair = p := by
    unfold BindingForm.at? at hat
    split at hat
    · cases hat
    · split at hat
      · obtain ⟨head, -, rfl⟩ := Option.map_eq_some_iff.1 hat
        rfl
      · cases hat
  rw [hpair]
  exact (List.mem_filter.1 hp).1

/-- All spans of the table fit. -/
structure Table.Sound (src : Source) (t : Table) : Prop where
  /-- Bindings are sound. -/
  bindings : ∀ c, ∀ b ∈ t.get c, b.Sound src
  /-- Step forms fit. -/
  steps : ∀ s ∈ t.steps, Fits src.bytes s

namespace Table.Sound

variable {src : Source} {t : Table}

private theorem empty (src : Source) : Table.Sound src {} := by
  constructor
  · intro c
    cases c <;> simp [Table.get]
  · simp

private theorem add (h : t.Sound src) {e : Entry} (he : e.Sound src) : (t.add e).Sound src := by
  cases e with
  | binding c b =>
    refine ⟨?_, ?_⟩
    · intro d
      by_cases hd : d = c
      · subst hd
        simp only [Table.add, get_insert_self, List.forall_mem_append, List.forall_mem_singleton]
        exact ⟨h.bindings d, he⟩
      · simpa only [Table.add, get_insert_of_ne t b hd] using h.bindings d
    · cases c <;> exact h.steps
  | stepForm s =>
    refine ⟨?_, ?_⟩
    · intro d
      simpa only [Table.add, get_insertStep] using h.bindings d
    · simp only [Table.add, insertStep, List.forall_mem_append, List.forall_mem_singleton]
      exact ⟨h.steps, he⟩

private theorem foldl_add (h : t.Sound src) {entries : List Entry}
    (hentries : ∀ e ∈ entries, e.Sound src) :
    (entries.foldl Table.add t).Sound src := by
  induction entries generalizing t with
  | nil => exact h
  | cons e rest ih =>
    obtain ⟨he, hrest⟩ := List.forall_mem_cons.1 hentries
    exact ih (h.add he) hrest

private theorem collectPass (hsrc : src.Sound) (h : t.Sound src) (excluded : SpanSet)
    (c : Category) :
    (t.collectPass src excluded (BindingForm.all src excluded) c).Sound src := by
  apply h.foldl_add
  intro e he
  obtain ⟨f, hf, he⟩ := List.mem_flatMap.1 (List.mem_filter.1 he).1
  have hpair := BindingForm.pair_mem_of_mem_all (List.mem_filter.1 hf).1
  exact BindingForm.sound_entries hsrc hpair e he

end Table.Sound

/-- The table of a sound document is sound. -/
theorem Table.sound_ofSource {src : Source} (hsrc : src.Sound) (mode : Mode) :
    (Table.ofSource src mode).Sound src := by
  unfold Table.ofSource
  generalize Category.all = passes
  have hempty := Table.Sound.empty src
  generalize ({} : Table) = t at hempty ⊢
  induction passes generalizing t with
  | nil => exact hempty
  | cons c rest ih => exact ih _ (hempty.collectPass hsrc _ c)

end LexScope
