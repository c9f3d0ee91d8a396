import LexScope.Proofs.Binding.Lookup
import LexScope.Proofs.Core.Scopes
import LexScope.Proofs.Core.Words

/-!
# What is collected from a program

Collecting goes through the brackets of a document in order. This file shows that for the brackets
of an expression it finds the local bindings of that expression and nothing else. Of a binding only
what resolution looks at is compared; its kind, its container and its documentation are left open.
-/

namespace LexScope

/-- The pass that fills a collection. -/
def Collection.category : Collection → Category
  | globalDefinition | globalParameter => .global
  | localDefinition | localParameter => .localFunction
  | anonymousVariable => .localBinding
  | singleVariable => .singleVariable
  | loopBinding => .loop

/-- What resolution sees of an entry. -/
inductive View where
  /-- A binding with its scope. -/
  | binding (c : Collection) (n : NameSite) (scope : Option Span)
  /-- A step form. -/
  | step
  deriving DecidableEq

/-- What resolution sees of an entry. -/
def Entry.view : Entry → View
  | .binding c b => .binding c ⟨b.name, b.site⟩ b.scope
  | .stepForm _ => .step

/-- The pass in which an entry is found; step forms belong to variables. -/
def View.category : View → Category
  | binding c _ _ => c.category
  | step => .localBinding

namespace Core

/-- A local binding as resolution sees it. -/
def Local.view (l : Local) : View := .binding l.collection l.name (some l.scope)

variable {src : Source} {pos : Nat} {c : Category} {p : Pair}

private theorem views_entriesAt_of_none (h : BindingForm.at? src p = none) :
    (src.entriesAt c p).map Entry.view = [] := by
  simp [Source.entriesAt, h]

/-- A form is collected in its own pass. -/
theorem views_entriesAt {f : BindingForm} {views : List View} (h : BindingForm.at? src p = some f)
    (hviews : (f.entries src).map Entry.view = views)
    (hcategory : ∀ v ∈ views, v.category = f.head.category) :
    (src.entriesAt c p).map Entry.view = views.filter (·.category == c) := by
  rw [Source.entriesAt, h, Option.toList_some]
  by_cases hc : f.head.category = c
  · rw [List.filter_cons_of_pos (by simpa using hc), List.filter_nil, List.flatMap_singleton,
      hviews, List.filter_eq_self.2]
    intro v hv
    simpa [hcategory v hv] using hc
  · rw [List.filter_cons_of_neg (by simpa using hc), List.filter_nil, List.flatMap_nil,
      List.map_nil, List.filter_eq_nil_iff.2]
    intro v hv
    simpa [hcategory v hv] using hc

/-! ## The entries of one form -/

private theorem views_lexical {d : Collection} {kind : BindingKind} {container : String}
    {form : Pair}
    {span : Span} {start : Nat} {n : NameSite} (h : start ≤ form.closing) :
    (Entry.lexical d kind container form span start n).map Entry.view =
      [.binding d n (some ⟨start, form.closing⟩)] := by
  simp [Entry.lexical, scopeIn, h, Entry.view, Binding.lexical]

private theorem views_parameters {d : Collection} {container : String} {form : Pair}
    (xs : List Ident)
    (h : pos + Sexp.tailWidth (nameItems xs) ≤ form.closing + 1) :
    (Entry.parameters d container form (parameterList pos xs)).map Entry.view =
      (parameters d form.closing pos xs).map Local.view := by
  induction xs generalizing pos with
  | nil => rfl
  | cons x rest ih =>
    have hwidth : Sexp.tailWidth (nameItems (x :: rest)) =
        1 + x.size + Sexp.tailWidth (nameItems rest) := rfl
    rw [parameterList, Entry.parameters, List.flatMap_cons, List.map_append,
      views_lexical (by simp only; omega), parameters, List.map_cons, ← ih (by omega)]
    rfl

private theorem head?_items_node {s : Sexp} {rest : List Sexp}
    (h : Sexp.At src pos (.list (s :: rest))) :
    (src.node ((Sexp.list (s :: rest)).element pos)).items.head? =
      some (src.node (s.element (pos + 1))) := by
  rw [h.items_node, Sexp.place, List.map_cons, List.head?_cons]

/-- The variable of an entry `(x e)`. -/
theorem specs_cons {x : Ident} {value : Sexp} {e : Element} {nodes : List Node}
    (h : Sexp.At src pos (.list [.word x.word, value])) :
    Variable.specs src (.mk e (src.node ((Sexp.list [.word x.word, value]).element pos) :: nodes)) =
      ⟨x.site (pos + 1), src.node ((Sexp.list [.word x.word, value]).element pos)⟩ ::
        Variable.specs src (.mk e nodes) := by
  have hx : Sexp.At src (pos + 1) (.word x.word) := h.inner (pos + 1, _) List.mem_cons_self
  have hkind : (src.node ((Sexp.list [.word x.word, value]).element pos)).element.kind =
      .group ((Sexp.list [.word x.word, value]).pairAt pos) := rfl
  have hquoted : (src.node ((Sexp.list [.word x.word, value]).element pos)).quoted = false := rfl
  have hitems (nodes : List Node) : (Node.mk e nodes).items = nodes := rfl
  rw [Variable.specs, hitems, List.filterMap_cons]
  simp only [hkind, hquoted, Bool.false_eq_true, if_false, head?_items_node h, Option.bind_some,
    nameAt_ident hx, Option.map_some]
  rfl

private theorem views_specs {sequential : Bool} {kind : BindingKind} {keyword : String}
    {form list : Pair}
    {span : Span} (e : Element) (pos : Nat) : ∀ specs : Specs,
    (∀ x ∈ Sexp.place pos specs.items, Sexp.At src x.1 x.2) →
      pos + Sexp.tailWidth specs.items ≤ list.closing + 1 → list.closing + 1 ≤ form.closing →
      ((Variable.specs src (.mk e ((Sexp.place pos specs.items).map fun x =>
        src.node (x.2.element x.1)))).flatMap fun spec =>
          Entry.lexical .anonymousVariable kind keyword form span
            (Variable.visibleFrom sequential list spec) spec.name).map Entry.view =
        (specs.variables sequential (list.closing + 1) form.closing pos).map Local.view
  | .nil, _, _, _ => rfl
  | .cons x value rest, h, hlist, hform => by
    rw [Specs.items, Sexp.place] at h
    rw [Specs.items, Sexp.tailWidth] at hlist
    obtain ⟨hx, hrest⟩ := List.forall_mem_cons.1 h
    have hstop : (src.node ((Sexp.list [.word x.word, value.sexp]).element pos)).stop =
      pos + (Sexp.list [.word x.word, value.sexp]).size := rfl
    have hvisible : Variable.visibleFrom sequential list
        ⟨x.site (pos + 1), src.node ((Sexp.list [.word x.word, value.sexp]).element pos)⟩ =
          if sequential then pos + (Sexp.list [.word x.word, value.sexp]).size
          else list.closing + 1 := rfl
    have hle : (if sequential then pos + (Sexp.list [.word x.word, value.sexp]).size
        else list.closing + 1) ≤ form.closing := by
      split <;> omega
    rw [Specs.items, Sexp.place, List.map_cons, specs_cons hx, List.flatMap_cons, List.map_append,
      hvisible, views_lexical hle, views_specs e _ rest hrest (by omega) hform, Specs.variables]
    rfl

/-- Lists whose items are lists are no binding forms. -/
theorem Specs.at?_items {specs : Specs} (h : Sexp.At src pos (.list specs.items)) :
    BindingForm.at? src ((Sexp.list specs.items).pairAt pos) = none := by
  refine BindingForm.at?_list h fun s hs => ?_
  cases specs with
  | nil => cases hs
  | cons x value rest =>
    rw [Specs.items, List.head?_cons, Option.mem_some_iff] at hs
    exact ⟨_, hs.symm⟩

private theorem Defs.at?_items {defs : Defs} (h : Sexp.At src pos (.list defs.items)) :
    BindingForm.at? src ((Sexp.list defs.items).pairAt pos) = none := by
  refine BindingForm.at?_list h fun s hs => ?_
  cases defs with
  | nil => cases hs
  | cons f params body rest =>
    rw [Defs.items, List.head?_cons, Option.mem_some_iff] at hs
    exact ⟨_, hs.symm⟩

section Form

variable {head : Word} {list body : List Sexp}

private theorem items_form (h : Sexp.At src pos (form head list body)) :
    src.items ((form head list body).pairAt pos) =
      src.node ((Sexp.word head).element (pos + 1)) ::
        src.node ((Sexp.list list).element (listAt head pos)) ::
          (Sexp.place (bodyAt head list pos) body).map fun x => src.node (x.2.element x.1) :=
  h.items_pairAt

private theorem at_list_of_form (h : Sexp.At src pos (form head list body)) :
    Sexp.At src (listAt head pos) (.list list) :=
  h.inner (listAt head pos, _) (List.mem_cons_of_mem _ List.mem_cons_self)

private theorem at_body_of_form (h : Sexp.At src pos (form head list body)) :
    ∀ x ∈ Sexp.place (bodyAt head list pos) body, Sexp.At src x.1 x.2 := fun x hx =>
  h.inner x (List.mem_cons_of_mem _ (List.mem_cons_of_mem _ hx))

private theorem closing_form (head : Word) (list body : List Sexp) (pos : Nat) :
    ((form head list body).pairAt pos).closing = pos + (form head list body).size - 1 := rfl

private theorem closing_list (list : List Sexp) (pos : Nat) :
    ((Sexp.list list).pairAt pos).closing + 1 = pos + (Sexp.list list).size := by
  have := Sexp.one_le_size (.list list)
  simp only [Sexp.pairAt]
  omega

end Form

private theorem views_letEntries {sequential : Bool} {kind : BindingKind} {keyword : String}
    {form : Pair}
    {specs : Specs} {nodes : List Node} (h : Sexp.At src pos (.list specs.items))
    (hform : pos + (Sexp.list specs.items).size ≤ form.closing) :
    (Variable.letEntries src form keyword sequential kind
      (src.node ((Sexp.list specs.items).element pos) :: nodes)).map Entry.view =
        (specs.variables sequential (pos + (Sexp.list specs.items).size) form.closing
          (pos + 1)).map Local.view := by
  have hclosing := closing_list specs.items pos
  have hlist := tailWidth_le specs.items
  have hnode : src.node ((Sexp.list specs.items).element pos) =
      .mk ((Sexp.list specs.items).element pos)
        ((Sexp.place (pos + 1) specs.items).map fun x => src.node (x.2.element x.1)) :=
    congrArg (Node.mk _) h.items_node
  have hgroup : Variable.firstGroup (src.node ((Sexp.list specs.items).element pos) :: nodes) =
      some (src.node ((Sexp.list specs.items).element pos),
        (Sexp.list specs.items).pairAt pos) := rfl
  rw [Variable.letEntries, hgroup]
  simp only
  rw [hnode, views_specs _ _ specs h.inner (by omega) (by omega), hclosing]

/-- The entries of a form with variables. -/
theorem views_variables {sequential : Bool} {specs : Specs} {body : Body}
    (h : Sexp.At src pos (form (Keyword.variables sequential).word specs.items body.items)) :
    (BindingForm.entries src
      ⟨(form (Keyword.variables sequential).word specs.items body.items).pairAt pos,
        (Keyword.variables sequential).head⟩).map Entry.view =
      (specs.variables sequential
        (listAt (Keyword.variables sequential).word pos + (Sexp.list specs.items).size)
        (pos + (form (Keyword.variables sequential).word specs.items body.items).size - 1)
        (listAt (Keyword.variables sequential).word pos + 1)).map Local.view := by
  have hhead : (Keyword.variables sequential).head = .letLike sequential .localVariable := by
    cases sequential <;> rfl
  generalize (Keyword.variables sequential).word = head at h ⊢
  obtain ⟨hlistAt, hbodyAt, hlist, hend⟩ := form_bounds head specs.items body.items pos
  have hclosing := closing_form head specs.items body.items pos
  have hfits : listAt head pos + (Sexp.list specs.items).size ≤
      ((form head specs.items body.items).pairAt pos).closing := by omega
  rw [hhead, BindingForm.entries, items_form h]
  exact views_letEntries (at_list_of_form h) hfits

/-- The entries of a function without a name. -/
theorem views_lambda {params : List Ident} {body : Body}
    (h : Sexp.At src pos (form Keyword.lambda.word (nameItems params) body.items)) :
    (BindingForm.entries src
      ⟨(form Keyword.lambda.word (nameItems params) body.items).pairAt pos,
        Keyword.lambda.head⟩).map Entry.view =
      (parameters .anonymousVariable
        (pos + (form Keyword.lambda.word (nameItems params) body.items).size - 1)
        (listAt Keyword.lambda.word pos + 1) params).map Local.view := by
  have hhead : Keyword.lambda.head = .lambda := rfl
  generalize Keyword.lambda.word = head at h ⊢
  obtain ⟨hlistAt, hbodyAt, hlist, hend⟩ := form_bounds head (nameItems params) body.items pos
  have hclosing := closing_form head (nameItems params) body.items pos
  rw [hhead, BindingForm.entries, items_form h]
  simp only [Variable.lambdaEntries, List.head?_cons, Option.bind_some]
  rw [parametersAt_nameItems (at_list_of_form h), Option.getD_some,
    views_parameters params (by omega), hclosing]

/-- The entries of a loop. -/
theorem views_dolist {x : Ident} {values : Expr} {body : Body}
    (h : Sexp.At src pos (form Keyword.dolist.word [.word x.word, values.sexp] body.items)) :
    (BindingForm.entries src
      ⟨(form Keyword.dolist.word [.word x.word, values.sexp] body.items).pairAt pos,
        Keyword.dolist.head⟩).map Entry.view =
      [⟨.singleVariable, x.site (listAt Keyword.dolist.word pos + 1),
        ⟨listAt Keyword.dolist.word pos + 1 + x.size + 1 + values.sexp.size,
          pos + (form Keyword.dolist.word [.word x.word, values.sexp] body.items).size - 1⟩⟩].map
            Local.view := by
  have hhead : Keyword.dolist.head = .singleVariable true .localVariable := rfl
  generalize Keyword.dolist.word = head at h ⊢
  obtain ⟨hlistAt, hbodyAt, -, hend⟩ := form_bounds head [.word x.word, values.sexp] body.items pos
  have hsize := size_entry x values.sexp
  have hclosing := closing_form head [.word x.word, values.sexp] body.items pos
  have hlist := at_list_of_form h
  have hx : Sexp.At src (listAt head pos + 1) (.word x.word) :=
    hlist.inner (_, _) List.mem_cons_self
  have hvalue : (src.node ((Sexp.list [.word x.word, values.sexp]).element
      (listAt head pos))).items[1]? =
        some (src.node (values.sexp.element (listAt head pos + 1 + x.size + 1))) := by
    rw [hlist.items_node]
    rfl
  have hstop : (src.node (values.sexp.element (listAt head pos + 1 + x.size + 1))).stop =
      listAt head pos + 1 + x.size + 1 + values.sexp.size := rfl
  have hfits : listAt head pos + 1 + x.size + 1 + values.sexp.size ≤
      ((form head [.word x.word, values.sexp] body.items).pairAt pos).closing := by omega
  rw [hhead, BindingForm.entries, items_form h]
  have hgroup (nodes : List Node) : Variable.firstGroup
      (src.node ((Sexp.list [.word x.word, values.sexp]).element (listAt head pos)) :: nodes) =
        some (src.node ((Sexp.list [.word x.word, values.sexp]).element (listAt head pos)),
          (Sexp.list [.word x.word, values.sexp]).pairAt (listAt head pos)) := rfl
  simp only [Variable.singleEntries, hgroup]
  rw [head?_items_node hlist, Option.bind_some, nameAt_ident hx]
  simp only [hvalue, if_true, hstop]
  rw [views_lexical hfits, hclosing]
  rfl

/-- The entries of one local function. -/
theorem views_definition {f : Ident} {params : List Ident} {body : Body} {outer list : Pair}
    {keyword : String} {recursive : Bool}
    (h : Sexp.At src pos (form f.word (nameItems params) body.items))
    (houter : LocalFunction.visibleFrom (if recursive then .labels else .flet) list ≤
      outer.closing) :
    (LocalFunction.definitionEntries src outer keyword (if recursive then .labels else .flet) list
      ((form f.word (nameItems params) body.items).pairAt pos)).map Entry.view =
        Local.view ⟨.localDefinition, f.site (pos + 1),
          ⟨LocalFunction.visibleFrom (if recursive then .labels else .flet) list, outer.closing⟩⟩ ::
        (parameters .localParameter
          (pos + (form f.word (nameItems params) body.items).size - 1)
          (listAt f.word pos + 1) params).map Local.view := by
  obtain ⟨hlistAt, hbodyAt, hlist, hend⟩ := form_bounds f.word (nameItems params) body.items pos
  have hclosing := closing_form f.word (nameItems params) body.items pos
  have hf : Sexp.At src (pos + 1) (.word f.word) := h.inner (_, _) List.mem_cons_self
  have hmacro : ((if recursive then LocalFunctionForm.labels else .flet) == .macrolet) = false := by
    cases recursive <;> rfl
  rw [LocalFunction.definitionEntries, items_form h]
  simp only [nameAt_ident hf, List.head?_cons, Option.bind_some, hmacro, scopeIn, houter, if_true]
  rw [parametersAt_nameItems (at_list_of_form h), Option.getD_some, List.map_append,
    views_parameters params (by omega), hclosing]
  rfl

private theorem views_definitions {outer list : Pair} {keyword : String} {recursive : Bool}
    (houter : LocalFunction.visibleFrom (if recursive then .labels else .flet) list ≤ outer.closing)
    (pos : Nat) : ∀ defs : Defs, (∀ x ∈ Sexp.place pos defs.items, Sexp.At src x.1 x.2) →
      (((Sexp.place pos defs.items).filterMap fun x => x.2.group? x.1).flatMap
        (LocalFunction.definitionEntries src outer keyword (if recursive then .labels else .flet)
          list)).map Entry.view =
        (defs.functionsAndParameters
          (LocalFunction.visibleFrom (if recursive then .labels else .flet) list) outer.closing
          pos).map Local.view
  | .nil, _ => rfl
  | .cons f params body rest, h => by
    rw [Defs.items, Sexp.place] at h
    obtain ⟨hf, hrest⟩ := List.forall_mem_cons.1 h
    have hgroup : (form f.word (nameItems params) body.items).group? pos =
      some ((form f.word (nameItems params) body.items).pairAt pos) := rfl
    rw [Defs.items, Sexp.place, List.filterMap_cons, hgroup]
    simp only [List.flatMap_cons, List.map_append]
    rw [views_definition hf houter, views_definitions houter _ rest hrest,
      Defs.functionsAndParameters, List.map_cons, List.map_append]
    rfl

/-- The entries of a form with local functions. -/
theorem views_functions {recursive : Bool} {defs : Defs} {body : Body}
    (h : Sexp.At src pos (form (Keyword.functions recursive).word defs.items body.items)) :
    (BindingForm.entries src
      ⟨(form (Keyword.functions recursive).word defs.items body.items).pairAt pos,
        (Keyword.functions recursive).head⟩).map Entry.view =
      (defs.functionsAndParameters
        (if recursive then listAt (Keyword.functions recursive).word pos
          else listAt (Keyword.functions recursive).word pos + (Sexp.list defs.items).size)
        (pos + (form (Keyword.functions recursive).word defs.items body.items).size - 1)
        (listAt (Keyword.functions recursive).word pos + 1)).map Local.view := by
  have hhead : (Keyword.functions recursive).head =
      .localFunctions (if recursive then .labels else .flet) := by
    cases recursive <;> rfl
  generalize (Keyword.functions recursive).word = head at h ⊢
  obtain ⟨hlistAt, hbodyAt, hlist, hend⟩ := form_bounds head defs.items body.items pos
  have hclosing := closing_form head defs.items body.items pos
  have hinner := at_list_of_form h
  have hstart : LocalFunction.visibleFrom (if recursive then .labels else .flet)
      ((Sexp.list defs.items).pairAt (listAt head pos)) =
        if recursive then listAt head pos else listAt head pos + (Sexp.list defs.items).size := by
    cases recursive
    · exact closing_list defs.items (listAt head pos)
    · rfl
  have houter : LocalFunction.visibleFrom (if recursive then .labels else .flet)
      ((Sexp.list defs.items).pairAt (listAt head pos)) ≤
        ((form head defs.items body.items).pairAt pos).closing := by
    rw [hstart]
    split <;> omega
  have hgroup (nodes : List Node) :
      ((src.node ((Sexp.list defs.items).element (listAt head pos)) :: nodes).head?.bind
        fun n => n.element.group) = some ((Sexp.list defs.items).pairAt (listAt head pos)) := rfl
  rw [hhead, BindingForm.entries, items_form h]
  simp only [LocalFunction.entries, hgroup]
  rw [hinner.children, views_definitions houter _ defs hinner.inner, hstart, hclosing]

private theorem nameOf_ident (d : Definer) {x : Ident} (hd : (d == .package) = false)
    (h : Sexp.At src pos (.word x.word)) :
    Definition.nameOf src d (src.node ((Sexp.word x.word).element pos)) = some (x.site pos) := by
  have hquoted : (src.node ((Sexp.word x.word).element pos)).quoted = false := rfl
  have hkind : (src.node ((Sexp.word x.word).element pos)).element.kind = .atom := rfl
  simp only [Definition.nameOf, hquoted, hkind, hd, Bool.false_eq_true, if_false]
  exact nameAt_ident h

/-- The entries of a global function. -/
theorem views_defun {f : Ident} {params : List Ident} {body : Body}
    (h : Sexp.At src pos (Top.defun f params body).sexp) :
    (BindingForm.entries src ⟨(Top.defun f params body).sexp.pairAt pos,
      Keyword.defun.head⟩).map Entry.view =
      (parameters .globalParameter (pos + (Top.defun f params body).sexp.size - 1)
        (listAt Keyword.defun.word pos + f.size + 1 + 1) params).map Local.view ++
          [.binding .globalDefinition (f.site (listAt Keyword.defun.word pos)) none] := by
  have hsize := size_defun f params body
  have hlist := tailWidth_le (nameItems params)
  have hlistAt : listAt Keyword.defun.word pos =
    pos + 1 + (Sexp.word Keyword.defun.word).size + 1 := rfl
  have hclosing : ((Top.defun f params body).sexp.pairAt pos).closing =
    pos + (Top.defun f params body).sexp.size - 1 := rfl
  have hf : Sexp.At src (listAt Keyword.defun.word pos) (.word f.word) :=
    h.inner (_, _) (List.mem_cons_of_mem _ List.mem_cons_self)
  have hparams : Sexp.At src (listAt Keyword.defun.word pos + f.size + 1)
      (.list (nameItems params)) :=
    h.inner (_, _) (List.mem_cons_of_mem _ (List.mem_cons_of_mem _ List.mem_cons_self))
  have hitems : src.items ((Top.defun f params body).sexp.pairAt pos) =
      src.node ((Sexp.word Keyword.defun.word).element (pos + 1)) ::
        src.node ((Sexp.word f.word).element (listAt Keyword.defun.word pos)) ::
          src.node ((Sexp.list (nameItems params)).element
            (listAt Keyword.defun.word pos + f.size + 1)) ::
            (Sexp.place (listAt Keyword.defun.word pos + f.size + 1 +
              (Sexp.list (nameItems params)).size + 1) body.items).map fun x =>
                src.node (x.2.element x.1) := h.items_pairAt
  have hhead : Keyword.defun.head = .global .function := rfl
  rw [BindingForm.entries, hitems]
  simp only [hhead, Definition.entries, nameOf_ident .function rfl hf, Definition.lists,
    Definer.lambdaList, List.head?_cons, Option.bind_some]
  rw [parametersAt_nameItems hparams, List.map_append, Definition.parameters, Option.getD_some,
    views_parameters params (by omega), hclosing]
  rfl

/-- The entries of a global variable. -/
theorem views_defvar {x : Ident} {value : Expr}
    (h : Sexp.At src pos (Top.defvar x value).sexp) :
    (BindingForm.entries src ⟨(Top.defvar x value).sexp.pairAt pos,
      Keyword.defvar.head⟩).map Entry.view =
        [.binding .globalDefinition (x.site (listAt Keyword.defvar.word pos)) none] := by
  have hx : Sexp.At src (listAt Keyword.defvar.word pos) (.word x.word) :=
    h.inner (_, _) (List.mem_cons_of_mem _ List.mem_cons_self)
  have hitems : src.items ((Top.defvar x value).sexp.pairAt pos) =
      src.node ((Sexp.word Keyword.defvar.word).element (pos + 1)) ::
        src.node ((Sexp.word x.word).element (listAt Keyword.defvar.word pos)) ::
          [src.node (value.sexp.element (listAt Keyword.defvar.word pos + x.size + 1))] :=
    h.items_pairAt
  have hhead : Keyword.defvar.head = .global .specialVariable := rfl
  rw [BindingForm.entries, hitems]
  simp only [hhead, Definition.entries, nameOf_ident .specialVariable rfl hx, Definition.lists,
    Definer.lambdaList]
  rfl

/-! ## All forms of an expression -/

/-- What the pass over a category finds at pairs. -/
def found (src : Source) (c : Category) (pairs : List Pair) : List View :=
  (pairs.flatMap (src.entriesAt c)).map Entry.view

/-- The local bindings that the pass over a category should find. -/
def expected (c : Category) (ls : List Local) : List View :=
  (ls.map Local.view).filter (·.category == c)

private theorem found_append (a b : List Pair) :
    found src c (a ++ b) = found src c a ++ found src c b := by
  rw [found, List.flatMap_append, List.map_append, found, found]

private theorem found_cons_of_none {pairs : List Pair} (h : BindingForm.at? src p = none) :
    found src c (p :: pairs) = found src c pairs := by
  rw [found, List.flatMap_cons, List.map_append, views_entriesAt_of_none h, List.nil_append, found]

private theorem expected_append (a b : List Local) :
    expected c (a ++ b) = expected c a ++ expected c b := by
  rw [expected, List.map_append, List.filter_append, expected, expected]

/-- What is found at a form comes before what is found at later pairs. -/
theorem found_cons {f : BindingForm} {views : List View} {pairs : List Pair}
    (h : BindingForm.at? src p = some f) (hviews : (f.entries src).map Entry.view = views)
    (hcategory : ∀ v ∈ views, v.category = f.head.category) :
    found src c (p :: pairs) = views.filter (·.category == c) ++ found src c pairs := by
  rw [found, List.flatMap_cons, List.map_append, views_entriesAt h hviews hcategory, found]

private theorem pairs_form (head : Word) (list body : List Sexp) (pos : Nat) :
    (form head list body).pairs pos = (form head list body).pairAt pos ::
      (Sexp.list list).pairAt (listAt head pos) ::
        (Sexp.pairsFrom (listAt head pos + 1) list ++
          Sexp.pairsFrom (bodyAt head list pos) body) := by
  rw [form, Sexp.pairs_list, Sexp.pairsFrom_cons, Sexp.pairs_word, Sexp.pairsFrom_cons,
    Sexp.pairs_list]
  rfl

/-- What is found at a form: its own bindings, then those of its parts. -/
theorem found_form {k : Keyword} {list body : List Sexp} {ls : List Local}
    (h : Sexp.At src pos (form k.word list body))
    (hviews : (BindingForm.entries src
      ⟨(form k.word list body).pairAt pos, k.head⟩).map Entry.view = ls.map Local.view)
    (hcategory : ∀ l ∈ ls, l.collection.category = k.head.category)
    (hlist : BindingForm.at? src ((Sexp.list list).pairAt (listAt k.word pos)) = none) :
    found src c ((form k.word list body).pairs pos) = expected c ls ++
      (found src c (Sexp.pairsFrom (listAt k.word pos + 1) list) ++
        found src c (Sexp.pairsFrom (bodyAt k.word list pos) body)) := by
  have hform : BindingForm.at? src ((form k.word list body).pairAt pos) =
    some ⟨(form k.word list body).pairAt pos, k.head⟩ := at?_keyword h
  rw [pairs_form, found_cons hform hviews (List.forall_mem_map.2 hcategory),
    found_cons_of_none hlist, found_append, expected]

private theorem pairsFrom_nameItems (xs : List Ident) (pos : Nat) :
    Sexp.pairsFrom pos (nameItems xs) = [] := by
  induction xs generalizing pos with
  | nil => rfl
  | cons x rest ih => exact (Sexp.pairsFrom_cons ..).trans (ih _)

private theorem pairsFrom_entry (x : Ident) (value : Sexp) (pos : Nat) :
    Sexp.pairsFrom pos [.word x.word, value] = value.pairs (pos + x.size + 1) := by
  rw [Sexp.pairsFrom_cons, Sexp.pairs_word, List.nil_append, Sexp.pairsFrom_cons, Sexp.pairsFrom,
    Sexp.place, List.flatMap_nil, List.append_nil]
  rfl

mutual

/-- Collecting finds the local bindings of an expression. -/
theorem Expr.found_pairs (c : Category) (pos : Nat) : ∀ e : Expr, Sexp.At src pos e.sexp →
    found src c (e.sexp.pairs pos) = expected c (e.locals pos)
  | .number n, _ => by
    rw [Expr.sexp, Sexp.pairs_number, Expr.locals]
    rfl
  | .name x, _ => by
    rw [Expr.sexp, Sexp.pairs_word, Expr.locals]
    rfl
  | .call f args, h => by
    rw [Expr.sexp] at h
    have hargs : ∀ x ∈ Sexp.place (pos + 1 + f.size + 1) args.items, Sexp.At src x.1 x.2 :=
      fun x hx => h.inner x (List.mem_cons_of_mem _ hx)
    rw [Expr.sexp, Sexp.pairs_list, found_cons_of_none (at?_ident h), Sexp.pairsFrom_cons,
      Sexp.pairs_word, List.nil_append, Expr.locals]
    exact args.found_pairs c _ hargs
  | .variables sequential specs body, h => by
    rw [Expr.sexp] at h
    have hlist := at_list_of_form h
    have hhead : (Keyword.variables sequential).head.category = .localBinding := by
      cases sequential <;> rfl
    have hform := found_form (c := c) h (views_variables h) (fun l hl => by
      rw [(bounds_of_mem_variables _ specs hl).1, hhead]
      rfl) (Specs.at?_items hlist)
    rw [Expr.sexp, hform, specs.found_pairs c _ hlist.inner,
      body.found_pairs c _ (at_body_of_form h), Expr.locals, expected_append, expected_append]
  | .lambda params body, h => by
    rw [Expr.sexp] at h
    have hform := found_form (c := c) h (views_lambda h) (fun l hl => by
      rw [(bounds_of_mem_parameters hl).1]
      rfl) (at?_nameItems (at_list_of_form h))
    rw [Expr.sexp, hform, pairsFrom_nameItems, body.found_pairs c _ (at_body_of_form h),
      Expr.locals, expected_append]
    rfl
  | .functions recursive defs body, h => by
    rw [Expr.sexp] at h
    have hlist := at_list_of_form h
    have hhead : (Keyword.functions recursive).head.category = .localFunction := by
      cases recursive <;> rfl
    have hform := found_form (c := c) h (views_functions h) (fun l hl => by
      rw [hhead]
      rcases mem_functionsAndParameters.1 hl with hl | hl
      · rw [(bounds_of_mem_functions _ defs hl).1]
        rfl
      · rw [(within_of_mem_defParameters _ defs hl).1]
        rfl) (Defs.at?_items hlist)
    rw [Expr.sexp, hform, defs.found_pairs c _ hlist.inner,
      body.found_pairs c _ (at_body_of_form h), Expr.locals, expected_append, expected_append]
  | .dolist x values body, h => by
    rw [Expr.sexp] at h
    have hlist := at_list_of_form h
    have hvalues : Sexp.At src (listAt Keyword.dolist.word pos + 1 + x.size + 1) values.sexp :=
      hlist.inner (_, _) (List.mem_cons_of_mem _ List.mem_cons_self)
    have hform := found_form (c := c) h (views_dolist h) (List.forall_mem_singleton.2 rfl)
      (at?_ident hlist)
    rw [Expr.sexp, hform, pairsFrom_entry, values.found_pairs c _ hvalues,
      body.found_pairs c _ (at_body_of_form h), Expr.locals, ← expected_append, ← expected_append]
    rfl

/-- Collecting finds the local bindings of expressions. -/
theorem Body.found_pairs (c : Category) (pos : Nat) : ∀ body : Body,
    (∀ x ∈ Sexp.place pos body.items, Sexp.At src x.1 x.2) →
      found src c (Sexp.pairsFrom pos body.items) = expected c (body.locals pos)
  | .nil, _ => rfl
  | .cons e rest, h => by
    rw [Body.items, Sexp.place] at h
    obtain ⟨he, hrest⟩ := List.forall_mem_cons.1 h
    rw [Body.items, Sexp.pairsFrom_cons, found_append, e.found_pairs c _ he,
      rest.found_pairs c _ hrest, Body.locals, expected_append]

/-- Collecting finds the local bindings in the values of variables. -/
theorem Specs.found_pairs (c : Category) (pos : Nat) : ∀ specs : Specs,
    (∀ x ∈ Sexp.place pos specs.items, Sexp.At src x.1 x.2) →
      found src c (Sexp.pairsFrom pos specs.items) = expected c (specs.locals pos)
  | .nil, _ => rfl
  | .cons x value rest, h => by
    rw [Specs.items, Sexp.place] at h
    obtain ⟨hx, hrest⟩ := List.forall_mem_cons.1 h
    have hvalue : Sexp.At src (pos + 1 + x.size + 1) value.sexp :=
      hx.inner (_, _) (List.mem_cons_of_mem _ List.mem_cons_self)
    rw [Specs.items, Sexp.pairsFrom_cons, found_append, Sexp.pairs_list,
      found_cons_of_none (at?_ident hx), pairsFrom_entry, value.found_pairs c _ hvalue,
      rest.found_pairs c _ hrest, Specs.locals, expected_append]

/-- Collecting finds the local bindings in the bodies of local functions. -/
theorem Defs.found_pairs (c : Category) (pos : Nat) : ∀ defs : Defs,
    (∀ x ∈ Sexp.place pos defs.items, Sexp.At src x.1 x.2) →
      found src c (Sexp.pairsFrom pos defs.items) = expected c (defs.locals pos)
  | .nil, _ => rfl
  | .cons f params body rest, h => by
    rw [Defs.items, Sexp.place] at h
    obtain ⟨hf, hrest⟩ := List.forall_mem_cons.1 h
    have hform : BindingForm.at? src
      ((form f.word (nameItems params) body.items).pairAt pos) = none := at?_ident hf
    rw [Defs.items, Sexp.pairsFrom_cons, found_append, pairs_form, found_cons_of_none hform,
      found_cons_of_none (at?_nameItems (at_list_of_form hf)), pairsFrom_nameItems, List.nil_append,
      body.found_pairs c _ (at_body_of_form hf), rest.found_pairs c _ hrest, Defs.locals,
      expected_append]

end

/-! ## Programs -/

/-- What collecting should find at a form of a program, in order. -/
def Top.views (pos : Nat) (t : Top) : List View :=
  match t with
  | defun f params body =>
    let list := listAt Keyword.defun.word pos + f.size + 1
    (parameters .globalParameter (pos + t.sexp.size - 1) (list + 1) params).map Local.view ++
      .binding .globalDefinition (f.site (listAt Keyword.defun.word pos)) none ::
        (body.locals (list + (Sexp.list (nameItems params)).size + 1)).map Local.view
  | defvar x value =>
    .binding .globalDefinition (x.site (listAt Keyword.defvar.word pos)) none ::
      (value.locals (listAt Keyword.defvar.word pos + x.size + 1)).map Local.view
  | expr e => (e.locals pos).map Local.view

/-- What collecting should find in a program. -/
def Program.views (p : Program) : List View := (p.place 0).flatMap fun x => x.2.views x.1

/-- Collecting finds the bindings of a form of a program. -/
theorem Top.found_pairs (c : Category) (pos : Nat) (t : Top) (h : Sexp.At src pos t.sexp) :
    found src c (t.sexp.pairs pos) = (t.views pos).filter (·.category == c) := by
  cases t with
  | defun f params body =>
    have hlist : Sexp.At src (listAt Keyword.defun.word pos + f.size + 1)
        (.list (nameItems params)) :=
      h.inner (_, _) (List.mem_cons_of_mem _ (List.mem_cons_of_mem _ List.mem_cons_self))
    have hbody : ∀ x ∈ Sexp.place (listAt Keyword.defun.word pos + f.size + 1 +
        (Sexp.list (nameItems params)).size + 1) body.items, Sexp.At src x.1 x.2 := fun x hx =>
      h.inner x (List.mem_cons_of_mem _ (List.mem_cons_of_mem _ (List.mem_cons_of_mem _ hx)))
    have hpairs : (Top.defun f params body).sexp.pairs pos =
        (Top.defun f params body).sexp.pairAt pos ::
          (Sexp.list (nameItems params)).pairAt (listAt Keyword.defun.word pos + f.size + 1) ::
            Sexp.pairsFrom (listAt Keyword.defun.word pos + f.size + 1 +
              (Sexp.list (nameItems params)).size + 1) body.items := by
      rw [Top.sexp, Sexp.pairs_list, Sexp.pairsFrom_cons, Sexp.pairs_word, Sexp.pairsFrom_cons,
        Sexp.pairs_word, Sexp.pairsFrom_cons, Sexp.pairs_list, pairsFrom_nameItems]
      rfl
    have hat : BindingForm.at? src ((Top.defun f params body).sexp.pairAt pos) =
      some ⟨(Top.defun f params body).sexp.pairAt pos, Keyword.defun.head⟩ := at?_keyword h
    have hcategory : ∀ v ∈ (parameters .globalParameter
        (pos + (Top.defun f params body).sexp.size - 1)
        (listAt Keyword.defun.word pos + f.size + 1 + 1) params).map Local.view ++
          [.binding .globalDefinition (f.site (listAt Keyword.defun.word pos)) none],
        v.category = Keyword.defun.head.category := by
      rw [List.forall_mem_append, List.forall_mem_map, List.forall_mem_singleton]
      refine ⟨fun l hl => ?_, rfl⟩
      rw [Local.view, (bounds_of_mem_parameters hl).1]
      rfl
    rw [hpairs, found_cons hat (views_defun h) hcategory, found_cons_of_none (at?_nameItems hlist),
      body.found_pairs c _ hbody, expected, ← List.filter_append, List.append_assoc, Top.views]
    rfl
  | defvar x value =>
    have hvalue : Sexp.At src (listAt Keyword.defvar.word pos + x.size + 1) value.sexp :=
      h.inner (_, _) (List.mem_cons_of_mem _ (List.mem_cons_of_mem _ List.mem_cons_self))
    have hpairs : (Top.defvar x value).sexp.pairs pos = (Top.defvar x value).sexp.pairAt pos ::
        value.sexp.pairs (listAt Keyword.defvar.word pos + x.size + 1) := by
      rw [Top.sexp, Sexp.pairs_list, Sexp.pairsFrom_cons, Sexp.pairs_word, List.nil_append,
        pairsFrom_entry]
      rfl
    have hat : BindingForm.at? src ((Top.defvar x value).sexp.pairAt pos) =
      some ⟨(Top.defvar x value).sexp.pairAt pos, Keyword.defvar.head⟩ := at?_keyword h
    rw [hpairs, found_cons hat (views_defvar h) (List.forall_mem_singleton.2 rfl),
      value.found_pairs c _ hvalue, expected, ← List.filter_append, Top.views]
    rfl
  | expr e => exact e.found_pairs c pos h

/-- The binding forms found in a program that belong to a category are its expressions' own views.
-/
theorem Program.found_pairs (c : Category) (pos : Nat) (p : Program)
    (h : ∀ x ∈ Sexp.place pos (p.map Top.sexp), Sexp.At src x.1 x.2) :
    found src c (Sexp.pairsFrom pos (p.map Top.sexp)) =
      ((p.place pos).flatMap fun x => x.2.views x.1).filter (·.category == c) := by
  induction p generalizing pos with
  | nil => rfl
  | cons t rest ih =>
    rw [List.map_cons, Sexp.place] at h
    obtain ⟨ht, hrest⟩ := List.forall_mem_cons.1 h
    rw [List.map_cons, Sexp.pairsFrom_cons, found_append, t.found_pairs c _ ht, ih _ hrest,
      Program.place, List.flatMap_cons, List.filter_append]

end Core

end LexScope
