import LexScope.Proofs.Binding.Shift
import LexScope.Proofs.Form.Copy

/-!
# Bindings of a copy

Collecting the bindings of a copy finds what collecting those of the document finds, moved with the
forms. Names and words are compared in lower case, so they agree even where the copy is written in
another case; a documentation string is taken as it is written and agrees as far as the view goes.

Each function of the collection has one lemma here, which says that it commutes with the move, and
the lemma of a caller cites those of the functions it calls.
-/

namespace LexScope

/-! ## What is moved -/

section Shift

variable (k : Nat)

/-- The name `k` offsets further on. -/
def NameSite.shift (n : NameSite) : NameSite := ⟨n.name, n.site.shift k⟩

/-- The parameter `k` offsets further on. -/
def Parameter.shift (p : Parameter) : Parameter := ⟨p.name, p.site.shift k, k + p.visibleFrom⟩

/-- The binding form `k` offsets further on. -/
def BindingForm.shift (f : BindingForm) : BindingForm := ⟨f.pair.shift k, f.head⟩

end Shift

variable {view : Char → Char} {k : Nat} {src copy : Source}

/-! ## Words and names -/

namespace Source.Copies

private theorem isWord (h : src.Copies view k copy) (n : Node) (word : String) :
    copy.isWord (n.shift k) word = src.isWord n word := by
  rw [Source.isWord, sameWord, h.lowerAscii_textAt]
  rfl

private theorem lowerCase_slice (h : src.Copies view k copy) (s : Span) :
    lowerCase (copy.slice (s.shift k)) = lowerCase (src.slice s) := by
  rw [← lowerCase_lowerAscii, h.lowerAscii_slice, lowerCase_lowerAscii]

private theorem nameAt (h : src.Copies view k copy) (n : Node) :
    copy.nameAt (n.shift k) = (src.nameAt n).map (NameSite.shift k) := by
  have hname : lowerCase (copy.textAt (n.shift k)) = lowerCase (src.textAt n) := by
    rw [Source.textAt, Source.textOf, Node.shift_element]
    exact h.lowerCase_slice n.element.span
  simp only [Source.nameAt, Node.shift_element, Element.isAtom_shift, Node.quoted_shift, hname,
    Element.shift_span]
  split
  · split <;> rfl
  · rfl

end Source.Copies

/-! ## Lambda lists -/

namespace LambdaList

variable (destructuring : Bool)

private theorem parameterAt_copy (h : src.Copies view k copy) (site : Span) (visibleFrom : Nat) :
    parameterAt copy (site.shift k) (k + visibleFrom) =
      (parameterAt src site visibleFrom).map (Parameter.shift k) := by
  simp only [parameterAt, h.lowerCase_slice]
  split <;> rfl

private theorem suppliedName_copy (h : src.Copies view k copy) (part : ListPart) (visibleFrom : Nat)
    (items : List Node) :
    suppliedName copy part (k + visibleFrom) (items.map (Node.shift k)) =
      (suppliedName src part visibleFrom items).map (Parameter.shift k) := by
  match items with
  | [] => rfl
  | [_] => rfl
  | [_, _] => rfl
  | _ :: _ :: supplied :: _ =>
    simp only [List.map_cons, suppliedName, Node.shift_element, Element.isAtom_shift,
      Node.quoted_shift, Element.shift_span, parameterAt_copy h]
    split <;> rfl

private theorem partAfter_copy (h : src.Copies view k copy) (part : ListPart) (n : Node) :
    partAfter copy part (n.shift k) = partAfter src part n := by
  have hword := h.lowerAscii_textAt n
  have hhead : ((copy.textAt (n.shift k)).toList.head? == some '&') =
      ((src.textAt n).toList.head? == some '&') := by
    rw [← head?_lowerAscii_beq _ (c := '&') (by decide), hword,
      head?_lowerAscii_beq _ (by decide)]
  have hmarker : ListPart.ofMarker (copy.textAt (n.shift k)) =
      ListPart.ofMarker (src.textAt n) := by
    rw [ListPart.ofMarker, hword, ListPart.ofMarker]
  simp only [partAfter, Node.shift_element, Element.isAtom_shift, hhead, hmarker]

mutual

private theorem ofEntries_copy (h : src.Copies view k copy) (outer : Option Nat) (part : ListPart) :
    ∀ nodes : List Node,
      ofEntries copy destructuring (outer.map (k + ·)) part (nodes.map (Node.shift k)) =
        (ofEntries src destructuring outer part nodes).map (Parameter.shift k)
  | [] => by simp [ofEntries]
  | n :: rest => by
    have hfrom : (outer.map (k + ·)).getD (n.shift k).stop = k + outer.getD n.stop := by
      cases outer <;> simp
    rw [List.map_cons, ofEntries, ofEntries, Node.quoted_shift, partAfter_copy h, hfrom]
    split
    · exact ofEntries_copy h outer part rest
    split
    · exact ofEntries_copy h outer _ rest
    · rw [List.map_append, ofEntry_copy h part _ n, ofEntries_copy h outer part rest]

private theorem ofEntry_copy (h : src.Copies view k copy) (part : ListPart) (visibleFrom : Nat) :
    ∀ n : Node, ofEntry copy destructuring part (k + visibleFrom) (n.shift k) =
      (ofEntry src destructuring part visibleFrom n).map (Parameter.shift k)
  | .mk e items => by
    rw [Node.shift_mk, ofEntry, ofEntry, Element.shift_kind]
    cases e.kind with
    | atom => exact parameterAt_copy h e.span visibleFrom
    | group p =>
      simp only [ElementKind.shift]
      split
      · exact ofEntries_copy h (some visibleFrom) .required items
      · exact ofSpec_copy h part visibleFrom items
    | string => rfl

private theorem ofSpec_copy (h : src.Copies view k copy) (part : ListPart) (visibleFrom : Nat) :
    ∀ items : List Node,
      ofSpec copy destructuring part (k + visibleFrom) (items.map (Node.shift k)) =
        (ofSpec src destructuring part visibleFrom items).map (Parameter.shift k)
  | [] => by simp [ofSpec]
  | first :: rest => by
    have hsupplied := suppliedName_copy h part visibleFrom (first :: rest)
    rw [List.map_cons] at hsupplied
    rw [List.map_cons, ofSpec, ofSpec, hsupplied, Node.quoted_shift, List.map_append]
    split
    · rfl
    · rw [ofSpecName_copy h part visibleFrom first]

private theorem ofSpecName_copy (h : src.Copies view k copy) (part : ListPart) (visibleFrom : Nat) :
    ∀ n : Node, ofSpecName copy destructuring part (k + visibleFrom) (n.shift k) =
      (ofSpecName src destructuring part visibleFrom n).map (Parameter.shift k)
  | .mk e items => by
    rw [Node.shift_mk, ofSpecName, ofSpecName, Element.shift_kind]
    cases e.kind with
    | atom => exact parameterAt_copy h e.span visibleFrom
    | group p =>
      simp only [ElementKind.shift]
      split
      · exact ofKeyword_copy h visibleFrom items
      split
      · exact ofEntries_copy h (some visibleFrom) .required items
      · rfl
    | string => rfl

private theorem ofKeyword_copy (h : src.Copies view k copy) (visibleFrom : Nat) :
    ∀ items : List Node,
      ofKeyword copy destructuring (k + visibleFrom) (items.map (Node.shift k)) =
        (ofKeyword src destructuring visibleFrom items).map (Parameter.shift k)
  | [] => by simp [ofKeyword]
  | [_] => by simp [ofKeyword]
  | _ :: named :: rest => by
    rw [List.map_cons, List.map_cons, ofKeyword, ofKeyword]
    exact ofVariable_copy h visibleFrom named

private theorem ofVariable_copy (h : src.Copies view k copy) (visibleFrom : Nat) :
    ∀ n : Node, ofVariable copy destructuring (k + visibleFrom) (n.shift k) =
      (ofVariable src destructuring visibleFrom n).map (Parameter.shift k)
  | .mk e items => by
    rw [Node.shift_mk, ofVariable, ofVariable, Element.shift_kind]
    cases e.kind with
    | atom => exact parameterAt_copy h e.span visibleFrom
    | group p =>
      simp only [ElementKind.shift]
      split
      · exact ofEntries_copy h (some visibleFrom) .required items
      · rfl
    | string => rfl

end

end LambdaList

private theorem Source.Copies.parametersAt (h : src.Copies view k copy) (n : Node)
    (destructuring : Bool) :
    copy.parametersAt (n.shift k) destructuring =
      (src.parametersAt n destructuring).map (List.map (Parameter.shift k)) := by
  simp only [Source.parametersAt, Node.shift_element, Element.shift_kind, Node.quoted_shift,
    Node.shift_items, h.isWord]
  cases n.element.kind with
  | atom =>
    simp only [ElementKind.shift]
    split <;> rfl
  | group p =>
    simp only [ElementKind.shift]
    split
    · rfl
    · exact congrArg some (LambdaList.ofEntries_copy destructuring h none .required n.items)
  | string => rfl

/-! ## Entries -/

private theorem scopeIn_shift (form : Pair) (start : Nat) :
    scopeIn (form.shift k) (k + start) = (scopeIn form start).map (Span.shift k) := by
  simp only [scopeIn, Pair.shift_closing, Nat.add_le_add_iff_left]
  split <;> rfl

namespace Entry

private theorem lexical_shift (c : Collection) (kind : BindingKind) (container : String)
    (scopeForm : Pair)
    (form : Span) (start : Nat) (n : NameSite) :
    lexical c kind container (scopeForm.shift k) (form.shift k) (k + start) (n.shift k) =
      (lexical c kind container scopeForm form start n).map (shift k) := by
  rw [lexical, lexical, scopeIn_shift]
  cases scopeIn scopeForm start <;> rfl

private theorem parameters_shift (c : Collection) (container : String) (form : Pair)
    (ps : List Parameter) :
    parameters c container (form.shift k) (ps.map (Parameter.shift k)) =
      (parameters c container form ps).map (shift k) := by
  rw [parameters, parameters, List.flatMap_map, List.map_flatMap]
  congr 1
  funext p
  exact lexical_shift c .parameter container form form.span p.visibleFrom ⟨p.name, p.site⟩

end Entry

private theorem Variable.firstGroup_shift (operands : List Node) :
    firstGroup (operands.map (Node.shift k)) =
      (firstGroup operands).map fun found => (found.1.shift k, found.2.shift k) := by
  cases operands with
  | nil => rfl
  | cons n rest =>
    simp only [firstGroup, List.map_cons, List.head?_cons, Option.bind_some, Node.shift_element,
      Element.group_shift]
    cases n.element.group <;> rfl

private theorem Source.Copies.headParameters (h : src.Copies view k copy) (operands : List Node)
    (destructuring : Bool) :
    (operands.map (Node.shift k)).head?.bind (copy.parametersAt · destructuring) =
      (operands.head?.bind (src.parametersAt · destructuring)).map
        (List.map (Parameter.shift k)) := by
  cases operands with
  | nil => rfl
  | cons n rest => exact h.parametersAt n destructuring

private theorem Source.Copies.headName (h : src.Copies view k copy) (nodes : List Node) :
    (nodes.map (Node.shift k)).head?.bind copy.nameAt =
      (nodes.head?.bind src.nameAt).map (NameSite.shift k) := by
  cases nodes with
  | nil => rfl
  | cons n rest => exact h.nameAt n

/-! ## Documentation -/

namespace Source.Copies

private theorem stringAt (h : src.Copies view k copy) (n : Node) :
    (copy.stringAt (n.shift k)).map (viewText view) = (src.stringAt n).map (viewText view) := by
  simp only [Source.stringAt, Node.shift_element, Element.isString_shift]
  split
  · rw [map_viewText_literalContents h.caseView, h.textAt, map_viewText_literalContents h.caseView]
  · rfl

private theorem isDocumentationKeyword (h : src.Copies view k copy) (n : Node) :
    copy.isDocumentationKeyword (n.shift k) = src.isDocumentationKeyword n := by
  simp only [Source.isDocumentationKeyword, Node.shift_element, Element.isAtom_shift, h.isWord]

private theorem documentationOption (h : src.Copies view k copy) (items : List Node) :
    (copy.documentationOption (items.map (Node.shift k))).map (viewText view) =
      (src.documentationOption items).map (viewText view) := by
  match items with
  | [] => rfl
  | [_] => rfl
  | head :: value :: _ =>
    simp only [List.map_cons, Source.documentationOption, h.isDocumentationKeyword]
    split
    · exact h.stringAt value
    · rfl

private theorem optionDoc (h : src.Copies view k copy) (nodes : List Node) :
    (copy.optionDoc (nodes.map (Node.shift k))).map (viewText view) =
      (src.optionDoc nodes).map (viewText view) := by
  induction nodes with
  | nil => rfl
  | cons n rest ih =>
    simp only [List.map_cons, Source.optionDoc, Node.shift_element, Element.shift_kind,
      Node.quoted_shift, Node.shift_items, h.isDocumentationKeyword]
    cases n.element.kind with
    | string =>
      simp only [ElementKind.shift]
      split
      · exact ih
      · exact h.stringAt n
    | atom =>
      simp only [ElementKind.shift]
      split
      · cases rest with
        | nil => simp only [List.map_nil, List.head?_nil, Option.bind_none]
        | cons value rest => exact h.stringAt value
      · exact ih
    | group p =>
      simp only [ElementKind.shift]
      rcases cases_of_map_viewText_eq (h.documentationOption n.items) with
        ⟨hcopy, hsrc⟩ | ⟨doc, doc', hcopy, hsrc, hdoc⟩
      · rw [hcopy, hsrc]
        exact ih
      · rw [hcopy, hsrc, Option.map_some, Option.map_some, hdoc]

private theorem isDeclaration (h : src.Copies view k copy) (n : Node) :
    copy.isDeclaration (n.shift k) = src.isDeclaration n := by
  have hhead : ((n.shift k).items.head?.any fun head =>
        head.element.isAtom && copy.isWord head "declare") =
      n.items.head?.any fun head => head.element.isAtom && src.isWord head "declare" := by
    rw [Node.shift_items, List.head?_map, Option.any_map]
    simp only [Node.shift_element, Element.isAtom_shift, h.isWord]
  simp only [Source.isDeclaration, hhead, Node.shift_element, Element.group_shift,
    Option.isSome_map, Node.quoted_shift]

private theorem bodyDoc (h : src.Copies view k copy) (nodes : List Node) :
    (copy.bodyDoc (nodes.map (Node.shift k))).map (viewText view) =
      (src.bodyDoc nodes).map (viewText view) := by
  induction nodes with
  | nil => rfl
  | cons n rest ih =>
    simp only [List.map_cons, Source.bodyDoc, Node.shift_element, Element.isString_shift,
      Node.quoted_shift, List.isEmpty_map, h.isDeclaration]
    split
    · split
      · rfl
      · exact h.stringAt n
    split
    · exact ih
    · rfl

end Source.Copies

/-! ## Global definitions -/

namespace Definition

/-- The name of a package depends on what is written up to case. -/
theorem packageName_copy (h : src.Copies view k copy) (n : Node) :
    packageName copy (n.shift k) = (packageName src n).map (NameSite.shift k) := by
  have hatom : lowerCase ((["#:", ":"].findSome? (afterBeginning? · (copy.textAt (n.shift k)))).getD
        (copy.textAt (n.shift k))) =
      lowerCase ((["#:", ":"].findSome? (afterBeginning? · (src.textAt n))).getD
        (src.textAt n)) := by
    rw [← lowerCase_lowerAscii, lowerAscii_packageText, h.lowerAscii_textAt,
      ← lowerAscii_packageText, lowerCase_lowerAscii]
  simp only [packageName, Node.shift_element, Element.shift_kind, Element.shift_span]
  cases n.element.kind with
  | atom =>
    simp only [ElementKind.shift, hatom]
    split <;> rfl
  | group p => rfl
  | string =>
    simp only [ElementKind.shift]
    rcases cases_of_map_viewText_eq (h.stringAt n) with
      ⟨hcopy, hsrc⟩ | ⟨text, text', hcopy, hsrc, htext⟩
    · rw [hcopy, hsrc]
      rfl
    · have hname : lowerCase text = lowerCase text' := by
        rw [← lowerCase_lowerAscii, lowerAscii_eq_of_viewText_eq h.caseView htext,
          lowerCase_lowerAscii]
      simp only [hcopy, hsrc, hname]
      split <;> rfl

private theorem groupName_copy (h : src.Copies view k copy) (d : Definer) (items : List Node) :
    groupName copy d (items.map (Node.shift k)) =
      (groupName src d items).map (NameSite.shift k) := by
  cases items with
  | nil => rfl
  | cons first rest =>
    simp only [List.map_cons, groupName, h.isWord, h.nameAt, h.headName]
    cases d with
    | function | genericFunction | method =>
      dsimp only
      split <;> rfl
    | _ => rfl

private theorem nameOf_copy (h : src.Copies view k copy) (d : Definer) (n : Node) :
    nameOf copy d (n.shift k) = (nameOf src d n).map (NameSite.shift k) := by
  simp only [nameOf, Node.quoted_shift, Node.shift_element, Element.shift_kind, Node.shift_items,
    groupName_copy h, packageName_copy h, h.nameAt]
  split
  · rfl
  cases n.element.kind with
  | group p => rfl
  | atom =>
    simp only [ElementKind.shift]
    split <;> rfl
  | string =>
    simp only [ElementKind.shift]
    split <;> rfl

private theorem parameters_shift (name : String) (form : Pair) (ps : Option (List Parameter)) :
    parameters name (form.shift k) (ps.map (List.map (Parameter.shift k))) =
      (parameters name form ps).map (Entry.shift k) := by
  rw [parameters, parameters, ← Entry.parameters_shift]
  cases ps <;> rfl

private theorem afterList_shift (name : String) (form list : Pair) (n : NameSite) :
    afterList name (form.shift k) (list.shift k) (n.shift k) =
      (afterList name form list n).map (Entry.shift k) :=
  Entry.lexical_shift .globalParameter .parameter name form form.span (list.closing + 1) n

private theorem flatMap_afterList_shift (name : String) (form list : Pair) (names : List NameSite) :
    (names.map (NameSite.shift k)).flatMap (afterList name (form.shift k) (list.shift k)) =
      (names.flatMap (afterList name form list)).map (Entry.shift k) := by
  simp only [List.flatMap_map, List.map_flatMap, afterList_shift]

private theorem filterMap_nameAt_copy (h : src.Copies view k copy) (nodes : List Node) :
    (nodes.map (Node.shift k)).filterMap copy.nameAt =
      (nodes.filterMap src.nameAt).map (NameSite.shift k) := by
  simp only [List.filterMap_map, List.map_filterMap, Function.comp_def, h.nameAt]

private theorem setfLists_copy (h : src.Copies view k copy) (name : String) (form : Pair)
    (operands : List Node) :
    setfLists copy name (form.shift k) (operands.map (Node.shift k)) =
      (setfLists src name form operands).map (Entry.shift k) := by
  cases operands with
  | nil => rfl
  | cons list rest =>
    have hstores := Variable.firstGroup_shift (k := k) rest
    simp only [Variable.firstGroup] at hstores
    simp only [List.map_cons, setfLists, Node.shift_element, Element.group_shift, h.parametersAt,
      hstores]
    cases list.element.group with
    | none => rfl
    | some p =>
      cases src.parametersAt list false with
      | none => rfl
      | some ps =>
        simp only [Option.map_some]
        rw [List.map_append, ← parameters_shift, Option.map_some]
        cases rest.head?.bind fun n => n.element.group.map fun p => (n, p) with
        | none => rfl
        | some found =>
          simp only [Option.map_some, Node.shift_items, filterMap_nameAt_copy h,
            flatMap_afterList_shift]

private theorem combinationOptions_copy (h : src.Copies view k copy) (name : String) (form : Pair)
    (operands : List Node) :
    combinationOptions copy name (form.shift k) (operands.map (Node.shift k)) =
      (combinationOptions src name form operands).map (Entry.shift k) := by
  induction operands with
  | nil => rfl
  | cons n rest ih =>
    simp only [List.map_cons, combinationOptions, Node.shift_element, Element.shift_kind,
      Node.shift_items]
    cases n.element.kind with
    | atom => exact ih
    | string => exact ih
    | group option =>
      simp only [ElementKind.shift]
      cases hitems : n.items with
      | nil => exact ih
      | cons head parts =>
        have harguments := LambdaList.ofEntries_copy false h none .required
          (head :: parts)
        rw [List.map_cons, Option.map_none] at harguments
        simp only [List.map_cons, h.isWord, ih, harguments, h.headName]
        split
        · have hafter (p : Parameter) :
              afterList name (form.shift k) (option.shift k)
                  ⟨(p.shift k).name, (p.shift k).site⟩ =
                (afterList name form option ⟨p.name, p.site⟩).map (Entry.shift k) :=
            afterList_shift name form option ⟨p.name, p.site⟩
          simp only [List.map_append, List.flatMap_map, List.map_flatMap, hafter]
        split
        · rw [List.map_append, ← flatMap_afterList_shift]
          cases parts.head?.bind src.nameAt <;> rfl
        · rfl

private theorem combinationLists_copy (h : src.Copies view k copy) (name : String) (form : Pair)
    (operands : List Node) :
    combinationLists copy name (form.shift k) (operands.map (Node.shift k)) =
      (combinationLists src name form operands).map (Entry.shift k) := by
  cases operands with
  | nil => rfl
  | cons list rest =>
    simp only [List.map_cons, combinationLists, Node.shift_element, Element.group_shift,
      h.parametersAt]
    cases list.element.group with
    | none => rfl
    | some p =>
      cases src.parametersAt list false with
      | none => rfl
      | some ps =>
        simp only [Option.map_some]
        rw [List.map_append, ← parameters_shift, Option.map_some]
        cases rest with
        | nil => rfl
        | cons groups options =>
          simp only [List.map_cons, Node.shift_element, Element.group_shift, Node.shift_items]
          cases groups.element.group with
          | none => rfl
          | some p =>
            have hnamed : (groups.items.map (Node.shift k)).filterMap (fun spec =>
                  if spec.element.group.isSome then spec.items.head?.bind copy.nameAt else none) =
                (groups.items.filterMap fun spec =>
                  if spec.element.group.isSome then spec.items.head?.bind src.nameAt
                  else none).map (NameSite.shift k) := by
              rw [List.filterMap_map, List.map_filterMap]
              congr 1
              funext spec
              simp only [Function.comp, Node.shift_element, Element.group_shift, Option.isSome_map,
                Node.shift_items, h.headName]
              split <;> rfl
            simp only [Option.map_some, hnamed, flatMap_afterList_shift,
              combinationOptions_copy h, List.map_append]

/-- The lists after the name, and what is left for the documentation. -/
theorem lists_copy (h : src.Copies view k copy) (d : Definer) (name : String) (form : Pair)
    (operands : List Node) :
    lists copy d name (form.shift k) (operands.map (Node.shift k)) =
      ((lists src d name form operands).1.map (Entry.shift k),
        (lists src d name form operands).2.map (Node.shift k)) := by
  have hspecialized : (operands.map (Node.shift k)).dropWhile (fun n =>
        n.element.group.isNone && !copy.isWord n "nil") =
      (operands.dropWhile fun n =>
        n.element.group.isNone && !src.isWord n "nil").map (Node.shift k) := by
    simp only [List.dropWhile_map, Function.comp_def, Node.shift_element, Element.group_shift,
      Option.isNone_map, h.isWord]
  unfold lists
  cases d.lambdaList with
  | ordinary => simp only [h.headParameters, parameters_shift, List.map_tail]
  | destructuring => simp only [h.headParameters, parameters_shift, List.map_tail]
  | specialized => simp only [hspecialized, h.headParameters, parameters_shift, List.map_tail]
  | absent =>
    cases d with
    | setf => simp only [setfLists_copy h]
    | methodCombination => simp only [combinationLists_copy h]
    | _ =>
      simp only [List.map_nil, ← List.map_tail]
      rfl

/-- A definition is moved; its documentation looks the same. -/
theorem entries_copy (h : src.Copies view k copy) (form : Pair) (d : Definer)
    (operands : List Node) :
    (entries copy (form.shift k) d (operands.map (Node.shift k))).map (Entry.viewDoc view) =
      ((entries src form d operands).map (Entry.shift k)).map (Entry.viewDoc view) := by
  cases operands with
  | nil => rfl
  | cons first rest =>
    simp only [List.map_cons, entries, nameOf_copy h]
    cases nameOf src d first with
    | none => rfl
    | some n =>
      have hdoc (nodes : List Node) :
          (if d.hasBody then copy.bodyDoc (nodes.map (Node.shift k))
            else copy.optionDoc (nodes.map (Node.shift k))).map (viewText view) =
          (if d.hasBody then src.bodyDoc nodes else src.optionDoc nodes).map (viewText view) := by
        split
        · exact h.bodyDoc nodes
        · exact h.optionDoc nodes
      simp only [Option.map_some, lists_copy h, NameSite.shift, List.map_append, List.map_cons,
        List.map_nil, Entry.viewDoc, Entry.shift, Entry.map, Binding.viewDoc, Binding.shift, hdoc]
      rfl

end Definition

/-! ## Variables of binding forms -/

namespace Variable

/-- The entry of a list of variables `k` offsets further on. -/
def Spec.shift (k : Nat) (spec : Spec) : Spec := ⟨spec.name.shift k, spec.entry.shift k⟩

/-- A name moves with its operand. -/
@[simp] theorem Spec.shift_name (spec : Spec) : (spec.shift k).name = spec.name.shift k := rfl

private theorem specs_copy (h : src.Copies view k copy) (list : Node) :
    specs copy (list.shift k) = (specs src list).map (Spec.shift k) := by
  rw [specs, specs, Node.shift_items, List.filterMap_map, List.map_filterMap]
  congr 1
  funext entry
  simp only [Function.comp, Node.shift_element, Element.shift_kind, Node.quoted_shift,
    Node.shift_items]
  cases entry.element.kind with
  | atom =>
    simp only [ElementKind.shift, Option.bind_some, h.nameAt]
    cases src.nameAt entry <;> rfl
  | group p =>
    simp only [ElementKind.shift]
    split
    · rfl
    · rw [h.headName]
      cases entry.items.head?.bind src.nameAt <;> rfl
  | string => rfl

private theorem visibleFrom_shift (sequential : Bool) (list : Pair) (spec : Spec) :
    visibleFrom sequential (list.shift k) (spec.shift k) =
      k + visibleFrom sequential list spec := by
  simp only [visibleFrom, Spec.shift, Node.stop_shift]
  split <;> rfl

private theorem letEntries_copy (h : src.Copies view k copy) (form : Pair) (keyword : String)
    (sequential : Bool) (kind : BindingKind) (operands : List Node) :
    letEntries copy (form.shift k) keyword sequential kind (operands.map (Node.shift k)) =
      (letEntries src form keyword sequential kind operands).map (Entry.shift k) := by
  rw [letEntries, letEntries, firstGroup_shift]
  cases firstGroup operands with
  | none => rfl
  | some found =>
    simp only [Option.map_some, specs_copy h, List.flatMap_map, List.map_flatMap,
      visibleFrom_shift, Pair.span_shift, Spec.shift_name, Entry.lexical_shift]

private theorem doEntry_shift (form : Pair) (keyword : String) (sequential : Bool) (list : Pair)
    (spec : Spec) :
    doEntry (form.shift k) keyword sequential (list.shift k) (spec.shift k) =
      (doEntry form keyword sequential list spec).map (Entry.shift k) := by
  have hstep : (if (spec.shift k).entry.element.group.isSome then
        ((spec.shift k).entry.items[2]?).toList.map fun n => Entry.stepForm n.element.span
        else []) =
      (if spec.entry.element.group.isSome then
        (spec.entry.items[2]?).toList.map fun n => Entry.stepForm n.element.span
        else []).map (Entry.shift k) := by
    simp only [Spec.shift, Node.shift_element, Element.group_shift, Option.isSome_map,
      Node.shift_items, List.getElem?_map]
    split
    · cases spec.entry.items[2]? with
      | none => rfl
      | some n => simp [Entry.shift, Entry.map]
    · rfl
  simp only [doEntry]
  rw [hstep, visibleFrom_shift, scopeIn_shift, List.map_append]
  cases scopeIn form (visibleFrom sequential list spec) <;> rfl

private theorem doEntries_copy (h : src.Copies view k copy) (form : Pair) (keyword : String)
    (sequential : Bool) (operands : List Node) :
    doEntries copy (form.shift k) keyword sequential (operands.map (Node.shift k)) =
      (doEntries src form keyword sequential operands).map (Entry.shift k) := by
  rw [doEntries, doEntries, firstGroup_shift]
  cases firstGroup operands with
  | none => rfl
  | some found =>
    simp only [Option.map_some, specs_copy h, List.flatMap_map, List.map_flatMap, doEntry_shift]

private theorem lambdaEntries_copy (h : src.Copies view k copy) (form : Pair)
    (operands : List Node) :
    lambdaEntries copy (form.shift k) (operands.map (Node.shift k)) =
      (lambdaEntries src form operands).map (Entry.shift k) := by
  rw [lambdaEntries, lambdaEntries, h.headParameters, ← Entry.parameters_shift]
  cases operands.head?.bind (src.parametersAt · false) <;> rfl

private theorem valueEntries_copy (h : src.Copies view k copy) (form : Pair) (keyword : String)
    (destructuring : Bool) (operands : List Node) :
    valueEntries copy (form.shift k) keyword destructuring (operands.map (Node.shift k)) =
      (valueEntries src form keyword destructuring operands).map (Entry.shift k) := by
  match operands with
  | [] => rfl
  | [_] => rfl
  | list :: _ :: _ =>
    simp only [List.map_cons, valueEntries, Node.shift_element, Element.group_shift]
    cases list.element.group with
    | none => rfl
    | some p =>
      have hparameters := LambdaList.ofEntries_copy destructuring h none .required
        list.items
      have hlexical (param : Parameter) :
          Entry.lexical .anonymousVariable .localVariable keyword (form.shift k)
              (form.shift k).span ((p.shift k).closing + 1)
              ⟨(param.shift k).name, (param.shift k).site⟩ =
            (Entry.lexical .anonymousVariable .localVariable keyword form form.span
              (p.closing + 1) ⟨param.name, param.site⟩).map (Entry.shift k) :=
        Entry.lexical_shift .anonymousVariable .localVariable keyword form form.span
          (p.closing + 1) ⟨param.name, param.site⟩
      rw [Option.map_none] at hparameters
      simp only [Option.map_some, Node.shift_items, hparameters, List.flatMap_map,
        List.map_flatMap, hlexical]

private theorem singleEntries_copy (h : src.Copies view k copy) (form : Pair) (keyword : String)
    (iterates : Bool) (kind : BindingKind) (operands : List Node) :
    singleEntries copy (form.shift k) keyword iterates kind (operands.map (Node.shift k)) =
      (singleEntries src form keyword iterates kind operands).map (Entry.shift k) := by
  rw [singleEntries, singleEntries, firstGroup_shift]
  cases firstGroup operands with
  | none => rfl
  | some found =>
    obtain ⟨spec, p⟩ := found
    simp only [Option.map_some, Node.shift_items, h.headName, List.getElem?_map]
    cases spec.items.head?.bind src.nameAt with
    | none => rfl
    | some n =>
      simp only [Option.map_some, ← Entry.lexical_shift]
      cases spec.items[1]? with
      | none => rfl
      | some value =>
        simp only [Option.map_some, Node.stop_shift]
        split <;> rfl

end Variable

/-! ## Local functions -/

namespace LocalFunction

private theorem visibleFrom_shift (f : LocalFunctionForm) (list : Pair) :
    visibleFrom f (list.shift k) = k + visibleFrom f list := by
  cases f <;> rfl

/-- A local function is moved with its parameters; its documentation looks the same. -/
theorem definitionEntries_copy (h : src.Copies view k copy) (form : Pair) (keyword : String)
    (f : LocalFunctionForm) (list definition : Pair) :
    (definitionEntries copy (form.shift k) keyword f (list.shift k) (definition.shift k)).map
        (Entry.viewDoc view) =
      ((definitionEntries src form keyword f list definition).map (Entry.shift k)).map
        (Entry.viewDoc view) := by
  rw [definitionEntries, definitionEntries, h.items]
  cases src.items definition with
  | nil => rfl
  | cons first rest =>
    simp only [List.map_cons, h.nameAt]
    cases src.nameAt first with
    | none => rfl
    | some n =>
      have hparameters : Entry.parameters .localParameter n.name (definition.shift k)
            (((rest.map (Node.shift k)).head?.bind
              (copy.parametersAt · (f == .macrolet))).getD []) =
          (Entry.parameters .localParameter n.name definition
            ((rest.head?.bind (src.parametersAt · (f == .macrolet))).getD [])).map
              (Entry.shift k) := by
        rw [h.headParameters, ← Entry.parameters_shift]
        cases rest.head?.bind (src.parametersAt · (f == .macrolet)) <;> rfl
      have hdoc := h.bodyDoc rest.tail
      rw [List.map_tail] at hdoc
      simp only [Option.map_some, NameSite.shift, visibleFrom_shift, scopeIn_shift, List.map_append,
        hparameters]
      cases scopeIn form (visibleFrom f list) with
      | none => rfl
      | some scope =>
        simp only [Option.map_some, List.map_cons, List.map_nil, Entry.viewDoc, Entry.shift,
          Entry.map, Binding.viewDoc, Binding.shift, hdoc]
        rfl

private theorem entries_copy (h : src.Copies view k copy) (form : Pair) (keyword : String)
    (f : LocalFunctionForm) (operands : List Node) :
    (entries copy (form.shift k) keyword f (operands.map (Node.shift k))).map (Entry.viewDoc view) =
      ((entries src form keyword f operands).map (Entry.shift k)).map (Entry.viewDoc view) := by
  have hlist : (operands.map (Node.shift k)).head?.bind (·.element.group) =
      (operands.head?.bind (·.element.group)).map (Pair.shift k) := by
    cases operands with
    | nil => rfl
    | cons n rest => simp
  rw [entries, entries, hlist]
  cases operands.head?.bind (·.element.group) with
  | none => rfl
  | some list =>
    simp only [Option.map_some, h.layout, Layout.shift_pairs, PairIndex.children_shift,
      List.flatMap_map, List.map_flatMap, definitionEntries_copy h]

end LocalFunction

/-! ## Variables of `loop` -/

namespace Loop

private theorem bindName_shift (form : Pair) (kind : BindingKind) (n : NameSite) :
    bindName (form.shift k) kind (n.shift k) = (bindName form kind n).map (Entry.shift k) :=
  Entry.lexical_shift .loopBinding kind "loop" form form.span n.site.stop n

mutual

private theorem bindTarget_copy (h : src.Copies view k copy) (form : Pair) (kind : BindingKind) :
    ∀ n : Node, bindTarget copy (form.shift k) kind (n.shift k) =
      (bindTarget src form kind n).map (Entry.shift k)
  | .mk e items => by
    have hname := h.nameAt (.mk e items)
    rw [Node.shift_mk] at hname
    rw [Node.shift_mk, bindTarget, bindTarget, Element.shift_kind, hname]
    cases e.kind with
    | atom =>
      simp only [ElementKind.shift]
      cases src.nameAt (.mk e items) with
      | none => rfl
      | some n => simp [bindName_shift]
    | group p =>
      simp only [ElementKind.shift]
      rw [Element.shift_quoted]
      split
      · rfl
      · exact bindTargets_copy h form kind items
    | string => rfl

private theorem bindTargets_copy (h : src.Copies view k copy) (form : Pair) (kind : BindingKind) :
    ∀ nodes : List Node, bindTargets copy (form.shift k) kind (nodes.map (Node.shift k)) =
      (bindTargets src form kind nodes).map (Entry.shift k)
  | [] => by simp [bindTargets]
  | n :: rest => by
    rw [List.map_cons, bindTargets, bindTargets, bindTarget_copy h form kind n,
      bindTargets_copy h form kind rest, List.map_append]

end

private theorem clauses_copy (h : src.Copies view k copy) (form : Pair) (st : State)
    (nodes : List Node) :
    clauses copy (form.shift k) st (nodes.map (Node.shift k)) =
      (clauses src form st nodes).map (Entry.shift k) := by
  induction nodes generalizing st with
  | nil => rfl
  | cons n rest ih =>
    have hword : wordOf (copy.textAt (n.shift k)) = wordOf (src.textAt n) := by
      rw [wordOf, h.lowerAscii_textAt, wordOf]
    have hpairing : (if (n.shift k).element.group.isSome then
          ((n.shift k).items[1]?).toList.flatMap (bindTarget copy (form.shift k) .loopVariable)
          else []) =
        (if n.element.group.isSome then
          (n.items[1]?).toList.flatMap (bindTarget src form .loopVariable)
          else []).map (Entry.shift k) := by
      simp only [Node.shift_element, Element.group_shift, Option.isSome_map, Node.shift_items,
        List.getElem?_map]
      split
      · cases n.items[1]? with
        | none => rfl
        | some target => simp [bindTarget_copy h]
      · rfl
    rw [List.map_cons, clauses, clauses]
    cases st.expected with
    | target => simp only [bindTarget_copy h, ih, List.map_append]
    | name => simp only [bindTarget_copy h, ih, List.map_append]
    | pairing =>
      simp only []
      rw [hpairing, ih, List.map_append]
    | anything => simp only [Node.shift_element, Element.isAtom_shift, hword, ih]

end Loop

/-! ## Forms -/

namespace BindingForm

private theorem at?_copy (h : src.Copies view k copy) (p : Pair) :
    at? copy (p.shift k) = (at? src p).map (BindingForm.shift k) := by
  rw [at?, at?, h.elements_pair]
  cases src.elements p with
  | nil => rfl
  | cons first rest =>
    have hkeyword : keywordOf (copy.textOf (first.shift k)) = keywordOf (src.textOf first) :=
      congrArg withoutPackage (h.lowerAscii_slice first.span)
    have hhead : Head.classify (copy.textOf (first.shift k)) =
        Head.classify (src.textOf first) := by
      unfold Head.classify
      simp only [hkeyword]
    simp only [List.map_cons, Element.isAtom_shift, Element.shift_quoted, hhead]
    split
    · cases Head.classify (src.textOf first) <;> rfl
    · rfl

private theorem all_copy (h : src.Copies view k copy) (excluded : SpanSet) :
    all copy (excluded.shift k) = (all src excluded).map (BindingForm.shift k) := by
  have hpairs : copy.layout.pairs.pairs.filter (fun p => !(excluded.shift k).contains p.opening) =
      (src.layout.pairs.pairs.filter fun p => !excluded.contains p.opening).map (Pair.shift k) := by
    simp only [h.layout, Layout.shift_pairs, PairIndex.pairs_shift, List.filter_map,
      Function.comp_def, Pair.shift_opening, SpanSet.contains_shift]
  simp only [all, hpairs, List.filterMap_map, List.map_filterMap, Function.comp_def, at?_copy h]

/-- The entries of a form are moved with it; their documentation looks the same. -/
theorem entries_copy (h : src.Copies view k copy) (f : BindingForm) :
    ((f.shift k).entries copy).map (Entry.viewDoc view) =
      ((f.entries src).map (Entry.shift k)).map (Entry.viewDoc view) := by
  obtain ⟨pair, head⟩ := f
  simp only [entries, BindingForm.shift, h.items]
  cases src.items pair with
  | nil => rfl
  | cons first operands =>
    have hkeyword : keywordOf (copy.textAt (first.shift k)) = keywordOf (src.textAt first) :=
      congrArg withoutPackage (h.lowerAscii_textAt first)
    -- Only definitions carry documentation; the entries of the other forms are equal as they are.
    have hexact {found moved : List Entry} (heq : moved = found.map (Entry.shift k)) :
        moved.map (Entry.viewDoc view) = (found.map (Entry.shift k)).map (Entry.viewDoc view) := by
      rw [heq]
    simp only [List.map_cons, hkeyword]
    cases head with
    | global d => exact Definition.entries_copy h pair d operands
    | letLike sequential kind => exact hexact (Variable.letEntries_copy h pair _ _ _ operands)
    | doLoop sequential => exact hexact (Variable.doEntries_copy h pair _ _ operands)
    | lambda => exact hexact (Variable.lambdaEntries_copy h pair operands)
    | destructuringBind => exact hexact (Variable.valueEntries_copy h pair _ _ operands)
    | multipleValueBind => exact hexact (Variable.valueEntries_copy h pair _ _ operands)
    | localFunctions form => exact LocalFunction.entries_copy h pair _ form operands
    | singleVariable iterates kind =>
      exact hexact (Variable.singleEntries_copy h pair _ _ _ operands)
    | loop => exact hexact (Loop.clauses_copy h pair {} operands)

end BindingForm

/-! ## The table -/

private theorem Entry.isKept_shift (excluded : SpanSet) (e : Entry) :
    (e.shift k).isKept (excluded.shift k) = e.isKept excluded := by
  cases e with
  | binding c b => exact congrArg (!·) (SpanSet.meets_shift k excluded b.site)
  | stepForm s => rfl

private theorem Entry.isKept_viewDoc (excluded : SpanSet) (e : Entry) :
    (e.viewDoc view).isKept excluded = e.isKept excluded := by
  cases e <;> rfl

namespace Table

/-- Entries that are moved and look the same fill moved tables alike. -/
theorem foldl_add_copy {t moved : Table} (ht : moved.viewDoc view = (t.shift k).viewDoc view)
    {found foundMoved : List Entry}
    (hfound : foundMoved.map (Entry.viewDoc view) =
      (found.map (Entry.shift k)).map (Entry.viewDoc view)) :
    (foundMoved.foldl add moved).viewDoc view = ((found.foldl add t).shift k).viewDoc view := by
  calc (foundMoved.foldl add moved).viewDoc view
      = (foundMoved.map (Entry.viewDoc view)).foldl add (moved.viewDoc view) :=
        (foldl_add_map foundMoved moved).symm
    _ = ((found.map (Entry.shift k)).map (Entry.viewDoc view)).foldl add
          ((t.shift k).viewDoc view) := by rw [hfound, ht]
    _ = ((found.map (Entry.shift k)).foldl add (t.shift k)).viewDoc view := foldl_add_map _ _
    _ = ((found.foldl add t).shift k).viewDoc view :=
        congrArg (viewDoc view) (foldl_add_map found t)

private theorem collectPass_copy (h : src.Copies view k copy) (excluded : SpanSet)
    (forms : List BindingForm) (c : Category) {t moved : Table}
    (ht : moved.viewDoc view = (t.shift k).viewDoc view) :
    (moved.collectPass copy (excluded.shift k) (forms.map (BindingForm.shift k)) c).viewDoc view =
      ((t.collectPass src excluded forms c).shift k).viewDoc view := by
  have hforms : (forms.map (BindingForm.shift k)).filter (·.head.category == c) =
      (forms.filter (·.head.category == c)).map (BindingForm.shift k) := by
    rw [List.filter_map]
    rfl
  have hentries : (((forms.filter (·.head.category == c)).map (BindingForm.shift k)).flatMap
        (·.entries copy)).map (Entry.viewDoc view) =
      (((forms.filter (·.head.category == c)).flatMap (·.entries src)).map (Entry.shift k)).map
        (Entry.viewDoc view) := by
    simp only [List.flatMap_map, List.map_flatMap, BindingForm.entries_copy h]
  -- What is kept depends on the place of a name only, so filtering may come before or after.
  have hview (found : List Entry) :
      (found.filter (Entry.isKept (excluded.shift k))).map (Entry.viewDoc view) =
        (found.map (Entry.viewDoc view)).filter (Entry.isKept (excluded.shift k)) := by
    simp only [List.filter_map, Function.comp_def, Entry.isKept_viewDoc]
  have hshift (found : List Entry) :
      (found.map (Entry.shift k)).filter (Entry.isKept (excluded.shift k)) =
        (found.filter (Entry.isKept excluded)).map (Entry.shift k) := by
    simp only [List.filter_map, Function.comp_def, Entry.isKept_shift]
  simp only [collectPass, hforms]
  apply foldl_add_copy ht
  rw [hview, hentries, ← hview, hshift]

/-- The bindings of a copy are those of the document, moved, and their documentation looks the
same. -/
theorem ofSource_copy (h : src.Copies view k copy) (mode : Mode) :
    (ofSource copy mode).viewDoc view = ((ofSource src mode).shift k).viewDoc view := by
  have hpasses (passes : List Category) {t moved : Table}
      (ht : moved.viewDoc view = (t.shift k).viewDoc view) :
      (passes.foldl (collectPass copy ((src.layout.excluded mode).shift k)
        ((BindingForm.all src (src.layout.excluded mode)).map (BindingForm.shift k)))
          moved).viewDoc view =
      ((passes.foldl (collectPass src (src.layout.excluded mode)
        (BindingForm.all src (src.layout.excluded mode))) t).shift k).viewDoc view := by
    induction passes generalizing t moved with
    | nil => exact ht
    | cons c rest ih => exact ih (collectPass_copy h _ _ c ht)
  rw [ofSource, h.layout, Layout.excluded_shift, BindingForm.all_copy h]
  exact hpasses Category.all rfl

end Table

end LexScope
