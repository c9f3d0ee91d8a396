import LexScope.Proofs.Binding.Heads
import LexScope.Proofs.Binding.Shift
import LexScope.Proofs.Form.SexpDocument

/-!
# Documentation is read as it was meant

A writer who puts a text between quotes escapes the quotes and backslashes in it. Whatever the text
is, brackets, comment signs and quotes included, the definition that the literal stands in gets that
text as its documentation, and nothing else in the document is read differently.

The forms are those in which each way of finding documentation is used: after the value of a
variable, before the body of a function, in an option, and before the body of a local function. A
literal that is the whole body of a function is its value and documents nothing.
-/

namespace LexScope

open Byte Utf8

/-! ## Literals -/

/-- Removing the escapes undoes escaping. -/
theorem unescape_flatMap_escapeChar (contents : List Char) :
    unescape (contents.flatMap escapeChar) = contents := by
  induction contents with
  | nil => rfl
  | cons c rest ih =>
    rw [List.flatMap_cons, escapeChar]
    split
    · simp [unescape, ih]
    · next hplain => rw [List.singleton_append, unescape_cons (not_or.1 hplain).2, ih]

private theorem literalContents_literal (contents : List Char) :
    literalContents (literal contents) = some contents := by
  rw [literal, literalContents]
  simp [unescape_flatMap_escapeChar]

/-- An escaped quote does not end the contents. -/
example : literalContents ['"', '(', '\\', '"', ';', '"'] = some ['(', '"', ';'] := by rfl

variable {src : Source} {pos : Nat}

/-- A printed string is read as its contents. -/
theorem Datum.PrintedAt.stringAt {contents : List Char}
    (h : PrintedAt src pos (.string [] contents)) :
    src.stringAt ((string [] contents).node pos) = some (String.ofList contents) := by
  have hstring : ((string [] contents).node pos).element.isString = true := rfl
  have hbody : (string [] contents).body = literal contents := rfl
  rw [Source.stringAt, if_pos hstring, h.textAt, hbody, String.toList_ofList,
    literalContents_literal, Option.map_some]

/-! ## Where documentation is looked for -/

section Search

variable {n head value : Node} {rest : List Node}

private theorem Source.bodyDoc_cons_string (hstring : n.element.isString = true)
    (hquoted : n.quoted = false) (next : Node) :
    src.bodyDoc (n :: next :: rest) = src.stringAt n := by
  simp [bodyDoc, hstring, hquoted]

private theorem Source.bodyDoc_singleton_string (hstring : n.element.isString = true)
    (hquoted : n.quoted = false) : src.bodyDoc [n] = none := by
  simp [bodyDoc, hstring, hquoted]

private theorem Source.optionDoc_cons_string (hkind : n.element.kind = .string)
    (hquoted : n.quoted = false) : src.optionDoc (n :: rest) = src.stringAt n := by
  simp [optionDoc, hkind, hquoted]

private theorem Source.optionDoc_cons_option {p : Pair} {doc : String}
    (hkind : n.element.kind = .group p) (hitems : n.items = [head, value])
    (hhead : src.isDocumentationKeyword head = true) (hvalue : src.stringAt value = some doc) :
    src.optionDoc (n :: rest) = some doc := by
  simp [optionDoc, documentationOption, hkind, hitems, hhead, hvalue]

namespace Definition

variable {d : Definer} {form : Pair} {first list : Node} {operands : List Node} {x : NameSite}

private theorem nameOf_of_nameAt (hname : src.nameAt first = some x) (hd : d ≠ .package) :
    nameOf src d first = some x := by
  have hatom : first.element.isAtom = true ∧ first.quoted = false := by
    rw [Source.nameAt] at hname
    split at hname
    · next hatom => simpa using hatom
    · cases hname
  have hkind : first.element.kind = .atom := by simpa [Element.isAtom] using hatom.1
  simp [nameOf, hatom.2, hkind, hd, hname]

/-- A variable takes its documentation from what follows its value. -/
theorem entries_of_hasInitValue (hd : d.hasInitValue = true) (hname : src.nameAt first = some x) :
    entries src form d (first :: value :: operands) =
      [.binding .globalDefinition { Binding.global x.name x.site d.kind form.span with
        doc := src.optionDoc operands }] := by
  have hpackage : d ≠ .package := by
    rintro rfl
    cases hd
  rw [entries, nameOf_of_nameAt hname hpackage]
  cases d <;> first | rfl | cases hd

/-- A function takes its documentation from its body, or from its options if it has none. -/
theorem entries_of_ordinary {ps : List Parameter} (hd : d.lambdaList = .ordinary)
    (hname : src.nameAt first = some x) (hlist : src.parametersAt list false = some ps) :
    entries src form d (first :: list :: operands) = parameters x.name form (some ps) ++
      [.binding .globalDefinition { Binding.global x.name x.site d.kind form.span with
        doc := if d.hasBody then src.bodyDoc operands else src.optionDoc operands }] := by
  have hpackage : d ≠ .package := by
    rintro rfl
    cases hd
  rw [entries, nameOf_of_nameAt hname hpackage]
  simp [lists, hd, hlist]

private theorem parameters_singleton {name : String} {p : Parameter}
    (h : p.visibleFrom ≤ form.closing) :
    parameters name form (some [p]) =
      [.binding .globalParameter (.lexical p.name p.site .parameter name
        ⟨p.visibleFrom, form.closing⟩ form.span)] := by
  simp [parameters, Entry.parameters, Entry.lexical, scopeIn, h]

end Definition

/-- A local function without parameters takes its documentation from its body. -/
theorem LocalFunction.definitionEntries_of_items {f : LocalFunctionForm} {form list p : Pair}
    {keyword : String} {first params : Node} {body : List Node} {x : NameSite}
    (hitems : src.items p = first :: params :: body) (hname : src.nameAt first = some x)
    (hparams : src.parametersAt params (f == .macrolet) = some [])
    (hscope : visibleFrom f list ≤ form.closing) :
    definitionEntries src form keyword f list p =
      [.binding .localDefinition
        { Binding.lexical x.name x.site (kind f) keyword ⟨visibleFrom f list, form.closing⟩ p.span
          with doc := src.bodyDoc body }] := by
  simp [definitionEntries, hitems, hname, hparams, scopeIn, hscope, Entry.parameters]

end Search

/-! ## Names and lists of names -/

/-- A plain word. -/
def spelled (text : String)
    (h : (!text.toList.isEmpty && (encode text.toList).all isPlain) = true := by decide) : Datum :=
  .atom [] (.word
    { chars := text.toList
      nonempty := by simpa using (Bool.and_eq_true_iff.1 h).1
      plain := by simpa using (Bool.and_eq_true_iff.1 h).2 })

/-- Data in brackets, one space apart. -/
def row (items : List Datum) : Datum := .list [] (fun _ => .space) items

/-- The text is a name in small letters. -/
def IsName (text : String) : Prop :=
  lowerCase text = text ∧ isBindable text = true ∧ text.toList.head? ≠ some '&'

section Names

variable {text : String} {h : (!text.toList.isEmpty && (encode text.toList).all isPlain) = true}

private theorem textAt_spelled (hword : (spelled text h).PrintedAt src pos) :
    src.textAt ((spelled text h).node pos) = text :=
  hword.textAt.trans String.ofList_toList

private theorem nameAt_spelled (hword : (spelled text h).PrintedAt src pos) (hname : IsName text) :
    src.nameAt ((spelled text h).node pos) =
      some ⟨text, ⟨pos, (spelled text h).stopAt pos⟩⟩ := by
  have hatom : (((spelled text h).node pos).element.isAtom &&
      !((spelled text h).node pos).quoted) = true := rfl
  rw [Source.nameAt, if_pos hatom]
  simp only [textAt_spelled hword, hname.1, hname.2.1, if_true]
  rfl

private theorem parametersAt_row_nil (destructuring : Bool) :
    src.parametersAt ((row []).node pos) destructuring = some [] := by
  have hnode : (row []).node pos =
      .mk ⟨.group ⟨pos, pos + 1⟩, ⟨pos, pos + 2⟩, pos, false⟩ [] := rfl
  simp [hnode, Source.parametersAt, Node.element, Node.quoted, Node.items, LambdaList.ofEntries]

/-- A list with one name has one parameter, visible from the end of the name. -/
theorem parametersAt_row_name (hlist : (row [spelled text h]).PrintedAt src pos)
    (hname : IsName text) :
    src.parametersAt ((row [spelled text h]).node pos) false =
      some [⟨text, ⟨pos + 1, (spelled text h).stopAt (pos + 1)⟩,
        (spelled text h).stopAt (pos + 1)⟩] := by
  have hword : (spelled text h).PrintedAt src (pos + 1) :=
    hlist.of_mem_parts (List.mem_cons_of_mem _ List.mem_cons_self)
  have htext := textAt_spelled hword
  have hitem : (spelled text h).node (pos + 1) =
      .mk ⟨.atom, ⟨pos + 1, (spelled text h).stopAt (pos + 1)⟩, pos + 1, false⟩ [] := rfl
  have hnode : (row [spelled text h]).node pos =
      .mk ⟨.group ⟨pos, (row [spelled text h]).stopAt pos - 1⟩,
        ⟨pos, (row [spelled text h]).stopAt pos⟩, pos, false⟩
        [(spelled text h).node (pos + 1)] := rfl
  rw [hitem] at htext hnode
  have hslice : src.slice ⟨pos + 1, (spelled text h).stopAt (pos + 1)⟩ = text := htext
  obtain ⟨hlower, hbindable, hmarker⟩ := hname
  simp [hnode, Source.parametersAt, Node.element, Node.quoted, Node.items, Node.stop, Element.stop,
    LambdaList.ofEntries, LambdaList.ofEntry, LambdaList.partAfter, LambdaList.parameterAt, htext,
    hslice, hlower, hbindable, hmarker]

/-- A function with one parameter binds the parameter and its name. -/
theorem Definition.entries_of_printed {d : Definer} {form : Pair} {operands : List Node}
    {name param : String} {p q : Nat}
    {hn : (!name.toList.isEmpty && (encode name.toList).all isPlain) = true}
    {hp : (!param.toList.isEmpty && (encode param.toList).all isPlain) = true}
    (hd : d.lambdaList = .ordinary) (hname : (spelled name hn).PrintedAt src p)
    (hlist : (row [spelled param hp]).PrintedAt src q) (hnames : IsName name ∧ IsName param)
    (hscope : (spelled param hp).stopAt (q + 1) ≤ form.closing) :
    entries src form d ((spelled name hn).node p :: (row [spelled param hp]).node q :: operands) =
      [.binding .globalParameter (.lexical param ⟨q + 1, (spelled param hp).stopAt (q + 1)⟩
          .parameter name ⟨(spelled param hp).stopAt (q + 1), form.closing⟩ form.span),
        .binding .globalDefinition
          { Binding.global name ⟨p, (spelled name hn).stopAt p⟩ d.kind form.span with
            doc := if d.hasBody then src.bodyDoc operands else src.optionDoc operands }] := by
  have hparams := parametersAt_row_name hlist hnames.2
  rw [entries_of_ordinary hd (nameAt_spelled hname hnames.1) hparams, parameters_singleton hscope]
  rfl

end Names

/-! ## Places of a literal -/

/-- Where a literal may stand: at four places it documents what is defined, and at the last one it
is a value. -/
inductive DocPlace where
  /-- `(defvar v 0 "...")` -/
  | afterValue
  /-- `(defun f (x) "..." x)` -/
  | beforeBody
  /-- `(defgeneric g (x) (:documentation "..."))` -/
  | inOption
  /-- `(flet ((h () "..." 1)) (h))` -/
  | beforeLocalBody
  /-- `(defun f (x) "...")` -/
  | wholeBody

namespace DocPlace

/-- The document up to the literal. -/
def before : DocPlace → String
  | afterValue => "(defvar v 0 "
  | beforeBody | wholeBody => "(defun f (x) "
  | inOption => "(defgeneric g (x) (:documentation "
  | beforeLocalBody => "(flet ((h () "

/-- The document behind the literal. -/
def after : DocPlace → String
  | afterValue | wholeBody => ")"
  | beforeBody => " x)"
  | inOption => "))"
  | beforeLocalBody => " 1)) (h))"

/-- The document with the literal of a text. -/
def text (place : DocPlace) (s : String) : String :=
  place.before ++ String.ofList (literal s.toList) ++ place.after

/-- Where the literal starts. -/
def start : DocPlace → Nat
  | afterValue => 12
  | beforeBody | beforeLocalBody | wholeBody => 13
  | inOption => 34

/-- Where the literal of some characters ends. -/
def stop (place : DocPlace) (contents : List Char) : Nat :=
  place.start + (encode (literal contents)).length

/-- The documentation that the text becomes. -/
def doc (place : DocPlace) (s : String) : Option String :=
  match place with
  | wholeBody => none
  | _ => some s

/-- The collection of what is defined. -/
def collection : DocPlace → Collection
  | beforeLocalBody => .localDefinition
  | _ => .globalDefinition

/-- What is defined, without its documentation, if the literal ends at `stop`. -/
def definition (stop : Nat) : DocPlace → Binding
  | afterValue => .global "v" ⟨8, 9⟩ .specialVariable ⟨0, stop + 1⟩
  | beforeBody => .global "f" ⟨7, 8⟩ .function ⟨0, stop + 3⟩
  | inOption => .global "g" ⟨12, 13⟩ .genericFunction ⟨0, stop + 2⟩
  | beforeLocalBody =>
    .lexical "h" ⟨8, 9⟩ .localFunction "flet" ⟨stop + 4, stop + 8⟩ ⟨7, stop + 3⟩
  | wholeBody => .global "f" ⟨7, 8⟩ .function ⟨0, stop + 1⟩

/-- The parameters of what is defined, if the literal ends at `stop`. -/
def parameters (stop : Nat) : DocPlace → List Binding
  | beforeBody => [.lexical "x" ⟨10, 11⟩ .parameter "f" ⟨11, stop + 2⟩ ⟨0, stop + 3⟩]
  | inOption => [.lexical "x" ⟨15, 16⟩ .parameter "g" ⟨16, stop + 1⟩ ⟨0, stop + 2⟩]
  | wholeBody => [.lexical "x" ⟨10, 11⟩ .parameter "f" ⟨11, stop⟩ ⟨0, stop + 1⟩]
  | afterValue | beforeLocalBody => []

/-- What the document binds, if the literal ends at `stop`. -/
def entries (place : DocPlace) (stop : Nat) (doc : Option String) : List Entry :=
  (place.parameters stop).map (.binding .globalParameter) ++
    [.binding place.collection { place.definition stop with doc := doc }]

/-- The bindings of the document, if the literal ends at `stop`. -/
def table (place : DocPlace) (stop : Nat) (doc : Option String) : Table :=
  (place.entries stop doc).foldl Table.add {}

end DocPlace

/-! ## Offsets behind the literal -/

/-- The span with its offsets changed. -/
def Span.relocate (g : Nat → Nat) (s : Span) : Span := ⟨g s.start, g s.stop⟩

/-- The binding with its offsets changed. -/
def Binding.relocate (g : Nat → Nat) (b : Binding) : Binding :=
  { b with
    scope := b.scope.map (Span.relocate g)
    site := b.site.relocate g
    form := b.form.relocate g
    stepWindow := b.stepWindow.map (Span.relocate g) }

/-- The binding without its documentation. -/
def Binding.withoutDoc (b : Binding) : Binding := { b with doc := none }

namespace DocPlace

/-- Offsets from `stop` on are moved so that `stop` becomes `stop'`. -/
def onward (stop stop' offset : Nat) : Nat :=
  if offset < stop then offset else offset - stop + stop'

/-! ## Printing -/

/-- The form of the document. -/
def datum (place : DocPlace) (contents : List Char) : Datum :=
  let lit : Datum := .string [] contents
  match place with
  | afterValue => row [spelled "defvar", spelled "v", .atom [] (.number 0), lit]
  | beforeBody => row [spelled "defun", spelled "f", row [spelled "x"], lit, spelled "x"]
  | inOption =>
    row [spelled "defgeneric", spelled "g", row [spelled "x"],
      row [spelled ":documentation", lit]]
  | beforeLocalBody =>
    row [spelled "flet", row [row [spelled "h", row [], lit, .atom [] (.number 1)]],
      row [spelled "h"]]
  | wholeBody => row [spelled "defun", spelled "f", row [spelled "x"], lit]

/-- The form that binds. -/
def form (place : DocPlace) (stop : Nat) : BindingForm :=
  match place with
  | afterValue => ⟨⟨0, stop⟩, .global .specialVariable⟩
  | beforeBody => ⟨⟨0, stop + 2⟩, .global .function⟩
  | inOption => ⟨⟨0, stop + 1⟩, .global .genericFunction⟩
  | beforeLocalBody => ⟨⟨0, stop + 8⟩, .localFunctions .flet⟩
  | wholeBody => ⟨⟨0, stop⟩, .global .function⟩

/-- The lists of the document that start with a word. -/
def words (place : DocPlace) (stop : Nat) : List (Pair × String) :=
  match place with
  | afterValue => [(⟨0, stop⟩, "defvar")]
  | beforeBody => [(⟨0, stop + 2⟩, "defun"), (⟨9, 11⟩, "x")]
  | inOption => [(⟨0, stop + 1⟩, "defgeneric"), (⟨14, 16⟩, "x"), (⟨18, stop⟩, ":documentation")]
  | beforeLocalBody =>
    [(⟨0, stop + 8⟩, "flet"), (⟨7, stop + 2⟩, "h"), (⟨stop + 5, stop + 7⟩, "h")]
  | wholeBody => [(⟨0, stop⟩, "defun"), (⟨9, 11⟩, "x")]

variable (place : DocPlace) (contents : List Char)

private theorem chars_datum :
    (place.datum contents).chars =
      place.before.toList ++ (literal contents ++ place.after.toList) := by
  have hzero : Nat.toDigits 10 0 = ['0'] := rfl
  have hone : Nat.toDigits 10 1 = ['1'] := rfl
  cases place <;>
    simp [datum, row, spelled, Datum.chars, Datum.charsFrom, Gap.lead, Gap.chars, Atom.chars,
      before, after, hzero, hone]

private theorem text_eq (s : String) : place.text s = String.ofList
    (place.datum s.toList).chars := by
  rw [chars_datum, ← String.toList_inj]
  simp [text]

private theorem words_datum :
    ((place.datum contents).parts 0).filterMap (fun x => x.2.headed? x.1) =
      place.words (place.stop contents) := by
  cases place <;> rfl

/-- The document with the literal of a text, as it is read. -/
abbrev source : Source := .ofText (String.ofList (place.datum contents).chars)

variable {place : DocPlace} {contents : List Char}

variable (place contents) in
private theorem printedAt_source : (place.datum contents).PrintedAt (place.source contents) 0 :=
  Datum.printedAt_ofText _

/-- A part of the form is printed at its own place. -/
theorem printedAt_part {d : Datum} {i : Nat} (h : (place.datum contents).PrintedAt src 0)
    (hpart : ((place.datum contents).parts 0)[i]? = some (pos, d)) : d.PrintedAt src pos :=
  h.of_mem_parts (List.mem_of_getElem? hpart)

private theorem pairs_source : (place.source contents).layout.pairs.pairs =
    ((place.datum contents).parts 0).filterMap fun x => x.2.bracket? x.1 :=
  Datum.pairs_ofText _

/-! ## What is left out -/

private theorem marksNothing_before : ∀ b ∈ bytes place.before, MarksNothing b := by
  have hall : (bytes place.before).all (fun b => b != quote && b != backquote && b != comma) =
      true := by
    cases place <;> decide
  simpa [MarksNothing, and_assoc] using hall

private theorem marksNothing_after : ∀ b ∈ bytes place.after, MarksNothing b := by
  have hall : (bytes place.after).all (fun b => b != quote && b != backquote && b != comma) =
      true := by
    cases place <;> decide
  simpa [MarksNothing, and_assoc] using hall

private theorem bytes_source : (place.source contents).bytes =
    bytes place.before ++ (encode (literal contents) ++ bytes place.after) := by
  rw [source, Source.ofText, bytes, String.toList_ofList, chars_datum, encode_append,
    encode_append]
  rfl

private theorem start_eq : place.start = (bytes place.before).length := by
  cases place <;> rfl

private theorem start_lt_stop : place.start < place.stop contents := by
  rw [stop, literal, encode_cons_ascii (by decide)]
  simp

private theorem separated_literal : SpanSet.Separated [⟨place.start, place.stop contents⟩] :=
  ⟨by simpa using start_lt_stop, List.pairwise_singleton _ _⟩

private theorem strings_source :
    (place.source contents).layout.strings = ⟨[⟨place.start, place.stop contents⟩]⟩ := by
  have hstrings : (place.source contents).layout.strings.spans =
      [⟨place.start, place.stop contents⟩] := by
    refine (Datum.madeOf_ofText _).strings.trans ?_
    cases place <;> rfl
  exact congrArg SpanSet.mk hstrings

private theorem commentsAndStrings_source :
    (place.source contents).layout.commentsAndStrings = ⟨[⟨place.start, place.stop contents⟩]⟩ := by
  have hcomments : (place.source contents).layout.comments.spans = [] := by
    refine (Datum.madeOf_ofText _).comments.trans ?_
    cases place <;> rfl
  rw [Layout.commentsAndStrings, SpanSet.union, hcomments, strings_source, List.nil_append]
  exact congrArg SpanSet.mk (SpanSet.spans_ofList (.refl _) separated_literal)

/-- A marker can only stand in the literal. -/
theorem contains_strings_source {m : Marker} {i : Nat}
    (h : (place.source contents).bytes[i]? = some m.byte) :
    (place.source contents).layout.strings.contains i = true := by
  rw [bytes_source] at h
  have hbefore : ¬i < place.start := by
    intro hlt
    rw [start_eq] at hlt
    rw [List.getElem?_append_left hlt] at h
    exact (marksNothing_before _ (List.mem_of_getElem? h)).ne m rfl
  have hafter : ¬place.stop contents ≤ i := by
    intro hle
    rw [stop, start_eq] at hle
    rw [List.getElem?_append_right (by omega), List.getElem?_append_right (by omega)] at h
    exact (marksNothing_after _ (List.mem_of_getElem? h)).ne m rfl
  have hcontains : Span.contains ⟨place.start, place.stop contents⟩ i = true :=
    Span.contains_iff.2 ⟨Nat.not_lt.1 hbefore, Nat.not_le.1 hafter⟩
  rw [strings_source, SpanSet.contains_iff_of_separated separated_literal]
  exact ⟨_, List.mem_singleton_self _, hcontains⟩

private theorem markers_source (m : Marker) :
    (place.source contents).layout.markers m = ⟨[], []⟩ := by
  have hlayout : (place.source contents).layout =
      Layout.ofBytes (place.source contents).bytes := rfl
  rw [hlayout]
  exact Layout.markers_eq_nil fun i hi => contains_strings_source hi

/-- A mode leaves out the literal or nothing. -/
theorem excluded_source (mode : Mode) : (place.source contents).layout.excluded mode = ⟨[]⟩ ∨
    (place.source contents).layout.excluded mode = ⟨[⟨place.start, place.stop contents⟩]⟩ := by
  rw [Layout.excluded, Layout.dataOf_of_unmarked markers_source, commentsAndStrings_source]
  split
  · exact .inr (congrArg SpanSet.mk (SpanSet.spans_ofList (.refl _) separated_literal))
  · exact .inl rfl

/-- Nothing outside the literal is left out. -/
theorem contains_excluded (mode : Mode) {offset : Nat}
    (h : offset < place.start ∨ place.stop contents ≤ offset) :
    ((place.source contents).layout.excluded mode).contains offset = false := by
  rcases excluded_source mode with hmode | hmode <;> rw [hmode]
  · rfl
  · rw [Bool.eq_false_iff, ne_eq, SpanSet.contains_iff_of_separated separated_literal]
    rintro ⟨s, hs, hcontains⟩
    rw [List.mem_singleton.1 hs, Span.contains_iff] at hcontains
    simp only at hcontains
    omega

private theorem meets_excluded (mode : Mode) {site : Span} (hproper : site.start < site.stop)
    (h : site.stop ≤ place.start) :
    ((place.source contents).layout.excluded mode).meets site = false := by
  refine SpanSet.meets_eq_false ?_ hproper fun offset hoffset => contains_excluded mode (.inl ?_)
  · rcases excluded_source mode with hmode | hmode <;> rw [hmode]
    · exact ⟨nofun, .nil⟩
    · exact separated_literal
  · have := (Span.contains_iff.1 hoffset).2
    omega

/-! ## What is bound

Each place is read once. The parts of its form stand at fixed offsets up to the literal, and behind
it at sums that start with its end, so that the trees of the parts are computed and only the literal
and the names have to be read.
-/

variable (place contents) in
private theorem start_le_stop : place.start ≤ place.stop contents := Nat.le_of_lt start_lt_stop

/-- One of the forms binds. -/
theorem all_source (mode : Mode) :
    BindingForm.all (place.source contents) ((place.source contents).layout.excluded mode) =
      [place.form (place.stop contents)] := by
  have hle : place.start ≤ place.stop contents := start_le_stop place contents
  have houtside : ∀ x ∈ place.words (place.stop contents),
      (!((place.source contents).layout.excluded mode).contains x.1.opening) = true := by
    intro x hx
    rw [contains_excluded mode]
    · rfl
    · generalize place.stop contents = stop at hx hle ⊢
      cases place <;> simp [words, start] at hx hle ⊢ <;> grind
  rw [BindingForm.all_eq, Datum.words_ofText, words_datum, List.filter_eq_self.2 houtside]
  have hdefvar : Head.classify "defvar" = some (.global .specialVariable) := rfl
  have hdefun : Head.classify "defun" = some (.global .function) := rfl
  have hdefgeneric : Head.classify "defgeneric" = some (.global .genericFunction) := rfl
  have hflet : Head.classify "flet" = some (.localFunctions .flet) := rfl
  have hx : Head.classify "x" = none := rfl
  have hh : Head.classify "h" = none := rfl
  have hkeyword : Head.classify ":documentation" = none := rfl
  cases place <;> simp [words, form, hdefvar, hdefun, hdefgeneric, hflet, hx, hh, hkeyword]

private theorem isName_of_mem : ∀ text ∈ ["v", "f", "g", "h", "x"], IsName text := by
  unfold IsName
  decide

private theorem entries_afterValue (h : (datum afterValue contents).PrintedAt src 0) :
    (form afterValue (stop afterValue contents)).entries src =
      entries afterValue (stop afterValue contents) (some (String.ofList contents)) := by
  let lit : Datum := .string [] contents
  have hv : (spelled "v").PrintedAt src 8 := printedAt_part (i := 2) h rfl
  have hlit : lit.PrintedAt src 12 := printedAt_part (i := 4) h rfl
  have hitems : src.items (form afterValue (stop afterValue contents)).pair =
      [(spelled "defvar").node 1, (spelled "v").node 8, (Datum.atom [] (.number 0)).node 10,
        lit.node 12] := h.items_eq
  have hname := nameAt_spelled hv (isName_of_mem _ (by decide))
  have hdoc : src.optionDoc [lit.node 12] = some (String.ofList contents) :=
    (Source.optionDoc_cons_string rfl rfl).trans hlit.stringAt
  rw [BindingForm.entries, hitems]
  refine (Definition.entries_of_hasInitValue (d := .specialVariable) rfl hname).trans ?_
  rw [hdoc]
  rfl

private theorem entries_beforeBody (h : (datum beforeBody contents).PrintedAt src 0) :
    (form beforeBody (stop beforeBody contents)).entries src =
      entries beforeBody (stop beforeBody contents) (some (String.ofList contents)) := by
  let lit : Datum := .string [] contents
  have hf : (spelled "f").PrintedAt src 7 := printedAt_part (i := 2) h rfl
  have hx : (row [spelled "x"]).PrintedAt src 9 := printedAt_part (i := 3) h rfl
  have hlit : lit.PrintedAt src 13 := printedAt_part (i := 5) h rfl
  have hitems : src.items (form beforeBody (stop beforeBody contents)).pair =
      [(spelled "defun").node 1, (spelled "f").node 7, (row [spelled "x"]).node 9, lit.node 13,
        (spelled "x").node (stop beforeBody contents + 1)] := h.items_eq
  have hnames : IsName "f" ∧ IsName "x" :=
    ⟨isName_of_mem _ (by decide), isName_of_mem _ (by decide)⟩
  have hscope : 11 ≤ stop beforeBody contents + 2 := by
    have : 13 ≤ stop beforeBody contents := start_le_stop beforeBody contents
    omega
  rw [BindingForm.entries, hitems]
  refine Eq.trans (Definition.entries_of_printed (d := .function) rfl hf hx hnames hscope) ?_
  rw [Source.bodyDoc_cons_string rfl rfl, hlit.stringAt]
  rfl

private theorem entries_wholeBody (h : (datum wholeBody contents).PrintedAt src 0) :
    (form wholeBody (stop wholeBody contents)).entries src =
      entries wholeBody (stop wholeBody contents) none := by
  have hf : (spelled "f").PrintedAt src 7 := printedAt_part (i := 2) h rfl
  have hx : (row [spelled "x"]).PrintedAt src 9 := printedAt_part (i := 3) h rfl
  have hitems : src.items (form wholeBody (stop wholeBody contents)).pair =
      [(spelled "defun").node 1, (spelled "f").node 7, (row [spelled "x"]).node 9,
        (Datum.string [] contents).node 13] := h.items_eq
  have hnames : IsName "f" ∧ IsName "x" :=
    ⟨isName_of_mem _ (by decide), isName_of_mem _ (by decide)⟩
  have hscope : 11 ≤ stop wholeBody contents := by
    have : 13 ≤ stop wholeBody contents := start_le_stop wholeBody contents
    omega
  rw [BindingForm.entries, hitems]
  refine Eq.trans (Definition.entries_of_printed (d := .function) rfl hf hx hnames hscope) ?_
  rw [Source.bodyDoc_singleton_string rfl rfl]
  rfl

private theorem entries_inOption (h : (datum inOption contents).PrintedAt src 0) :
    (form inOption (stop inOption contents)).entries src =
      entries inOption (stop inOption contents) (some (String.ofList contents)) := by
  let lit : Datum := .string [] contents
  let option : Datum := row [spelled ":documentation", lit]
  have hg : (spelled "g").PrintedAt src 12 := printedAt_part (i := 2) h rfl
  have hx : (row [spelled "x"]).PrintedAt src 14 := printedAt_part (i := 3) h rfl
  have hword : (spelled ":documentation").PrintedAt src 19 := printedAt_part (i := 6) h rfl
  have hlit : lit.PrintedAt src 34 := printedAt_part (i := 7) h rfl
  have hitems : src.items (form inOption (stop inOption contents)).pair =
      [(spelled "defgeneric").node 1, (spelled "g").node 12, (row [spelled "x"]).node 14,
        option.node 18] := h.items_eq
  have hnames : IsName "g" ∧ IsName "x" :=
    ⟨isName_of_mem _ (by decide), isName_of_mem _ (by decide)⟩
  have hscope : 16 ≤ stop inOption contents + 1 := by
    have : 34 ≤ stop inOption contents := start_le_stop inOption contents
    omega
  have hkeyword : src.isDocumentationKeyword ((spelled ":documentation").node 19) = true := by
    have hatom : ((spelled ":documentation").node 19).element.isAtom = true := rfl
    rw [Source.isDocumentationKeyword, hatom, Source.isWord, textAt_spelled hword]
    decide
  have hdoc : src.optionDoc [option.node 18] = some (String.ofList contents) :=
    Source.optionDoc_cons_option rfl rfl hkeyword hlit.stringAt
  rw [BindingForm.entries, hitems]
  refine Eq.trans (Definition.entries_of_printed (d := .genericFunction) rfl hg hx hnames hscope) ?_
  rw [hdoc]
  rfl

/-- The list of definitions holds one definition; its parameters are nested in it, and the call
comes behind the list. -/
theorem children_definitions {stop : Nat} (hstop : 13 ≤ stop)
    (hpairs : src.layout.pairs.pairs =
      [⟨0, stop + 8⟩] ++ ⟨6, stop + 3⟩ ::
        [⟨7, stop + 2⟩, ⟨10, 11⟩, ⟨stop + 5, stop + 7⟩]) :
    src.layout.pairs.children ⟨6, stop + 3⟩ = [⟨7, stop + 2⟩] := by
  have hdrop : [⟨10, 11⟩, ⟨stop + 5, stop + 7⟩].dropWhile
      (fun q : Pair => decide (q.opening ≤ stop + 2)) = [⟨stop + 5, stop + 7⟩] := by
    rw [List.dropWhile_cons_of_pos (by simp; omega), List.dropWhile_cons_of_neg (by simp)]
  rw [PairIndex.children_of_pairs hpairs (by simp), PairIndex.siblings,
    if_pos (by simp only; omega), hdrop, PairIndex.siblings, if_neg (by simp)]

private theorem entries_beforeLocalBody (h : (datum beforeLocalBody contents).PrintedAt src 0)
    (hpairs : src.layout.pairs.pairs =
      ((datum beforeLocalBody contents).parts 0).filterMap fun x => x.2.bracket? x.1) :
    (form beforeLocalBody (stop beforeLocalBody contents)).entries src =
      entries beforeLocalBody (stop beforeLocalBody contents) (some (String.ofList contents)) := by
  let lit : Datum := .string [] contents
  let one : Datum := .atom [] (.number 1)
  let definition : Datum := row [spelled "h", row [], lit, one]
  let body : List Node := [(row [spelled "h"]).node (stop beforeLocalBody contents + 5)]
  let outer : Pair := ⟨0, stop beforeLocalBody contents + 8⟩
  let list : Pair := ⟨6, stop beforeLocalBody contents + 3⟩
  have hflet : (spelled "flet").PrintedAt src 1 := printedAt_part (i := 1) h rfl
  have hdefinition : definition.PrintedAt src 7 := printedAt_part (i := 3) h rfl
  have hh : (spelled "h").PrintedAt src 8 := printedAt_part (i := 4) h rfl
  have hlit : lit.PrintedAt src 13 := printedAt_part (i := 6) h rfl
  have hitems : src.items outer = (spelled "flet").node 1 :: (row [definition]).node 6 :: body :=
    h.items_eq
  have hinner : src.items ⟨7, stop beforeLocalBody contents + 2⟩ =
      [(spelled "h").node 8, (row []).node 10, lit.node 13,
        one.node (stop beforeLocalBody contents + 1)] := hdefinition.items_eq
  have hname := nameAt_spelled hh (isName_of_mem _ (by decide))
  have hscope : LocalFunction.visibleFrom .flet list ≤ outer.closing :=
    Nat.add_le_add_left (by decide : 4 ≤ 8) _
  have hdoc : src.bodyDoc [lit.node 13, one.node (stop beforeLocalBody contents + 1)] =
      some (String.ofList contents) := (Source.bodyDoc_cons_string rfl rfl _).trans hlit.stringAt
  have hkeyword : keywordOf (src.textAt ((spelled "flet").node 1)) = "flet" := by
    rw [textAt_spelled hflet]
    decide
  have hlist : LocalFunction.entries src outer "flet" .flet ((row [definition]).node 6 :: body) =
      (src.layout.pairs.children list).flatMap
        (LocalFunction.definitionEntries src outer "flet" .flet list) := rfl
  have hpair : (form beforeLocalBody (stop beforeLocalBody contents)).pair = outer := rfl
  rw [BindingForm.entries, hpair, hitems]
  simp only [hkeyword]
  refine hlist.trans ?_
  rw [children_definitions (start_le_stop beforeLocalBody contents) hpairs,
    List.flatMap_singleton, LocalFunction.definitionEntries_of_items hinner hname
      (parametersAt_row_nil _) hscope, hdoc]
  rfl

/-- The form binds what the place says. -/
theorem entries_source :
    (place.form (place.stop contents)).entries (place.source contents) =
      place.entries (place.stop contents) (place.doc (String.ofList contents)) := by
  have h := printedAt_source place contents
  cases place with
  | afterValue => exact entries_afterValue h
  | beforeBody => exact entries_beforeBody h
  | inOption => exact entries_inOption h
  | beforeLocalBody => exact entries_beforeLocalBody h pairs_source
  | wholeBody => exact entries_wholeBody h

/-- Every name stands before the literal, so that none is left out. -/
theorem isKept_of_mem_entries {stop : Nat} {doc : Option String} (mode : Mode) :
    ∀ e ∈ place.entries stop doc,
      e.isKept ((place.source contents).layout.excluded mode) = true := by
  have hsite : ∀ b ∈ place.parameters stop ++ [place.definition stop],
      b.site.start < b.site.stop ∧ b.site.stop ≤ place.start := by
    cases place <;> simp [parameters, definition, Binding.global, Binding.lexical, start]
  have hkept (c : Collection) (b : Binding)
      (hb : b.site.start < b.site.stop ∧ b.site.stop ≤ place.start) :
      (Entry.binding c b).isKept ((place.source contents).layout.excluded mode) = true := by
    rw [Entry.isKept, meets_excluded mode hb.1 hb.2]
    rfl
  intro e he
  rw [List.forall_mem_append, List.forall_mem_singleton] at hsite
  rcases List.mem_append.1 he with he | he
  · obtain ⟨b, hb, rfl⟩ := List.mem_map.1 he
    exact hkept _ b (hsite.1 b hb)
  · rw [List.mem_singleton.1 he]
    exact hkept _ _ hsite.2

private theorem table_analyze (settings : Settings) (place : DocPlace) (s : String) :
    (analyze settings (place.text s)).table = place.table (place.stop s.toList) (place.doc s) := by
  have hentries : (place.form (place.stop s.toList)).entries (place.source s.toList) =
      place.entries (place.stop s.toList) (place.doc s) := by
    rw [entries_source, String.ofList_toList]
  rw [analyze_eq, text_eq]
  simp only
  rw [Table.ofSource_of_all_eq (all_source settings.collection), hentries]
  · rfl
  · rw [hentries]
    exact isKept_of_mem_entries settings.collection

/-- Another literal moves what stands behind it and nothing else. -/
theorem map_table {stop stop' : Nat} (h : place.start ≤ stop) (doc : Option String) :
    (place.table stop doc).map (Binding.relocate (onward stop stop'))
      (Span.relocate (onward stop stop')) = place.table stop' doc := by
  have hbefore {k : Nat} (hk : k < place.start) : onward stop stop' k = k :=
    if_pos (Nat.lt_of_lt_of_le hk h)
  have hbehind (k : Nat) : onward stop stop' (stop + k) = stop' + k := by
    rw [onward, if_neg (by omega)]
    omega
  have hstop : onward stop stop' stop = stop' := hbehind 0
  have hentries : (place.entries stop doc).map (Entry.map (Binding.relocate (onward stop stop'))
      (Span.relocate (onward stop stop'))) = place.entries stop' doc := by
    -- Every offset is either fixed and before the literal or a sum that starts with its end.
    cases place <;>
      simp (disch := decide) [entries, parameters, definition, Entry.map, Binding.relocate,
        Span.relocate, Binding.global, Binding.lexical, hbefore, hbehind, hstop]
  rw [table, table, ← hentries]
  exact (Table.foldl_add_map _ {}).symm

private theorem map_withoutDoc_table (stop : Nat) (doc : Option String) :
    (place.table stop doc).map Binding.withoutDoc id = place.table stop none := by
  cases place <;> rfl

/-- What is collected from the document with the literal of a text. -/
structure Documents (settings : Settings) (place : DocPlace) (s : String) : Prop where
  /-- One thing is defined, and the text documents it, unless the literal is a value. -/
  defined : (analyze settings (place.text s)).table.globalDefinitions ++
      (analyze settings (place.text s)).table.localDefinitions =
    [{ place.definition (place.stop s.toList) with doc := place.doc s }]
  /-- These are all bindings. -/
  bindings : (analyze settings (place.text s)).table =
    place.table (place.stop s.toList) (place.doc s)
  /-- For another text the bindings are the same up to their documentation, with the offsets behind
  the literal moved with its end. -/
  moved : ∀ s' : String, (analyze settings (place.text s')).table.map Binding.withoutDoc id =
    ((analyze settings (place.text s)).table.map Binding.withoutDoc id).map
      (Binding.relocate (onward (place.stop s.toList) (place.stop s'.toList)))
      (Span.relocate (onward (place.stop s.toList) (place.stop s'.toList)))

/-- Whatever text a literal is made of, the definition that it documents gets that text, a literal
that is a value documents nothing, and but for the offsets behind the literal the rest of the
bindings does not depend on it. -/
theorem documents_analyze (settings : Settings) (place : DocPlace) (s : String) :
    place.Documents settings s := by
  constructor
  case bindings => exact table_analyze settings place s
  case defined =>
    rw [table_analyze]
    cases place <;> rfl
  case moved =>
    intro s'
    rw [table_analyze, table_analyze, map_withoutDoc_table, map_withoutDoc_table,
      map_table (start_le_stop place s.toList)]

end DocPlace

end LexScope
