import LexScope.Binding.Entry
import LexScope.Proofs.Binding.SmallWords
import LexScope.Proofs.Form.Sexp

/-!
# The grammar of lambda lists

A lambda list as its writer means it: required parameters, which may be lambda lists again, and then
sections that each start with a word of their own. This file says how a lambda list is printed and
which names it binds, and that the parameters read from the printed list are those names, each
visible from the end of the outermost element that it stands in.

A section can be read after any other, so the grammar leaves their order open.
-/

namespace LexScope.LambdaGrammar

open Byte Utf8 LambdaList

/-! ## Syntax -/

/-- The characters of names. -/
def isNameChar (c : Char) : Bool :=
  c == '-' || (decide ('0' ≤ c) && decide (c ≤ '9')) || (decide ('a' ≤ c) && decide (c ≤ 'z'))

/-- A name that a lambda list binds. -/
structure Name where
  /-- The name. -/
  text : String
  /-- It starts with a letter. -/
  letter : ∃ c ∈ text.toList.head?, 'a' ≤ c ∧ c ≤ 'z'
  /-- It has nothing but small letters, digits and hyphens. -/
  nameChars : ∀ c ∈ text.toList, isNameChar c = true
  /-- It is no constant. -/
  noConstant : text ≠ "nil" ∧ text ≠ "t"

/-- The words that open the sections of a lambda list. -/
inductive Opener where
  /-- Optional parameters follow. -/
  | optional
  /-- A parameter for what is left follows. -/
  | rest
  /-- A parameter for what is left follows, which is a body. -/
  | body
  /-- Parameters with keywords follow. -/
  | key
  /-- Other keywords are allowed. -/
  | allowOtherKeys
  /-- Variables that are no parameters follow. -/
  | aux

/-- A variable that is no parameter. -/
inductive AuxEntry where
  /-- A name. -/
  | name (x : Name)
  /-- A name with its value, `(x d)`. -/
  | init (x : Name) (value : Datum)

mutual

/-- What a parameter may be. -/
inductive Pattern where
  /-- A name. -/
  | name (x : Name)
  /-- A lambda list. -/
  | list (l : Parameters)

/-- A lambda list. -/
inductive Parameters where
  /-- Required parameters and the sections after them. -/
  | mk (required : List Pattern) (sections : List Section)

/-- A section of a lambda list, which starts with a word of its own. -/
inductive Section where
  /-- Optional parameters. -/
  | optional (entries : List OptionalEntry)
  /-- A parameter for what is left, after `&rest` or `&body`. -/
  | rest (isBody : Bool) (p : Pattern)
  /-- Parameters with keywords. -/
  | key (entries : List KeyEntry)
  /-- Other keywords are allowed. -/
  | allowOtherKeys
  /-- Variables that are no parameters. -/
  | aux (entries : List AuxEntry)

/-- An optional parameter. -/
inductive OptionalEntry where
  /-- A name. -/
  | name (x : Name)
  /-- A parameter with its default, `(p d)` or `(p d supplied)`. -/
  | full (p : Pattern) (default : Datum) (supplied : Option Name)

/-- A parameter with a keyword. -/
inductive KeyEntry where
  /-- A name. -/
  | name (x : Name)
  /-- A name with its default, `(x d)` or `(x d supplied)`. -/
  | full (x : Name) (default : Datum) (supplied : Option Name)
  /-- A parameter after its keyword with a default, `((k p) d)` or `((k p) d supplied)`. -/
  | keyed (keyword : Word) (p : Pattern) (default : Datum) (supplied : Option Name)

end

/-! ## Words -/

namespace Name

variable (x : Name)

private theorem exists_cons : ∃ c rest, x.text.toList = c :: rest ∧ 'a' ≤ c ∧ c ≤ 'z' := by
  obtain ⟨c, hmem, hc⟩ := x.letter
  cases htext : x.text.toList with
  | nil => simp [htext] at hmem
  | cons d rest =>
    obtain rfl : d = c := by simpa [htext] using hmem
    exact ⟨d, rest, rfl, hc⟩

private theorem isSmallChar : ∀ c ∈ x.text.toList, isSmallChar c = true := by
  intro c hmem
  have hc := x.nameChars c hmem
  simp only [isNameChar, Bool.or_eq_true] at hc
  rcases hc with (hc | hc) | hc <;>
    simp only [LexScope.isSmallChar, hc, Bool.or_true, Bool.true_or]

/-- The name as it is printed. -/
def word : Word where
  chars := x.text.toList
  nonempty := by
    obtain ⟨c, rest, htext, -⟩ := x.exists_cons
    simp [htext]
  plain := isPlain_of_mem_small x.isSmallChar

end Name

namespace Opener

/-- The word as it is written. -/
def text : Opener → String
  | optional => "&optional"
  | rest => "&rest"
  | body => "&body"
  | key => "&key"
  | allowOtherKeys => "&allow-other-keys"
  | aux => "&aux"

variable (w : Opener)

private theorem isSmallChar : ∀ c ∈ w.text.toList, isSmallChar c = true := by
  rw [← List.all_eq_true]
  cases w <;> decide

/-- The word as it is printed. -/
def word : Word where
  chars := w.text.toList
  nonempty := by cases w <;> decide
  plain := isPlain_of_mem_small w.isSmallChar

end Opener

/-! ## Printing -/

/-- What is printed for a part of a lambda list, and the names that the part binds. -/
structure Item where
  /-- What is printed. -/
  datum : Datum
  /-- The names, if it is printed at an offset. -/
  names : Nat → List NameSite

namespace Item

/-- Items with the offsets at which they stand, one space apart, the first at `pos`. -/
def place (pos : Nat) (items : List Item) : List (Nat × Item) := Datum.place datum pos items

/-- A datum without names. -/
def silent (d : Datum) : Item := ⟨d, fun _ => []⟩

/-- A name. -/
def name (x : Name) : Item :=
  let printed : Datum := .atom [] (.word x.word)
  ⟨printed, fun pos => [⟨x.text, ⟨pos, pos + printed.size⟩⟩]⟩

/-- The word that opens a section. -/
def opener (w : Opener) : Item := silent (.atom [] (.word w.word))

/-- A list between brackets, with the names of its items. -/
def list (items : List Item) : Item :=
  ⟨.list [] (fun _ => .space) (items.map datum),
    fun pos => (place (pos + 1) items).flatMap fun x => x.2.names x.1⟩

/-- A parameter with a default, and perhaps a name that tells whether an argument was given. -/
def spec (first : Item) (default : Datum) (supplied : Option Name) : Item :=
  list (first :: silent default :: supplied.toList.map name)

end Item

/-- An entry as it is printed. -/
def AuxEntry.item : AuxEntry → Item
  | name x => .name x
  | init x value => .spec (.name x) value none

mutual

/-- A parameter as it is printed. -/
def Pattern.item : Pattern → Item
  | .name x => .name x
  | .list l => .list l.items

/-- What is printed between the brackets of a lambda list. -/
def Parameters.items : Parameters → List Item
  | .mk required sections => required.map (fun p => p.item) ++ sections.flatMap fun s => s.items

/-- What is printed for a section. -/
def Section.items : Section → List Item
  | .optional entries => .opener .optional :: entries.map fun e => e.item
  | .rest isBody p => [.opener (if isBody then .body else .rest), p.item]
  | .key entries => .opener .key :: entries.map fun e => e.item
  | .allowOtherKeys => [.opener .allowOtherKeys]
  | .aux entries => .opener .aux :: entries.map AuxEntry.item

/-- An entry as it is printed. -/
def OptionalEntry.item : OptionalEntry → Item
  | .name x => .name x
  | .full p default supplied => .spec p.item default supplied

/-- An entry as it is printed. -/
def KeyEntry.item : KeyEntry → Item
  | .name x => .name x
  | .full x default supplied => .spec (.name x) default supplied
  | .keyed keyword p default supplied =>
    .spec (.list [.silent (.atom [] (.word keyword)), p.item]) default supplied

end

/-- Names that are visible from an offset on. -/
def seenFrom (visibleFrom : Nat) (names : List NameSite) : List Parameter :=
  names.map fun n => ⟨n.name, n.site, visibleFrom⟩

/-- The names of items, the first printed at `pos`. They are visible from the end of the item that
they stand in, or from `outer` on, if the items stand in an element that ends there. -/
def Item.parameters (outer : Option Nat) (pos : Nat) (items : List Item) : List Parameter :=
  (place pos items).flatMap fun x =>
    seenFrom (outer.getD (x.1 + x.2.datum.size)) (x.2.names x.1)

namespace Item

variable {i : Item} {items : List Item} {outer : Option Nat} {pos : Nat}

/-- No data take up no places. -/
@[simp] theorem place_nil : place pos [] = [] := rfl

private theorem place_cons :
    place pos (i :: items) = (pos, i) :: place (pos + i.datum.size + 1) items := rfl

private theorem parameters_cons :
    parameters outer pos (i :: items) =
      seenFrom (outer.getD (pos + i.datum.size)) (i.names pos) ++
        parameters outer (pos + i.datum.size + 1) items := rfl

private theorem names_list :
    (list items).names pos = (place (pos + 1) items).flatMap fun x => x.2.names x.1 := rfl

/-- The names of items in one element are all visible from its end. -/
theorem parameters_some (visibleFrom : Nat) :
    parameters (some visibleFrom) (pos + 1) items =
      seenFrom visibleFrom ((list items).names pos) := by
  rw [parameters, names_list, seenFrom, List.map_flatMap]
  rfl

end Item

/-! ## Reading words and lists -/

variable {src : Source} {pos : Nat} {part : ListPart}

/-- The node that an item printed at an offset is. -/
def Item.node (src : Source) (pos : Nat) (i : Item) : Node := src.node (i.datum.element pos)

/-- A word is read as it is written. -/
theorem textAt_word {w : Word} (h : Datum.PrintedAt src pos (.atom [] (.word w))) :
    src.textAt ((Item.silent (.atom [] (.word w))).node src pos) = String.ofList w.chars :=
  slice_of_standsAt h.stands

private theorem textAt_name {x : Name} (h : (Item.name x).datum.PrintedAt src pos) :
    src.textAt ((Item.name x).node src pos) = x.text :=
  (textAt_word h).trans String.ofList_toList

private theorem textAt_opener {w : Opener} (h : (Item.opener w).datum.PrintedAt src pos) :
    src.textAt ((Item.opener w).node src pos) = w.text :=
  (textAt_word h).trans String.ofList_toList

/-- A name is bound where it is written. -/
theorem parameterAt_name {x : Name} (h : (Item.name x).datum.PrintedAt src pos)
    (visibleFrom : Nat) :
    parameterAt src ((Item.name x).datum.element pos).span visibleFrom =
      seenFrom visibleFrom ((Item.name x).names pos) := by
  obtain ⟨c, rest, htext, hc⟩ := x.exists_cons
  have hslice : src.slice ((Item.name x).datum.element pos).span = x.text := textAt_name h
  have hbindable := isBindable_of_letter htext hc x.noConstant
  rw [parameterAt]
  simp only [hslice, lowerCase_small x.isSmallChar, hbindable, if_true]
  rfl

/-- A list is read as its items. -/
theorem node_list {items : List Item} (h : (Item.list items).datum.PrintedAt src pos) :
    (Item.list items).node src pos = .mk ((Item.list items).datum.element pos)
      ((Item.place (pos + 1) items).map fun x => x.2.node src x.1) := by
  have hitems := h.items_place
  rw [Item.node, Source.node]
  exact congrArg (Node.mk _) hitems

private theorem printedAt_of_mem_place {items : List Item}
    (h : (Item.list items).datum.PrintedAt src pos) :
    ∀ x ∈ Item.place (pos + 1) items, x.2.datum.PrintedAt src x.1 :=
  Datum.printedAt_of_mem_place h.items

/-! ## Entries -/

/-- What finds parameters in a node, where these are visible from a given offset on. -/
abbrev Finder := Source → Nat → Node → List Parameter

/-- The item opens no section, and its names are what is found in it. -/
structure Yields (find : Finder) (i : Item) : Prop where
  /-- No mark stands before it. -/
  unmarked : i.datum.marks = []
  /-- It opens no section. -/
  stays : ∀ src pos part, i.datum.PrintedAt src pos → partAfter src part (i.node src pos) = none
  /-- Its names are found. -/
  found : ∀ src pos visibleFrom, i.datum.PrintedAt src pos →
    find src visibleFrom (i.node src pos) = seenFrom visibleFrom (i.names pos)

/-- The item is a parameter by itself, a name or a lambda list. -/
def IsPattern (i : Item) : Prop := Yields (fun src => ofVariable src true) i

/-- The item is an entry of a part of a lambda list. -/
def IsEntry (part : ListPart) (i : Item) : Prop := Yields (fun src => ofEntry src true part) i

/-- The item is the first one of an entry in brackets. -/
def IsFirst (part : ListPart) (i : Item) : Prop := Yields (fun src => ofSpecName src true part) i

/-- The parameters that items are read as are their names. -/
def ReadsFrom (part : ListPart) (items : List Item) : Prop :=
  ∀ (src : Source) (pos : Nat) (outer : Option Nat),
    (∀ x ∈ Item.place pos items, x.2.datum.PrintedAt src x.1) →
      ofEntries src true outer part ((Item.place pos items).map fun x => x.2.node src x.1) =
        Item.parameters outer pos items

private theorem Yields.quoted {find : Finder} {i : Item} (h : Yields find i) :
    (i.node src pos).quoted = false := by
  simp [Item.node, Source.node, Node.quoted, Node.element, Datum.element, h.unmarked]

/-- Finders that agree find the same names. -/
theorem Yields.congr {find find' : Finder} {i : Item} (h : Yields find i)
    (heq : ∀ src visibleFrom n, find' src visibleFrom n = find src visibleFrom n) :
    Yields find' i where
  unmarked := h.unmarked
  stays := h.stays
  found src pos visibleFrom hprinted := by rw [heq, h.found src pos visibleFrom hprinted]

/-- A name is found wherever an atom is a parameter. -/
theorem yields_name {find : Finder} (x : Name)
    (hatom : ∀ src visibleFrom e items, e.kind = .atom →
      find src visibleFrom (.mk e items) = parameterAt src e.span visibleFrom) :
    Yields find (.name x) where
  unmarked := rfl
  stays src pos part h := by
    obtain ⟨c, rest, htext, hc⟩ := x.exists_cons
    simp [partAfter, textAt_name h, htext, (ne_of_letter hc).2.2.2.2.1]
  found src pos visibleFrom h := by
    rw [← parameterAt_name h visibleFrom]
    exact hatom src visibleFrom _ _ rfl

/-- The names of a list are found if they are found among its items. -/
theorem yields_list {find : Finder} {items : List Item}
    (h : ∀ src pos visibleFrom e, e.kind = .group ⟨pos, pos + (Item.list items).datum.size - 1⟩ →
      (∀ x ∈ Item.place (pos + 1) items, x.2.datum.PrintedAt src x.1) →
      find src visibleFrom
          (.mk e ((Item.place (pos + 1) items).map fun x => x.2.node src x.1)) =
        seenFrom visibleFrom ((Item.list items).names pos)) :
    Yields find (.list items) where
  unmarked := rfl
  stays src pos part _ := rfl
  found src pos visibleFrom hprinted := by
    rw [node_list hprinted]
    exact h src pos visibleFrom _ rfl (printedAt_of_mem_place hprinted)

private theorem isPattern_name (x : Name) : IsPattern (.name x) :=
  yields_name x fun src visibleFrom e items hkind => by simp [ofVariable, hkind]

private theorem isEntry_name (part : ListPart) (x : Name) : IsEntry part (.name x) :=
  yields_name x fun src visibleFrom e items hkind => by simp [ofEntry, hkind]

private theorem isFirst_name (part : ListPart) (x : Name) : IsFirst part (.name x) :=
  yields_name x fun src visibleFrom e items hkind => by simp [ofSpecName, hkind]

private theorem IsPattern.isEntry {i : Item} (h : IsPattern i) (hpart : part.nests = true) :
    IsEntry part i :=
  Yields.congr h fun src visibleFrom n => by
    obtain ⟨e, items⟩ := n
    rw [ofEntry, ofVariable]
    cases e.kind <;> simp [hpart]

private theorem IsPattern.isFirst {i : Item} (h : IsPattern i) (hpart : part ≠ .key) :
    IsFirst part i :=
  Yields.congr h fun src visibleFrom n => by
    obtain ⟨e, items⟩ := n
    rw [ofSpecName, ofVariable]
    cases e.kind <;> simp [hpart]

private theorem isPattern_list {items : List Item} (h : ReadsFrom .required items) :
    IsPattern (.list items) :=
  yields_list fun src pos visibleFrom e hkind hprinted => by
    have hitems := h src (pos + 1) (some visibleFrom) hprinted
    rw [ofVariable]
    simp only [hkind, if_true, hitems, Item.parameters_some]

/-- The parameter of an entry may stand after its keyword. -/
theorem isFirst_keyed {i : Item} (keyword : Word) (h : IsPattern i) :
    IsFirst .key (.list [.silent (.atom [] (.word keyword)), i]) :=
  yields_list fun src pos visibleFrom e hkind hprinted => by
    rw [Item.place_cons, Item.place_cons, List.forall_mem_cons, List.forall_mem_cons] at hprinted
    have hfound := h.found _ _ visibleFrom hprinted.2.1
    rw [ofSpecName]
    simp only [hkind, Item.names_list, Item.place_cons, List.map_cons, ofKeyword, hfound]
    simp [Item.silent]

/-- The third item of an entry is a name. -/
theorem suppliedName_name (hpart : part.hasSuppliedName = true) {x : Name}
    (h : (Item.name x).datum.PrintedAt src pos) (visibleFrom : Nat) (first default : Node) :
    suppliedName src part visibleFrom [first, default, (Item.name x).node src pos] =
      seenFrom visibleFrom ((Item.name x).names pos) := by
  have hatom : ((Item.name x).node src pos).element.isAtom = true := rfl
  have hquoted : ((Item.name x).node src pos).quoted = false := rfl
  simp only [suppliedName, hpart, hatom, hquoted, Bool.not_false, Bool.and_self, if_true]
  exact parameterAt_name h visibleFrom

/-- An entry in brackets has the names of its first item and the name after its default. -/
theorem isEntry_spec {first : Item} (hfirst : IsFirst part first) (hnests : part.nests = false)
    (default : Datum) {supplied : Option Name}
    (hsupplied : supplied.isSome = true → part.hasSuppliedName = true) :
    IsEntry part (.spec first default supplied) :=
  yields_list fun src pos visibleFrom e hkind hprinted => by
    rw [Item.place_cons, Item.place_cons, List.forall_mem_cons, List.forall_mem_cons] at hprinted
    have hfound := hfirst.found _ _ visibleFrom hprinted.1
    have hquoted : (first.node src (pos + 1)).quoted = false := hfirst.quoted
    rw [ofEntry]
    simp only [hkind, hnests, Item.names_list, Item.place_cons, List.map_cons, List.flatMap_cons,
      ofSpec, hfound, hquoted]
    cases supplied with
    | none => simp [suppliedName, Item.silent]
    | some x =>
      have hname := hprinted.2.2 _ List.mem_cons_self
      simp only [Option.toList_some, List.map_cons, List.map_nil, Item.place_cons, Item.place_nil]
      rw [suppliedName_name (hsupplied rfl) hname]
      simp [seenFrom, Item.silent]

/-! ## Sequences -/

private theorem readsFrom_nil (part : ListPart) : ReadsFrom part [] := by
  intro src pos outer _
  simp [ofEntries, Item.parameters]

private theorem ReadsFrom.cons {i : Item} {items : List Item} (h : ReadsFrom part items)
    (hi : IsEntry part i) : ReadsFrom part (i :: items) := by
  intro src pos outer hprinted
  rw [Item.place_cons, List.forall_mem_cons] at hprinted
  have hstays := hi.stays src pos part hprinted.1
  have hfound := hi.found src pos (outer.getD (pos + i.datum.size)) hprinted.1
  have hstop : (i.node src pos).stop = pos + i.datum.size := rfl
  rw [Item.place_cons, List.map_cons, ofEntries, hi.quoted, hstays, hstop,
    h src _ outer hprinted.2, Item.parameters_cons, ← hfound]
  rfl

private theorem ReadsFrom.append {items rest : List Item} (h : ReadsFrom part rest)
    (hitems : ∀ i ∈ items, IsEntry part i) : ReadsFrom part (items ++ rest) := by
  induction items with
  | nil => exact h
  | cons i items ih =>
    obtain ⟨hi, hitems⟩ := List.forall_mem_cons.1 hitems
    exact (ih hitems).cons hi

/-- The part that a word opens after another one. -/
def Opener.partAfter (w : Opener) (part : ListPart) : ListPart :=
  (ListPart.ofMarker w.text).getD part

/-- After the word that opens a section its part is read. -/
theorem ReadsFrom.opener {w : Opener} {items : List Item} (h : ReadsFrom (w.partAfter part) items) :
    ReadsFrom part (.opener w :: items) := by
  intro src pos outer hprinted
  rw [Item.place_cons, List.forall_mem_cons] at hprinted
  have hpart : LambdaList.partAfter src part ((Item.opener w).node src pos) =
      some (w.partAfter part) := by
    have hhead : w.text.toList.head? = some '&' := by cases w <;> decide
    have hatom : ((Item.opener w).node src pos).element.isAtom = true := rfl
    rw [LambdaList.partAfter, textAt_opener hprinted.1, hatom, hhead]
    rfl
  have hquoted : ((Item.opener w).node src pos).quoted = false := rfl
  rw [Item.place_cons, List.map_cons, ofEntries, hquoted, hpart, Item.parameters_cons]
  exact h src _ outer hprinted.2

/-- Whatever is read before a section and after it, the section is read. -/
def Section.Reads (s : Section) : Prop :=
  ∀ rest, (∀ part, ReadsFrom part rest) → ∀ part, ReadsFrom part (s.items ++ rest)

/-- Sections are read in any order. -/
theorem readsFrom_sections {sections : List Section} (h : ∀ s ∈ sections, s.Reads)
    (part : ListPart) : ReadsFrom part (sections.flatMap Section.items) := by
  induction sections generalizing part with
  | nil => exact readsFrom_nil part
  | cons s sections ih =>
    obtain ⟨hs, hsections⟩ := List.forall_mem_cons.1 h
    exact hs _ (ih hsections) part

private theorem AuxEntry.isEntry : ∀ e : AuxEntry, IsEntry .aux e.item
  | .name x => isEntry_name .aux x
  | .init x value => isEntry_spec (isFirst_name .aux x) rfl value (by simp)

-- The induction is on the tree. What a list inside it needs of its members is a hypothesis of the
-- lemma about the list.
mutual

/-- Each parameter is read as it is meant. -/
theorem Pattern.isPattern : ∀ p : Pattern, IsPattern p.item
  | .name x => by
    rw [Pattern.item]
    exact isPattern_name x
  | .list l => by
    rw [Pattern.item]
    exact isPattern_list l.readsFrom

/-- Between its brackets a lambda list is read as it is meant. -/
theorem Parameters.readsFrom : ∀ l : Parameters, ReadsFrom .required l.items
  | .mk required sections => by
    have hrequired : ∀ p ∈ required, IsPattern p.item := fun p _ => p.isPattern
    have hsections : ∀ s ∈ sections, s.Reads := fun s _ => s.reads
    rw [Parameters.items]
    exact (readsFrom_sections hsections .required).append
      (List.forall_mem_map.2 fun p hp => (hrequired p hp).isEntry rfl)

/-- Each section is read, whatever stands around it. -/
theorem Section.reads : ∀ s : Section, s.Reads
  | .optional entries => by
    have hentries : ∀ e ∈ entries, IsEntry .optional e.item := fun e _ => e.isEntry
    intro rest hrest part
    rw [Section.items]
    exact .opener ((hrest .optional).append (List.forall_mem_map.2 hentries))
  | .rest isBody p => by
    have hp := p.isPattern
    intro rest hrest part
    rw [Section.items]
    cases isBody
    · exact .opener ((hrest .rest).cons (hp.isEntry rfl))
    · exact .opener ((hrest .rest).cons (hp.isEntry rfl))
  | .key entries => by
    have hentries : ∀ e ∈ entries, IsEntry .key e.item := fun e _ => e.isEntry
    intro rest hrest part
    rw [Section.items]
    exact .opener ((hrest .key).append (List.forall_mem_map.2 hentries))
  | .allowOtherKeys => by
    intro rest hrest part
    rw [Section.items]
    exact .opener (hrest part)
  | .aux entries => by
    intro rest hrest part
    rw [Section.items]
    exact .opener ((hrest .aux).append (List.forall_mem_map.2 fun e _ => e.isEntry))

private theorem OptionalEntry.isEntry : ∀ e : OptionalEntry, IsEntry .optional e.item
  | .name x => by
    rw [OptionalEntry.item]
    exact isEntry_name .optional x
  | .full p default supplied => by
    rw [OptionalEntry.item]
    exact isEntry_spec (p.isPattern.isFirst (by decide)) rfl default fun _ => rfl

private theorem KeyEntry.isEntry : ∀ e : KeyEntry, IsEntry .key e.item
  | .name x => by
    rw [KeyEntry.item]
    exact isEntry_name .key x
  | .full x default supplied => by
    rw [KeyEntry.item]
    exact isEntry_spec (isFirst_name .key x) rfl default fun _ => rfl
  | .keyed keyword p default supplied => by
    rw [KeyEntry.item]
    exact isEntry_spec (isFirst_keyed keyword p.isPattern) rfl default fun _ => rfl

end

/-! ## Lambda lists -/

namespace Parameters

variable (l : Parameters)

/-- The lambda list as a datum. -/
def datum : Datum := (Item.list l.items).datum

/-- What a lambda list printed at an offset binds, from left to right. Each name is visible from the
end of the outermost item that it stands in. -/
def boundAt (pos : Nat) : List Parameter := Item.parameters none (pos + 1) l.items

/-- A lambda list is read wherever it is printed. -/
theorem parse_of_printedAt (h : l.datum.PrintedAt src pos) :
    LambdaList.parse src pos true = some (l.boundAt pos) := by
  have hget : src.layout.pairs.get? pos = some ⟨pos, pos + l.datum.size - 1⟩ :=
    PairIndex.get?_of_closingOf (Datum.closingOf_list h.shows)
  have hitems : src.items ⟨pos, pos + l.datum.size - 1⟩ =
      (Item.place (pos + 1) l.items).map fun x => x.2.node src x.1 := h.items_place
  have hread := l.readsFrom src (pos + 1) none (printedAt_of_mem_place h)
  rw [LambdaList.parse, hget, Option.map_some, hitems, hread, boundAt]

/-- Reading a printed lambda list gives what it binds: its names, those of the lambda lists in it,
and those that tell whether an argument was given, but nothing from defaults and keywords. -/
theorem parse_ofText :
    LambdaList.parse (.ofText (String.ofList l.datum.chars)) 0 true = some (l.boundAt 0) :=
  l.parse_of_printedAt (Datum.printedAt_ofText l.datum)

-- The lambda list `((a) &key ((:k b) a))`, whose default binds nothing.
example :
    let a : Name := ⟨"a", ⟨'a', rfl, by decide⟩, List.all_eq_true.1 rfl, by decide⟩
    let b : Name := ⟨"b", ⟨'b', rfl, by decide⟩, List.all_eq_true.1 rfl, by decide⟩
    let k : Word := ⟨[':', 'k'], by decide, List.all_eq_true.1 rfl⟩
    let l : Parameters := .mk [.list (.mk [.name a] [])]
      [.key [.keyed k (.name b) (.atom [] (.word a.word)) none]]
    String.ofList l.datum.chars = "((a) &key ((:k b) a))" ∧
      l.boundAt 0 = [⟨"a", ⟨2, 3⟩, 4⟩, ⟨"b", ⟨15, 16⟩, 20⟩] := by
  cbv

end Parameters

end LexScope.LambdaGrammar
