import LexScope.Document.Analysis
import LexScope.Proofs.Span.Membership

/-!
# Filling and searching the table

Each collection of the table holds, in order, the bindings that are added to it, so what is asked of
the table can be read off the log of the entries. Searching goes for the scope that starts last, and
among those that start together for the last binding.
-/

namespace LexScope

/-! ## Filling -/

namespace Entry

/-- The binding of an entry for a collection. -/
def binding? (c : Collection) : Entry → Option Binding
  | .binding d b => if d = c then some b else none
  | .stepForm _ => none

/-- The step form of an entry. -/
def step? : Entry → Option Span
  | .binding _ _ => none
  | .stepForm s => some s

end Entry

namespace Table

private theorem get_add (t : Table) (e : Entry) (c : Collection) :
    (t.add e).get c = t.get c ++ (e.binding? c).toList := by
  cases e with
  | binding d b =>
    rw [add, Entry.binding?]
    by_cases hd : d = c
    · subst hd
      rw [get_insert_self, if_pos rfl, Option.toList_some]
    · rw [get_insert_of_ne t b (Ne.symm hd), if_neg hd, Option.toList_none, List.append_nil]
  | stepForm s => rw [add, get_insertStep, Entry.binding?, Option.toList_none, List.append_nil]

private theorem steps_add (t : Table) (e : Entry) :
    (t.add e).steps = t.steps ++ e.step?.toList := by
  cases e with
  | binding d b =>
    rw [Entry.step?, Option.toList_none, List.append_nil]
    cases d <;> rfl
  | stepForm s => rfl

/-- A collection of the built table holds, in order, the bindings the log adds to it. -/
theorem get_foldl_add (entries : List Entry) (t : Table) (c : Collection) :
    (entries.foldl add t).get c = t.get c ++ entries.filterMap (Entry.binding? c) := by
  induction entries generalizing t with
  | nil => rw [List.foldl_nil, List.filterMap_nil, List.append_nil]
  | cons e rest ih =>
    rw [List.foldl_cons, ih, get_add, List.append_assoc]
    cases h : e.binding? c <;> simp [h]

/-- A collection of a table that was empty holds what was added to it. -/
theorem get_foldl_add_empty (entries : List Entry) (c : Collection) :
    (entries.foldl add {}).get c = entries.filterMap (Entry.binding? c) := by
  rw [get_foldl_add]
  cases c <;> rfl

/-- The step forms of the built table are those the log records, in order. -/
theorem steps_foldl_add (entries : List Entry) (t : Table) :
    (entries.foldl add t).steps = t.steps ++ entries.filterMap Entry.step? := by
  induction entries generalizing t with
  | nil => rw [List.foldl_nil, List.filterMap_nil, List.append_nil]
  | cons e rest ih =>
    rw [List.foldl_cons, ih, steps_add, List.append_assoc]
    cases h : e.step? <;> simp [h]

/-! ## What the log says -/

/-- The bindings of a name with a scope, collection by collection, in the order in which they were
added. -/
def addedLocals (log : List Entry) (name : String) : List Binding :=
  (Collection.lexical.flatMap fun c => log.filterMap (Entry.binding? c)).filter (·.name == name)

/-- The global definition of a name that was added last. -/
def addedGlobal (log : List Entry) (name : String) : Option Binding :=
  ((log.filterMap (Entry.binding? .globalDefinition)).filter (·.name == name)).getLast?

/-- The position lies in one of the step forms that were added. -/
def InAddedStep (log : List Entry) (position : Nat) : Prop :=
  ∃ s, .stepForm s ∈ log ∧ s.contains position = true

/-- The locals of a name in the built table are those the log adds under that name. -/
theorem locals_foldl_add (log : List Entry) (name : String) :
    (log.foldl add {}).locals name = addedLocals log name := by
  rw [locals, lexicals, funext (get_foldl_add_empty log), addedLocals]

/-- The global of a name in the built table is the one the log adds under that name. -/
theorem global_foldl_add (log : List Entry) (name : String) :
    (log.foldl add {}).global name = addedGlobal log name := by
  exact congrArg (fun l => (List.filter (·.name == name) l).getLast?)
    (get_foldl_add_empty log .globalDefinition)

/-- The step forms of a log are the spans its step entries carry. -/
theorem mem_filterMap_step? {log : List Entry} {s : Span} :
    s ∈ log.filterMap Entry.step? ↔ .stepForm s ∈ log := by
  rw [List.mem_filterMap]
  constructor
  · rintro ⟨e, he, hstep⟩
    cases e with
    | binding => cases hstep
    | stepForm r =>
      cases hstep
      exact he
  · exact fun h => ⟨_, h, rfl⟩

/-- The offsets of the step forms that were added. -/
theorem contains_ofList_step? {log : List Entry}
    (hlog : ∀ s, .stepForm s ∈ log → s.start ≤ s.stop) {position : Nat} :
    (SpanSet.ofList (log.filterMap Entry.step?)).contains position = true ↔
      InAddedStep log position := by
  rw [SpanSet.contains_ofList fun s hs => hlog s (mem_filterMap_step?.1 hs)]
  simp only [mem_filterMap_step?, InAddedStep]

/-- The built table finds an offset in a step form when the log records a step form around it. -/
theorem stepForms_foldl_add {log : List Entry}
    (hlog : ∀ s, .stepForm s ∈ log → s.start ≤ s.stop) {position : Nat} :
    (log.foldl add {}).stepForms.contains position = true ↔ InAddedStep log position := by
  rw [stepForms, steps_foldl_add, List.nil_append, contains_ofList_step? hlog]

/-! ## The entries of a document -/

/-- What the passes over a document find and keep, in order. -/
def found (src : Source) (mode : Mode) : List Entry :=
  Category.all.flatMap fun k =>
    (((BindingForm.all src (src.layout.excluded mode)).filter (·.head.category == k)).flatMap
      (·.entries src)).filter (Entry.isKept (src.layout.excluded mode))

/-- The table of a source is built from the entries its binding forms make. -/
theorem ofSource_eq (src : Source) (mode : Mode) :
    Table.ofSource src mode = (found src mode).foldl add {} := by
  rw [ofSource, found, List.foldl_flatMap]
  rfl

/-- A collection of the table holds the bindings found for it, in order. -/
theorem get_ofSource (src : Source) (mode : Mode) (c : Collection) :
    (Table.ofSource src mode).get c = (found src mode).filterMap (Entry.binding? c) := by
  rw [ofSource_eq, get_foldl_add_empty]

/-- Where a single form binds, and none of its names is left out, the table holds what it binds. -/
theorem ofSource_of_all_eq {src : Source} {mode : Mode} {f : BindingForm}
    (hall : BindingForm.all src (src.layout.excluded mode) = [f])
    (hkept : ∀ e ∈ f.entries src, e.isKept (src.layout.excluded mode) = true) :
    Table.ofSource src mode = (f.entries src).foldl add {} := by
  have hfilter := List.filter_eq_self.2 hkept
  rw [ofSource_eq, found, hall]
  cases hcategory : f.head.category <;>
    simp [Category.all, List.filter_cons, hcategory, hfilter]

/-- Every form belongs to one of the passes. -/
theorem mem_found {src : Source} {mode : Mode} {e : Entry} :
    e ∈ found src mode ↔ e.isKept (src.layout.excluded mode) = true ∧
      ∃ f ∈ BindingForm.all src (src.layout.excluded mode), e ∈ f.entries src := by
  simp only [found, List.mem_flatMap, List.mem_filter, beq_iff_eq]
  constructor
  · rintro ⟨k, -, ⟨f, ⟨hf, -⟩, he⟩, hkept⟩
    exact ⟨hkept, f, hf, he⟩
  · rintro ⟨hkept, f, hf, he⟩
    exact ⟨f.head.category, by cases f.head.category <;> decide, ⟨f, ⟨hf, rfl⟩, he⟩, hkept⟩

/-- A binding is collected when a binding form makes it and its name is not excluded. -/
theorem mem_get_ofSource {src : Source} {mode : Mode} {c : Collection} {b : Binding} :
    b ∈ (Table.ofSource src mode).get c ↔ (src.layout.excluded mode).meets b.site = false ∧
      ∃ f ∈ BindingForm.all src (src.layout.excluded mode), .binding c b ∈ f.entries src := by
  rw [get_ofSource, List.mem_filterMap]
  constructor
  · rintro ⟨e, he, hbinding⟩
    cases e with
    | stepForm => cases hbinding
    | binding d b' =>
      rw [Entry.binding?] at hbinding
      split at hbinding
      · next hd =>
        cases hbinding
        simpa [Entry.isKept, hd] using mem_found.1 he
      · cases hbinding
  · rintro ⟨hkept, hform⟩
    exact ⟨.binding c b, mem_found.2 ⟨by simpa [Entry.isKept] using hkept, hform⟩, if_pos rfl⟩

/-- A step form is recorded when a binding form makes it. -/
theorem mem_steps_ofSource {src : Source} {mode : Mode} {s : Span} :
    s ∈ (Table.ofSource src mode).steps ↔
      ∃ f ∈ BindingForm.all src (src.layout.excluded mode), .stepForm s ∈ f.entries src := by
  rw [ofSource_eq, steps_foldl_add, List.nil_append, List.mem_filterMap]
  constructor
  · rintro ⟨e, he, hstep⟩
    cases e with
    | binding => cases hstep
    | stepForm s' =>
      cases hstep
      exact (mem_found.1 he).2
  · exact fun hform => ⟨.stepForm s, mem_found.2 ⟨rfl, hform⟩, rfl⟩

/-- The local bindings of a name are what the forms that are collected bind, unless the name stands
in an excluded part. -/
theorem mem_locals_ofSource {src : Source} {mode : Mode} {name : String} {b : Binding} :
    b ∈ (Table.ofSource src mode).locals name ↔
      b.name = name ∧ (src.layout.excluded mode).meets b.site = false ∧
        ∃ c ∈ Collection.lexical, ∃ f ∈ BindingForm.all src (src.layout.excluded mode),
          .binding c b ∈ f.entries src := by
  rw [locals, List.mem_filter, lexicals, List.mem_flatMap, beq_iff_eq]
  simp only [mem_get_ofSource]
  constructor
  · rintro ⟨⟨c, hc, hkept, hform⟩, hname⟩
    exact ⟨hname, hkept, c, hc, hform⟩
  · rintro ⟨hname, hkept, c, hc, hform⟩
    exact ⟨⟨c, hc, hkept, hform⟩, hname⟩

end Table

/-! ## Forms by their first word -/

namespace BindingForm

/-- The word that starts the form at a pair. -/
def word? (src : Source) (p : Pair) : Option String :=
  ((src.elements p).head?.filter fun e => e.isAtom && !e.quoted).map src.textOf

/-- The pairs outside the excluded parts with the words that start their forms. -/
def words (src : Source) (excluded : SpanSet) : List (Pair × String) :=
  (src.layout.pairs.pairs.filter fun p => !excluded.contains p.opening).filterMap fun p =>
    (word? src p).map fun word => (p, word)

private theorem at?_eq (src : Source) (p : Pair) :
    at? src p = (word? src p).bind fun word => (Head.classify word).map fun head => ⟨p, head⟩ := by
  rw [at?, word?]
  cases src.elements p with
  | nil => rfl
  | cons first rest =>
    rw [List.head?_cons, Option.filter_some]
    cases h : first.isAtom && !first.quoted <;> simp [h]

/-- Whether a form binds is said by its word alone. -/
theorem all_eq (src : Source) (excluded : SpanSet) :
    all src excluded = (words src excluded).filterMap fun (p, word) =>
      (Head.classify word).map fun head => ⟨p, head⟩ := by
  rw [all, words, List.filterMap_filterMap]
  congr 1
  funext p
  rw [at?_eq]
  cases word? src p <;> rfl

/-- The word is the text of the first item. -/
theorem items_of_word? {src : Source} {p : Pair} {word : String} (h : word? src p = some word) :
    ∃ first operands, src.items p = first :: operands ∧ src.textAt first = word := by
  obtain ⟨e, he, rfl⟩ := Option.map_eq_some_iff.1 h
  obtain ⟨rest, hrest⟩ := List.head?_eq_some_iff.1 (Option.filter_eq_some_iff.1 he).1
  rw [Source.elements] at hrest
  refine ⟨.mk e (src.inside e), rest.map fun e => .mk e (src.inside e), ?_, rfl⟩
  rw [Source.items, Source.nodes_eq, hrest, List.map_cons]

section Entries

variable {src : Source} {p : Pair} {word : String} (h : word? src p = some word)

include h in
/-- A global form makes the entries of one definition. -/
theorem entries_global (d : Definer) :
    entries src ⟨p, .global d⟩ = Definition.entries src p d (src.items p).tail := by
  obtain ⟨first, operands, hitems, rfl⟩ := items_of_word? h
  simp only [entries, hitems, List.tail_cons]

include h in
/-- A `let` form makes the entries of its variables. -/
theorem entries_letLike (sequential : Bool) (kind : BindingKind) :
    entries src ⟨p, .letLike sequential kind⟩ =
      Variable.letEntries src p (keywordOf word) sequential kind (src.items p).tail := by
  obtain ⟨first, operands, hitems, rfl⟩ := items_of_word? h
  simp only [entries, hitems, List.tail_cons]

include h in
/-- A `do` form makes the entries of its variables and their step forms. -/
theorem entries_doLoop (sequential : Bool) :
    entries src ⟨p, .doLoop sequential⟩ =
      Variable.doEntries src p (keywordOf word) sequential (src.items p).tail := by
  obtain ⟨first, operands, hitems, rfl⟩ := items_of_word? h
  simp only [entries, hitems, List.tail_cons]

include h in
/-- An `flet` or `labels` form makes the entries of its functions. -/
theorem entries_localFunctions (form : LocalFunctionForm) :
    entries src ⟨p, .localFunctions form⟩ =
      LocalFunction.entries src p (keywordOf word) form (src.items p).tail := by
  obtain ⟨first, operands, hitems, rfl⟩ := items_of_word? h
  simp only [entries, hitems, List.tail_cons]

end Entries

end BindingForm

/-! ## Order by name -/

namespace Table

/-- The list of visible bindings is ordered by name. -/
theorem name_le_of_visibleOrder {a b : Binding} (h : visibleOrder a b = true) :
    a.name ≤ b.name := by
  simp only [visibleOrder, Bool.or_eq_true, decide_eq_true_eq, Bool.and_eq_true, beq_iff_eq] at h
  rcases h with hlt | ⟨heq, -⟩
  · exact String.not_lt.1 (String.lt_asymm hlt)
  · exact heq ▸ String.not_lt.1 (String.lt_irrefl _)

/-- The order of the visible bindings is transitive. -/
theorem visibleOrder_trans (a b c : Binding) (hab : visibleOrder a b = true)
    (hbc : visibleOrder b c = true) : visibleOrder a c = true := by
  simp only [visibleOrder, Bool.or_eq_true, decide_eq_true_eq, Bool.and_eq_true, beq_iff_eq]
    at hab hbc ⊢
  rcases hab with hab | ⟨hab, hsite⟩ <;> rcases hbc with hbc | ⟨hbc, hsite'⟩
  · exact .inl (String.lt_trans hab hbc)
  · exact .inl (hbc ▸ hab)
  · exact .inl (hab ▸ hbc)
  · exact .inr ⟨hab.trans hbc, Nat.le_trans hsite hsite'⟩

/-- Any two bindings stand in the order of the visible bindings. -/
theorem visibleOrder_total (a b : Binding) : (visibleOrder a b || visibleOrder b a) = true := by
  simp only [visibleOrder, Bool.or_eq_true, decide_eq_true_eq, Bool.and_eq_true, beq_iff_eq]
  by_cases hlt : a.name < b.name
  · exact .inl (.inl hlt)
  by_cases hgt : b.name < a.name
  · exact .inr (.inl hgt)
  have heq := String.le_antisymm (String.not_lt.1 hgt) (String.not_lt.1 hlt)
  rcases Nat.le_total a.site.start b.site.start with hle | hle
  · exact .inl (.inr ⟨heq, hle⟩)
  · exact .inr (.inr ⟨heq.symm, hle⟩)

end Table

/-! ## Where nothing is left out -/

/-- What the pass over a category finds at a pair. -/
def Source.entriesAt (src : Source) (c : Category) (p : Pair) : List Entry :=
  ((BindingForm.at? src p).toList.filter (·.head.category == c)).flatMap (·.entries src)

section Nothing

variable {src : Source} {mode : Mode}

private theorem flatMap_entries (k : Category) (pairs : List Pair) :
    ((pairs.filterMap (BindingForm.at? src)).filter (·.head.category == k)).flatMap
      (·.entries src) = pairs.flatMap (src.entriesAt k) := by
  induction pairs with
  | nil => rfl
  | cons p rest ih =>
    rw [List.flatMap_cons, ← ih, Source.entriesAt, List.filterMap_cons]
    cases h : BindingForm.at? src p with
    | none => simp
    | some f => by_cases hf : f.head.category = k <;> simp [hf]

private theorem Entry.isKept_nothing (e : Entry) : e.isKept ⟨[]⟩ = true := by
  cases e with
  | binding c b =>
    simp [Entry.isKept, SpanSet.meets, SpanSet.contains, SpanSet.spanAt, SpanSet.firstAfter]
  | stepForm s => rfl

/-- Where nothing is left out, each pass finds and keeps what there is at each pair. -/
theorem Table.found_nothing (h : src.layout.excluded mode = ⟨[]⟩) :
    found src mode =
      Category.all.flatMap fun k => src.layout.pairs.pairs.flatMap (src.entriesAt k) := by
  have hall : BindingForm.all src ⟨[]⟩ =
      src.layout.pairs.pairs.filterMap (BindingForm.at? src) := by
    rw [BindingForm.all, List.filter_eq_self.2]
    intro p _
    rfl
  rw [found, h]
  congr 1
  funext k
  rw [hall, flatMap_entries, List.filter_eq_self.2]
  intro e _
  exact e.isKept_nothing

/-- The mode leaves nothing out, and these forms bind, each with its entries. -/
structure Source.HasForms (src : Source) (mode : Mode) (forms : List (BindingForm × List Entry)) :
    Prop where
  /-- Nothing is left out. -/
  nothing : src.layout.excluded mode = ⟨[]⟩
  /-- These are the forms that bind, in order. -/
  all : BindingForm.all src ⟨[]⟩ = forms.map (·.1)
  /-- This is what each of them adds to the table. -/
  entries : ∀ f ∈ forms, f.1.entries src = f.2

namespace Source.HasForms

variable {forms : List (BindingForm × List Entry)} (h : src.HasForms mode forms)

include h

/-- The passes find all entries, category by category. -/
theorem found_eq : Table.found src mode = Category.all.flatMap fun k =>
    (forms.filter (·.1.head.category == k)).flatMap (·.2) := by
  rw [Table.found, h.nothing, h.all]
  congr 1
  funext k
  rw [List.filter_eq_self.2 fun e _ => e.isKept_nothing, List.filter_map, List.flatMap_map,
    List.flatMap_def, List.flatMap_def]
  exact congrArg List.flatten
    (List.map_congr_left fun f hf => h.entries f (List.mem_filter.1 hf).1)

/-- The table holds all entries, added category by category. -/
theorem table_eq : Table.ofSource src mode = (Category.all.flatMap fun k =>
    (forms.filter (·.1.head.category == k)).flatMap (·.2)).foldl Table.add {} := by
  rw [Table.ofSource_eq, h.found_eq]

end Source.HasForms

/-- Nothing is quoted either, and these symbols are written. -/
structure Source.Shows (src : Source) (mode : Mode) (forms : List (BindingForm × List Entry))
    (symbols : List Symbol) : Prop extends src.HasForms mode forms where
  /-- Nothing is quoted. -/
  quoted : src.layout.quotedContext = ⟨[]⟩
  /-- These are the symbols, in order. -/
  symbols_eq : src.symbols = symbols

/-- The table of an analysis where nothing is left out. -/
theorem Analysis.table_analyze {settings : Settings} {text : String}
    {forms : List (BindingForm × List Entry)}
    (h : (Source.ofText text).HasForms settings.collection forms) :
    (analyze settings text).table = (Category.all.flatMap fun k =>
      (forms.filter (·.1.head.category == k)).flatMap (·.2)).foldl Table.add {} := by
  rw [analyze_eq, ← h.table_eq]

end Nothing

/-! ## Searching -/

section Search

variable {α β : Type} {key : α → Nat}

/-- Something is found unless there is nothing. -/
theorem lastMaxBy_eq_none {l : List α} (h : lastMaxBy key l = none) : l = [] := by
  cases l with
  | nil => rfl
  | cons a rest =>
    rw [lastMaxBy] at h
    split at h
    · cases h
    · split at h <;> cases h

/-- The element found has no greater key before it, and only lesser ones after it. -/
theorem exists_of_lastMaxBy {l : List α} {a : α} (h : lastMaxBy key l = some a) :
    ∃ before after, l = before ++ a :: after ∧ (∀ b ∈ before, key b ≤ key a) ∧
      ∀ b ∈ after, key b < key a := by
  induction l generalizing a with
  | nil => cases h
  | cons first rest ih =>
    rw [lastMaxBy] at h
    cases hrest : lastMaxBy key rest with
    | none =>
      simp only [hrest, Option.some.injEq] at h
      rw [lastMaxBy_eq_none hrest, h]
      exact ⟨[], [], rfl, by simp, by simp⟩
    | some c =>
      obtain ⟨before, after, hsplit, hbefore, hafter⟩ := ih hrest
      simp only [hrest] at h
      split at h <;> cases h
      · next hlt =>
        refine ⟨[], rest, rfl, by simp, fun b hb => ?_⟩
        rw [hsplit] at hb
        rcases List.mem_append.1 hb with hb | hb
        · exact Nat.lt_of_le_of_lt (hbefore b hb) hlt
        · rcases List.mem_cons.1 hb with rfl | hb
          · exact hlt
          · exact Nat.lt_trans (hafter b hb) hlt
      · next hle =>
        refine ⟨first :: before, after, by rw [hsplit]; rfl, ?_, hafter⟩
        exact List.forall_mem_cons.2 ⟨Nat.not_lt.1 hle, hbefore⟩

/-- The last greatest element of a list is an element of it. -/
theorem mem_of_lastMaxBy {l : List α} {a : α} (h : lastMaxBy key l = some a) : a ∈ l := by
  obtain ⟨before, after, rfl, -⟩ := exists_of_lastMaxBy h
  exact List.mem_append_right _ List.mem_cons_self

/-- The element found is found in the images too. -/
theorem lastMaxBy_map (key : α → Nat) (f : β → α) (l : List β) :
    lastMaxBy key (l.map f) = (lastMaxBy (fun b => key (f b)) l).map f := by
  induction l with
  | nil => rfl
  | cons b rest ih =>
    rw [List.map_cons, lastMaxBy, lastMaxBy, ih]
    cases lastMaxBy (fun b => key (f b)) rest with
    | none => rfl
    | some c =>
      simp only [Option.map_some]
      split <;> rfl

/-- An element is found if its key is not below those before it and above those after it. -/
theorem lastMaxBy_append_cons {a : α} {before after : List α}
    (hbefore : ∀ b ∈ before, key b ≤ key a) (hafter : ∀ b ∈ after, key b < key a) :
    lastMaxBy key (before ++ a :: after) = some a := by
  induction before with
  | nil =>
    rw [List.nil_append, lastMaxBy]
    cases hmax : lastMaxBy key after with
    | none => rfl
    | some b => exact if_pos (hafter b (mem_of_lastMaxBy hmax))
  | cons b rest ih =>
    obtain ⟨hb, hrest⟩ := List.forall_mem_cons.1 hbefore
    rw [List.cons_append, lastMaxBy, ih hrest]
    exact if_neg (Nat.not_lt.2 hb)

end Search

/-! ## The binding that starts last -/

section Last

variable {stretch : Binding → Option Span} {holds : Span → Bool} {l : List Binding} {b : Binding}

/-- Among the bindings whose stretch satisfies `holds`, no stretch starts after that of this one,
and where one starts at the same offset, its binding comes earlier in the list. -/
def StartsLast (stretch : Binding → Option Span) (holds : Span → Bool) (l : List Binding)
    (b : Binding) : Prop :=
  ∃ before after r, l = before ++ b :: after ∧ stretch b = some r ∧ holds r = true ∧
    (∀ d ∈ before, ∀ q ∈ stretch d, holds q = true → q.start ≤ r.start) ∧
    ∀ d ∈ after, ∀ q ∈ stretch d, holds q = true → q.start < r.start

variable {key : Binding → Nat} {candidate : Binding → Bool}
  (hkey : ∀ d r, stretch d = some r → key d = r.start)
  (hcandidate : ∀ d, candidate d = (stretch d).any holds)

include hcandidate in
private theorem exists_stretch {d : Binding} (h : candidate d = true) :
    ∃ r, stretch d = some r ∧ holds r = true := by
  rwa [hcandidate, Option.any_eq_true] at h

include hcandidate in
private theorem candidate_of_mem {d : Binding} {q : Span} (hq : q ∈ stretch d)
    (h : holds q = true) :
    candidate d = true := by
  rw [hcandidate, hq, Option.any_some, h]

include hkey hcandidate in
/-- The last of the greatest candidates is the one that starts last. -/
theorem lastMaxBy_filter_eq_some_iff :
    lastMaxBy key (l.filter candidate) = some b ↔ StartsLast stretch holds l b := by
  constructor
  · intro h
    obtain ⟨before, after, hsplit, hbefore, hafter⟩ := exists_of_lastMaxBy h
    obtain ⟨first, rest, rfl, rfl, hrest⟩ := List.filter_eq_append_iff.1 hsplit
    obtain ⟨passed, last, rfl, hpassed, hb, rfl⟩ := List.filter_eq_cons_iff.1 hrest
    obtain ⟨r, hr, hholds⟩ := exists_stretch hcandidate hb
    refine ⟨first ++ passed, last, r, (List.append_assoc _ _ _).symm, hr, hholds, ?_, ?_⟩
    · intro d hd q hq hqholds
      have hd' := candidate_of_mem hcandidate hq hqholds
      rcases List.mem_append.1 hd with hd | hd
      · have hle := hbefore d (List.mem_filter.2 ⟨hd, hd'⟩)
        rwa [hkey d q hq, hkey b r hr] at hle
      · exact absurd hd' (hpassed d hd)
    · intro d hd q hq hqholds
      have hlt := hafter d (List.mem_filter.2 ⟨hd, candidate_of_mem hcandidate hq hqholds⟩)
      rwa [hkey d q hq, hkey b r hr] at hlt
  · rintro ⟨before, after, r, rfl, hr, hholds, hbefore, hafter⟩
    rw [List.filter_append, List.filter_cons_of_pos (candidate_of_mem hcandidate hr hholds)]
    refine lastMaxBy_append_cons ?_ ?_ <;> intro d hd <;>
      obtain ⟨hd, hd'⟩ := List.mem_filter.1 hd <;>
      obtain ⟨q, hq, hqholds⟩ := exists_stretch hcandidate hd' <;>
      rw [hkey d q hq, hkey b r hr]
    · exact hbefore d hd q hq hqholds
    · exact hafter d hd q hq hqholds

include hcandidate in
/-- There is none exactly if no stretch satisfies `holds`. -/
theorem lastMaxBy_filter_eq_none_iff :
    lastMaxBy key (l.filter candidate) = none ↔
      ∀ d ∈ l, ∀ q ∈ stretch d, holds q = false := by
  constructor
  · intro h d hd q hq
    rw [Bool.eq_false_iff]
    intro hholds
    exact List.filter_eq_nil_iff.1 (lastMaxBy_eq_none h) d hd
      (candidate_of_mem hcandidate hq hholds)
  · intro h
    rw [List.filter_eq_nil_iff.2]
    · rfl
    · intro d hd hd'
      obtain ⟨q, hq, hholds⟩ := exists_stretch hcandidate hd'
      rw [h d hd q hq] at hholds
      cases hholds

omit hkey hcandidate in
/-- No stretch that satisfies `holds` starts after that of the one that starts last. -/
theorem StartsLast.exists_stretch (h : StartsLast stretch holds l b) :
    b ∈ l ∧ ∃ r, stretch b = some r ∧ holds r = true ∧
      ∀ d ∈ l, ∀ q, stretch d = some q → holds q = true → q.start ≤ r.start := by
  obtain ⟨before, after, r, rfl, hr, hholds, hbefore, hafter⟩ := h
  refine ⟨List.mem_append_right _ List.mem_cons_self, r, hr, hholds, fun d hd q hq hqholds => ?_⟩
  rcases List.mem_append.1 hd with hd | hd
  · exact hbefore d hd q hq hqholds
  rcases List.mem_cons.1 hd with rfl | hd
  · rw [hr, Option.some.injEq] at hq
    exact Nat.le_of_eq (congrArg Span.start hq.symm)
  · exact Nat.le_of_lt (hafter d hd q hq hqholds)

end Last

/-- The window in which the step forms of its form see the binding. -/
def Binding.doWindow (b : Binding) : Option Span :=
  if b.isDoVariable then b.stepWindow else none

/-- A binding has a `do` window when it is a variable of a `do` and has a step window. -/
theorem Binding.doWindow_eq_some_iff {b : Binding} {w : Span} :
    b.doWindow = some w ↔ b.isDoVariable = true ∧ b.stepWindow = some w := by
  unfold doWindow
  split <;> simp [*]

namespace Table

section Sites

variable {locals : List Binding} {site : Span} {b : Binding}

/-- Nothing is found at a place where no binding is written. -/
theorem find?_site_eq_none_iff :
    locals.find? (·.site == site) = none ↔ ∀ d ∈ locals, d.site ≠ site := by
  simp

/-- The first binding that is written at a place is found there. -/
theorem find?_site_eq_some_iff :
    locals.find? (·.site == site) = some b ↔ b.site = site ∧ ∃ before after,
      locals = before ++ b :: after ∧ ∀ d ∈ before, d.site ≠ site := by
  simp [List.find?_eq_some_iff_append]

end Sites

variable {locals : List Binding} {position : Nat} {b : Binding}

/-- The innermost local at an offset is the one whose scope touches it and starts last. -/
theorem innermost_eq_some_iff :
    innermost locals position = some b ↔
      StartsLast Binding.scope (·.touches position) locals b :=
  lastMaxBy_filter_eq_some_iff (fun d r hr => by rw [hr]; rfl) fun _ => rfl

/-- There is no innermost local where no scope touches the offset. -/
theorem innermost_eq_none_iff :
    innermost locals position = none ↔ ∀ d ∈ locals, ∀ q ∈ d.scope, q.touches position = false :=
  lastMaxBy_filter_eq_none_iff fun _ => rfl

/-- Something is innermost unless no scope holds the position. -/
theorem innermost_eq_none (h : innermost locals position = none) :
    ∀ b ∈ locals, b.isVisibleAt position = false := by
  intro b hb
  rw [Binding.isVisibleAt, Option.any_eq_false]
  exact innermost_eq_none_iff.1 h b hb

/-- No scope that holds the position starts after the one of the innermost binding. -/
theorem innermost_eq_some (h : innermost locals position = some b) :
    b ∈ locals ∧ ∃ r, b.scope = some r ∧ r.touches position = true ∧
      ∀ c ∈ locals, ∀ q, c.scope = some q → q.touches position = true → q.start ≤ r.start :=
  (innermost_eq_some_iff.1 h).exists_stretch

private theorem any_doWindow (d : Binding) :
    (d.isDoVariable && d.stepWindow.any (·.contains position)) =
      d.doWindow.any (·.contains position) := by
  unfold Binding.doWindow
  split <;> simp [*]

variable {t : Table}

/-- A step form means the variable of the `do` whose window holds it and starts last. -/
theorem stepVariable_eq_some_iff :
    t.stepVariable locals position = some b ↔ t.stepForms.contains position = true ∧
      StartsLast Binding.doWindow (·.contains position) locals b := by
  unfold stepVariable
  split
  · next hinside =>
    rw [and_iff_right hinside]
    refine lastMaxBy_filter_eq_some_iff (fun d r hr => ?_) any_doWindow
    rw [(Binding.doWindow_eq_some_iff.1 hr).2]
    rfl
  · next hinside => simp [hinside]

/-- No step variable is found outside the step forms and outside every window. -/
theorem stepVariable_eq_none_iff :
    t.stepVariable locals position = none ↔ (t.stepForms.contains position = true →
      ∀ d ∈ locals, ∀ q ∈ d.doWindow, q.contains position = false) := by
  unfold stepVariable
  split
  · next hinside =>
    rw [forall_prop_of_true hinside]
    exact lastMaxBy_filter_eq_none_iff any_doWindow
  · next hinside => simp [hinside]

end Table

namespace Analysis

variable {a : Analysis} {s : Symbol}

/-- A symbol that is not evaluated is resolved without a position. -/
theorem resolve_of_quoted (h : a.source.layout.quotedContext.contains s.span.start = true) :
    a.resolve s = a.table.resolve s.name s.span none := by
  rw [resolve]
  simp only [h, if_true]

/-- A symbol that is evaluated is resolved where it is written. -/
theorem resolve_of_evaluated
    (h : a.source.layout.quotedContext.contains s.span.start = false) :
    a.resolve s = a.table.resolve s.name s.span (some s.span.start) := by
  rw [resolve]
  simp only [h, Bool.false_eq_true, if_false]

/-- Where a local binding of the name is written, the symbol belongs to it. -/
theorem bindingOf_of_site (h : a.source.layout.quotedContext.contains s.span.start = false)
    {b : Binding} (hb : b ∈ a.table.locals s.name) (hsite : b.site = s.span) :
    (a.bindingOf s).map (·.site) = some s.span := by
  have hsome : ((a.table.locals s.name).find? (·.site == s.span)).isSome = true := by
    rw [List.find?_isSome]
    exact ⟨b, hb, by simpa using hsite⟩
  obtain ⟨d, hd⟩ := Option.isSome_iff_exists.1 hsome
  have hdsite : d.site = s.span := by simpa using List.find?_some hd
  have hresolve : a.resolve s = .found d := by
    rw [resolve_of_evaluated h, Table.resolve]
    simp only [hd]
  rw [bindingOf, hresolve, ← hdsite]
  rfl

/-- Elsewhere, and without step forms, the innermost binding is found. -/
theorem resolve_of_use (h : a.source.layout.quotedContext.contains s.span.start = false)
    (hsites : ∀ b ∈ a.table.locals s.name, b.site ≠ s.span) (hsteps : a.table.steps = []) :
    a.resolve s =
      match Table.innermost (a.table.locals s.name) s.span.start with
      | some b => .found b
      | none => ⟨a.table.global s.name, a.table.locals s.name⟩ := by
  have hnone := Table.find?_site_eq_none_iff.2 hsites
  have hstep : a.table.stepVariable (a.table.locals s.name) s.span.start = none := by
    rw [Table.stepVariable, Table.stepForms, hsteps, SpanSet.ofList_nil]
    rfl
  rw [resolve_of_evaluated h, Table.resolve]
  cases Table.innermost (a.table.locals s.name) s.span.start with
  | none => simp only [hnone, hstep]
  | some b => simp only [hnone]

/-- A use that some scope contains belongs to the innermost binding. -/
theorem bindingOf_of_innermost (h : a.source.layout.quotedContext.contains s.span.start = false)
    (hsites : ∀ b ∈ a.table.locals s.name, b.site ≠ s.span) (hsteps : a.table.steps = [])
    {b : Binding} (hb : Table.innermost (a.table.locals s.name) s.span.start = some b) :
    a.bindingOf s = some b := by
  rw [bindingOf, resolve_of_use h hsites hsteps, hb]
  rfl

/-- A use that no scope contains and no local name meets belongs to the global definition. -/
theorem bindingOf_of_global (h : a.source.layout.quotedContext.contains s.span.start = false)
    (hsteps : a.table.steps = [])
    (hvisible : (a.table.locals s.name).filter (·.isVisibleAt s.span.start) = [])
    (hsites : ∀ b ∈ a.table.locals s.name, b.site ≠ s.span ∧ b.site.meets s.span = false) :
    a.bindingOf s = a.table.global s.name := by
  have hnone : Table.innermost (a.table.locals s.name) s.span.start = none := by
    rw [Table.innermost, hvisible]
    rfl
  have hshadow : isShadowed s.span (a.table.locals s.name) = false := by
    rw [isShadowed, List.any_eq_false]
    intro b hb
    have hhidden := List.filter_eq_nil_iff.1 hvisible b hb
    simp [hhidden, (hsites b hb).2]
  rw [bindingOf, resolve_of_use h (fun b hb => (hsites b hb).1) hsteps, hnone]
  simp [hshadow]

end Analysis

end LexScope
