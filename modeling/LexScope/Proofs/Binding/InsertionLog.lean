import LexScope.Proofs.Binding.Lookup
import LexScope.Proofs.Binding.NameMap
import LexScope.Proofs.Span.Algebra
import Mathlib.Data.List.Perm.Basic

/-!
# The table follows its log

Whatever is asked of a table while it is filled, and in whatever order its maps are visited, each
answer is what the entries added so far say: a view that is kept is never out of date. The table
without maps and views, in which a document is analysed, gives the same answers. So do tables that
were filled in another order, as long as the bindings of one name and collection keep theirs.
-/

namespace LexScope

/-! ## Sorting -/

section Sorting

variable {α : Type} {le : α → α → Bool}

/-- A sorted list is determined by the order of the elements that tie. -/
theorem eq_of_pairwise_of_filter_tied (hrefl : ∀ a, le a a = true) {l l' : List α}
    (hl : l.Pairwise fun a b => le a b = true) (hl' : l'.Pairwise fun a b => le a b = true)
    (h : ∀ a, l.filter (fun b => le a b && le b a) = l'.filter (fun b => le a b && le b a)) :
    l = l' := by
  induction l generalizing l' with
  | nil =>
    refine (List.eq_nil_iff_forall_not_mem.2 fun b hb => ?_).symm
    have hempty := h b
    rw [List.filter_nil, eq_comm, List.filter_eq_nil_iff] at hempty
    exact hempty b hb (by simp [hrefl])
  | cons a rest ih =>
    have hmem (k : List α) (b : α) : b ∈ k ↔ b ∈ k.filter fun c => le b c && le c b := by
      simp [List.mem_filter, hrefl]
    have hsame (b : α) : b ∈ a :: rest ↔ b ∈ l' := by rw [hmem, h, ← hmem]
    cases l' with
    | nil => exact absurd ((hsame a).1 List.mem_cons_self) List.not_mem_nil
    | cons b rest' =>
      obtain ⟨hfirst, hrest⟩ := List.pairwise_cons.1 hl
      obtain ⟨hfirst', hrest'⟩ := List.pairwise_cons.1 hl'
      -- Each list starts with a least element, so the two tie, and ties stand in one order.
      have hab : le a b = true := by
        rcases List.mem_cons.1 ((hsame b).2 List.mem_cons_self) with rfl | hb
        · exact hrefl b
        · exact hfirst b hb
      have hba : le b a = true := by
        rcases List.mem_cons.1 ((hsame a).1 List.mem_cons_self) with rfl | ha
        · exact hrefl a
        · exact hfirst' a ha
      have hheads := h a
      rw [List.filter_cons_of_pos (by simp [hrefl]), List.filter_cons_of_pos (by simp [hab, hba]),
        List.cons.injEq] at hheads
      obtain rfl := hheads.1
      refine congrArg _ (ih hrest hrest' fun c => ?_)
      have hclass := h c
      rw [List.filter_cons, List.filter_cons] at hclass
      split at hclass
      · exact (List.cons.inj hclass).2
      · exact hclass

/-- Sorting keeps the order of the elements that tie. -/
theorem filter_tied_mergeSort (htrans : ∀ a b c, le a b = true → le b c = true → le a c = true)
    (htotal : ∀ a b, (le a b || le b a) = true) (l : List α) (a : α) :
    (l.mergeSort le).filter (fun b => le a b && le b a) = l.filter fun b => le a b && le b a := by
  have hpairwise : (l.filter fun b => le a b && le b a).Pairwise fun b c => le b c = true := by
    refine List.pairwise_of_forall_mem_list fun b hb c hc => ?_
    have hb := (List.mem_filter.1 hb).2
    have hc := (List.mem_filter.1 hc).2
    rw [Bool.and_eq_true] at hb hc
    exact htrans b a c hb.2 hc.1
  have hsub := (List.sublist_mergeSort htrans htotal hpairwise List.filter_sublist).filter
    fun b => le a b && le b a
  rw [List.filter_filter] at hsub
  simp only [Bool.and_self] at hsub
  exact (hsub.eq_of_length ((List.mergeSort_perm l le).filter _).length_eq.symm).symm

end Sorting

/-! ## What the log says -/

/-- The binding that an entry adds, and its collection. -/
def Entry.placed? : Entry → Option (Collection × Binding)
  | .binding c b => some (c, b)
  | .stepForm _ => none

namespace Table

/-- The visible bindings after some entries were added: by name and place, and at one place first
the last global definition of the name, and then the local bindings whose scope contains the offset,
collection by collection as they were added. -/
structure ShowsVisible (log : List Entry) (offset : Nat) (l : List Binding) : Prop where
  /-- They are sorted by name and place. -/
  sorted : l.Pairwise fun a b => visibleOrder a b = true
  /-- What there is of each name and place. -/
  tied : ∀ name start, l.filter (fun b => b.name == name && b.site.start == start) =
    ((addedGlobal log name).toList ++
      (addedLocals log name).filter (·.isVisibleAt offset)).filter (·.site.start == start)

variable {log : List Entry} {offset : Nat}

private theorem visibleOrder_refl (b : Binding) : visibleOrder b b = true := by
  simp [visibleOrder]

/-- Two bindings tie if they agree in name and place. -/
theorem visibleOrder_and (a b : Binding) :
    (visibleOrder a b && visibleOrder b a) =
      (b.name == a.name && b.site.start == a.site.start) := by
  rw [Bool.eq_iff_iff]
  simp only [visibleOrder, Bool.and_eq_true, Bool.or_eq_true, decide_eq_true_eq, beq_iff_eq]
  constructor
  · rintro ⟨hab | ⟨hname, hab⟩, hba | ⟨hname', hba⟩⟩
    · exact absurd hba (String.lt_asymm hab)
    · exact absurd hab (hname' ▸ String.lt_irrefl _)
    · exact absurd hba (hname ▸ String.lt_irrefl _)
    · exact ⟨hname', Nat.le_antisymm hba hab⟩
  · rintro ⟨hname, hstart⟩
    exact ⟨.inr ⟨hname.symm, hstart.ge⟩, .inr ⟨hname, hstart.le⟩⟩

/-- The log leaves no choice. -/
theorem ShowsVisible.eq {log' : List Entry} {l l' : List Binding} (h : ShowsVisible log offset l)
    (h' : ShowsVisible log' offset l')
    (hglobal : ∀ name, addedGlobal log name = addedGlobal log' name)
    (hlocals : ∀ name, addedLocals log name = addedLocals log' name) : l = l' := by
  refine eq_of_pairwise_of_filter_tied visibleOrder_refl h.sorted h'.sorted fun a => ?_
  simp only [visibleOrder_and]
  rw [h.tied, h'.tied, hglobal, hlocals]

/-- Sorting shows what is visible, whatever the order between the names. -/
theorem showsVisible_mergeSort {globals visible : List Binding}
    (hglobals : ∀ name, globals.filter (·.name == name) = (addedGlobal log name).toList)
    (hvisible : ∀ name, visible.filter (·.name == name) =
      (addedLocals log name).filter (·.isVisibleAt offset)) :
    ShowsVisible log offset ((globals ++ visible).mergeSort visibleOrder) where
  sorted := List.pairwise_mergeSort visibleOrder_trans visibleOrder_total _
  tied name start := by
    -- Any binding of the name and place stands for all of them.
    have htied := filter_tied_mergeSort visibleOrder_trans visibleOrder_total (globals ++ visible)
      (.global name (.point start) default default)
    simp only [visibleOrder_and] at htied
    have hclass (b : Binding) : (b.name == name && b.site.start == start) =
        (b.site.start == start && b.name == name) := Bool.and_comm _ _
    rw [← hglobals, ← hvisible, ← List.filter_append, List.filter_filter]
    simp only [← hclass]
    exact htied

end Table

/-! ## Maps stand for the log -/

namespace CachedTable

/-- The bindings with a scope that were added, collection by collection. -/
def addedLexicals (log : List Entry) : List Binding :=
  Collection.lexical.flatMap fun c => log.filterMap (Entry.binding? c)

/-- A table stands for a log: its maps hold what was added, and a view that is kept is what it would
be if it were computed now. -/
structure Represents (t : CachedTable) (log : List Entry) : Prop where
  /-- Each map holds the bindings of its collection. -/
  maps : ∀ c, (t.maps c).Holds (log.filterMap (Entry.binding? c))
  /-- The step forms stand as they were added. -/
  steps : t.steps = log.filterMap Entry.step?
  /-- The view of the step forms has their offsets. -/
  stepSet : ∀ set ∈ t.stepSet, set = .ofList (log.filterMap Entry.step?)
  /-- The view of the bindings holds all that have a scope. -/
  lexicals : ∀ view ∈ t.lexicals, view.Holds (addedLexicals log)

variable {t : CachedTable} {log : List Entry}

private theorem Represents.empty : Represents {} [] where
  maps _ := .empty
  steps := rfl
  stepSet := by simp
  lexicals := by simp

/-- Adding a binding drops the view of the bindings; the view of the step forms stays right. -/
theorem Represents.insert (h : t.Represents log) (c : Collection) (b : Binding) :
    (t.insert c b).Represents (log ++ [.binding c b]) where
  maps d := by
    rw [CachedTable.insert, List.filterMap_append]
    by_cases hd : d = c
    · subst hd
      have hnamed : ∀ other ∈ [b], other.name = b.name := by simp
      simpa [Entry.binding?, List.filterMap_cons] using (h.maps d).extend hnamed
    · simpa [Entry.binding?, List.filterMap_cons, hd, Ne.symm hd] using h.maps d
  steps := by simpa [CachedTable.insert, Entry.step?, List.filterMap_cons] using h.steps
  stepSet := by simpa [CachedTable.insert, Entry.step?, List.filterMap_cons] using h.stepSet
  lexicals := by simp [CachedTable.insert]

/-- Adding a step form drops the view of the step forms; the view of the bindings stays right. -/
theorem Represents.insertStep (h : t.Represents log) (s : Span) :
    (t.insertStep s).Represents (log ++ [.stepForm s]) where
  maps c := by simpa [CachedTable.insertStep, Entry.binding?, List.filterMap_cons] using h.maps c
  steps := by simp [CachedTable.insertStep, h.steps, Entry.step?]
  stepSet := by simp [CachedTable.insertStep]
  lexicals := by
    simpa [CachedTable.insertStep, addedLexicals, Entry.binding?, List.filterMap_cons]
      using h.lexicals

/-- The view of the step forms has their offsets, and the table keeps it. -/
theorem Represents.stepForms (h : t.Represents log) :
    t.stepForms.1 = .ofList (log.filterMap Entry.step?) ∧ t.stepForms.2.Represents log := by
  rw [CachedTable.stepForms]
  split
  · next set hset => exact ⟨h.stepSet set hset, h⟩
  · have hview : SpanSet.ofList t.steps = .ofList (log.filterMap Entry.step?) := by rw [h.steps]
    exact ⟨hview, { h with stepSet := by simpa using hview }⟩

section View

variable (order : VisitOrder)

/-- The bindings of a map that is visited come behind those that are there. -/
theorem holds_mergeInto {merged : NameMap} {l : List Binding} (h : merged.Holds l)
    {visited : List (String × List Binding)} (hnamed : ∀ e ∈ visited, ∀ b ∈ e.2, b.name = e.1) :
    (mergeInto merged visited).Holds (l ++ visited.flatMap (·.2)) := by
  induction visited generalizing merged l with
  | nil => simpa [mergeInto] using h
  | cons e rest ih =>
    obtain ⟨he, hrest⟩ := List.forall_mem_cons.1 hnamed
    rw [List.flatMap_cons, ← List.append_assoc]
    exact ih (h.extend he) hrest

/-- Of each name the merged map has what the collections have, one after the other. -/
theorem Represents.holds_merge (h : t.Represents log) :
    (t.merge order).Holds (addedLexicals log) := by
  rw [merge, addedLexicals, ← List.nil_append (List.flatMap _ _)]
  have hstart := NameMap.Holds.empty
  generalize ({} : NameMap) = merged at hstart ⊢
  generalize ([] : List Binding) = l at hstart ⊢
  generalize Collection.lexical = collections
  induction collections generalizing merged l with
  | nil => simpa using hstart
  | cons c rest ih =>
    have hvisited := order.perm (some c) (t.maps c)
    have hnamed : ∀ e ∈ order.visit (some c) (t.maps c), ∀ b ∈ e.2, b.name = e.1 :=
      fun e he b hb => (h.maps c).name_of_mem (hvisited.mem_iff.1 he) hb
    rw [List.flatMap_cons, ← List.append_assoc]
    refine ih _ _ ((holds_mergeInto hstart hnamed).congr fun name => ?_)
    rw [List.filter_append, List.filter_append, (h.maps c).filter_visited_bindings hvisited]

/-- The view of the bindings holds all that have a scope, and the table keeps it. -/
theorem Represents.lexicalView (h : t.Represents log) :
    (t.lexicalView order).1.Holds (addedLexicals log) ∧
      (t.lexicalView order).2.Represents log := by
  rw [CachedTable.lexicalView]
  split
  · next view hview => exact ⟨h.lexicals view hview, h⟩
  · exact ⟨h.holds_merge order, { h with lexicals := by simpa using h.holds_merge order }⟩

end View

/-! ## Questions -/

/-- What a table is asked. -/
inductive Question where
  /-- The offsets in step forms. -/
  | stepForms
  /-- The global definition of a name. -/
  | global (name : String)
  /-- The bindings of a name that have a scope. -/
  | locals (name : String)
  /-- Every binding with its collection. -/
  | bindings
  /-- The number of bindings. -/
  | size
  /-- What is visible at an offset. -/
  | visibleAt (offset : Nat)

/-- What is answered. -/
def Question.Answer : Question → Type
  | .stepForms => SpanSet
  | .global _ => Option Binding
  | .locals _ => List Binding
  | .bindings => List (Collection × Binding)
  | .size => Nat
  | .visibleAt _ => List Binding

/-- The answer of a table, and the table with the views that were computed for it. -/
def ask (t : CachedTable) (order : VisitOrder) : (q : Question) → q.Answer × CachedTable
  | .stepForms => t.stepForms
  | .global name => (t.global name, t)
  | .locals name => t.locals order name
  | .bindings => (t.bindings order, t)
  | .size => (t.size, t)
  | .visibleAt offset => t.visibleAt order offset

/-- The bindings that were added, with their collections. -/
def added (log : List Entry) : List (Collection × Binding) := log.filterMap Entry.placed?

/-- The answer that a log gives to a question. The order of all bindings is left open. -/
def Question.IsAnswered (log : List Entry) : (q : Question) → q.Answer → Prop
  | .stepForms, set => SpanSet.Separated (SpanSet.spans set) ∧
      ∀ offset, SpanSet.contains set offset = true ↔ Table.InAddedStep log offset
  | .global name, b => b = Table.addedGlobal log name
  | .locals name, l => l = Table.addedLocals log name
  | .bindings, l => List.Perm l (added log)
  | .size, n => n = (added log).length
  | .visibleAt offset, l => Table.ShowsVisible log offset l

/-- Asking leaves a table that stands for the same log. -/
theorem Represents.ask (h : t.Represents log) (order : VisitOrder) (q : Question) :
    (t.ask order q).2.Represents log := by
  cases q with
  | stepForms => exact h.stepForms.2
  | locals name => exact (h.lexicalView order).2
  | visibleAt offset => exact (h.lexicalView order).2
  | global name | bindings | size => exact h

/-! ## Answers -/

/-- The bindings that were added, collection by collection, are all that were added. -/
theorem perm_added (log : List Entry) :
    (Collection.all.flatMap fun c => (log.filterMap (Entry.binding? c)).map fun b => (c, b)).Perm
      (added log) := by
  have hplaced (c : Collection) : (log.filterMap (Entry.binding? c)).map (fun b => (c, b)) =
      (added log).filter (·.1 == c) := by
    rw [added, List.filter_filterMap, List.map_filterMap]
    refine List.filterMap_congr fun e _ => ?_
    cases e with
    | binding d b =>
      by_cases hd : d = c <;> simp [Entry.binding?, Entry.placed?, Option.filter, hd]
    | stepForm => rfl
  refine perm_of_filter_perm Prod.fst fun c => .of_eq ?_
  -- Of the seven parts only that of the collection has any of its bindings.
  have hpart (d : Collection) : ((added log).filter (·.1 == d)).filter (·.1 == c) =
      if d = c then (added log).filter (·.1 == c) else [] := by
    rw [List.filter_filter]
    split
    · next hd => simp [hd]
    · next hd =>
      refine List.filter_eq_nil_iff.2 fun x _ hx => hd ?_
      rw [Bool.and_eq_true] at hx
      exact (eq_of_beq hx.2).symm.trans (eq_of_beq hx.1)
  rw [List.filter_flatMap]
  simp only [hplaced, hpart, Collection.all, Collection.lexical]
  cases c <;> simp

section Answered

variable (h : t.Represents log) (order : VisitOrder)

include h

private theorem Represents.perm_bindings : (t.bindings order).Perm (added log) := by
  refine .trans ?_ (perm_added log)
  exact List.Perm.flatMap_left _ fun c _ => ((h.maps c).perm_visited (order.perm _ _)).map _

private theorem Represents.size_eq : t.size = (added log).length := by
  have hpart (c : Collection) : (t.maps c).size =
      (((t.maps c).entries.flatMap (·.2)).map fun b => (c, b)).length := by
    rw [List.length_map, NameMap.size_eq]
  rw [← (h.perm_bindings .asAdded).length_eq, size]
  simp only [hpart]
  exact (foldl_add_length _ _ _).trans (Nat.zero_add _)

private theorem Represents.locals_eq (name : String) :
    (t.locals order name).1 = Table.addedLocals log name :=
  (h.lexicalView order).1.get name

private theorem Represents.global_eq (name : String) : t.global name = Table.addedGlobal log name :=
  congrArg List.getLast? ((h.maps .globalDefinition).get name)

private theorem Represents.showsVisible (offset : Nat) :
    Table.ShowsVisible log offset (t.visibleAt order offset).1 := by
  refine Table.showsVisible_mergeSort
    ((h.maps .globalDefinition).filter_visited_last (order.perm _ _)) fun name => ?_
  have hvisited := (h.lexicalView order).1.filter_visited_bindings (order.perm none _) name
  rw [List.filter_filter, Table.addedLocals, ← addedLexicals, ← hvisited, List.filter_filter]
  exact List.filter_congr fun b _ => Bool.and_comm _ _

/-- Every question is answered as the log says. -/
theorem Represents.isAnswered (hlog : ∀ s, .stepForm s ∈ log → s.start ≤ s.stop) (q : Question) :
    q.IsAnswered log (t.ask order q).1 := by
  cases q with
  | stepForms =>
    have hview := h.stepForms.1
    refine ⟨?_, fun offset => ?_⟩
    · rw [CachedTable.ask, hview]
      exact SpanSet.separated_ofList fun s hs => hlog s (Table.mem_filterMap_step?.1 hs)
    · rw [CachedTable.ask, hview]
      exact Table.contains_ofList_step? hlog
  | global name => exact h.global_eq name
  | locals name => exact h.locals_eq order name
  | bindings => exact h.perm_bindings order
  | size => exact h.size_eq
  | visibleAt offset => exact h.showsVisible order offset

end Answered

/-! ## Logs that say the same -/

/-- Both are answers to one question. All bindings may stand in any order. -/
def Question.Same : (q : Question) → q.Answer → q.Answer → Prop
  | .bindings, l, l' => List.Perm l l'
  | .stepForms, a, a' | .global _, a, a' | .locals _, a, a' | .size, a, a' | .visibleAt _, a, a' =>
    a = a'

/-- Two logs say the same. -/
structure Alike (log log' : List Entry) : Prop where
  /-- The bindings of each name and collection were added in one order. -/
  named : ∀ c name, (log.filterMap (Entry.binding? c)).filter (·.name == name) =
    (log'.filterMap (Entry.binding? c)).filter (·.name == name)
  /-- The same bindings were added. -/
  added : (added log).Perm (CachedTable.added log')
  /-- So were the same step forms. -/
  steps : ∀ s, .stepForm s ∈ log ↔ .stepForm s ∈ log'

namespace Alike

variable {log' : List Entry}

private theorem refl (log : List Entry) : Alike log log := ⟨fun _ _ => rfl, .refl _, fun _ => .rfl⟩

private theorem addedGlobal_eq (h : Alike log log') (name : String) :
    Table.addedGlobal log name = Table.addedGlobal log' name :=
  congrArg List.getLast? (h.named .globalDefinition name)

private theorem addedLocals_eq (h : Alike log log') (name : String) :
    Table.addedLocals log name = Table.addedLocals log' name := by
  simp only [Table.addedLocals, List.filter_flatMap, h.named]

/-- A log leaves a question no choice of answers. -/
theorem same (h : Alike log log') {q : Question} {a a' : q.Answer} (ha : q.IsAnswered log a)
    (ha' : q.IsAnswered log' a') : q.Same a a' := by
  cases q with
  | stepForms =>
    refine SpanSet.eq_of_contains_iff ha.1 ha'.1 fun offset => ?_
    simp only [ha.2, ha'.2, Table.InAddedStep, h.steps]
  | global name => exact (ha.trans (h.addedGlobal_eq name)).trans ha'.symm
  | locals name => exact (ha.trans (h.addedLocals_eq name)).trans ha'.symm
  | bindings => exact (ha.trans h.added).trans ha'.symm
  | size => exact (ha.trans h.added.length_eq).trans ha'.symm
  | visibleAt offset => exact ha.eq ha' h.addedGlobal_eq h.addedLocals_eq

end Alike

/-- The logs differ in the order of two neighbours that differ in name or collection. -/
inductive Swapped : List Entry → List Entry → Prop where
  /-- The two neighbours, and what is before and after them. -/
  | intro (before after : List Entry) {c d : Collection} {b e : Binding}
    (h : b.name ≠ e.name ∨ c ≠ d) :
    Swapped (before ++ .binding c b :: .binding d e :: after)
      (before ++ .binding d e :: .binding c b :: after)

private theorem Swapped.alike {log log' : List Entry} (h : Swapped log log') : Alike log log' := by
  obtain ⟨before, after, hdiffer⟩ := h
  rename_i c d b e
  constructor
  case named =>
    intro k name
    -- At most one of the two is in the collection and has the name.
    have hpair : ([.binding c b, .binding d e].filterMap (Entry.binding? k)).filter
        (·.name == name) = ([.binding d e, .binding c b].filterMap (Entry.binding? k)).filter
        (·.name == name) := by
      by_cases hc : c = k <;> by_cases hd : d = k <;>
        simp [Entry.binding?, hc, hd]
      have hname : b.name ≠ e.name := hdiffer.resolve_right fun hne => hne (hc.trans hd.symm)
      by_cases hb : b.name = name <;> by_cases he : e.name = name <;> simp [hb, he]
      exact absurd (hb.trans he.symm) hname
    have hsplit (x y : Entry) : before ++ x :: y :: after = before ++ [x, y] ++ after := by simp
    simp only [hsplit, List.filterMap_append, List.filter_append, hpair]
  case added =>
    exact ((List.Perm.swap _ _ after).append_left before).filterMap _
  case steps =>
    intro s
    simp

end CachedTable

/-! ## The table without views -/

namespace Table

/-- Every binding with its collection. -/
def placed (t : Table) : List (Collection × Binding) :=
  Collection.all.flatMap fun c => (t.get c).map fun b => (c, b)

private theorem length_placed (t : Table) : t.placed.length = t.size := by
  simp [placed, size, toList, List.length_flatMap]

private theorem perm_placed_foldl_add (log : List Entry) :
    (log.foldl add {}).placed.Perm (CachedTable.added log) := by
  rw [placed, funext (get_foldl_add_empty log)]
  exact CachedTable.perm_added log

/-- The answer of a table without maps and views. -/
def answer (t : Table) : (q : CachedTable.Question) → q.Answer
  | .stepForms => t.stepForms
  | .global name => t.global name
  | .locals name => t.locals name
  | .bindings => t.placed
  | .size => t.size
  | .visibleAt offset => t.visibleAt offset

private theorem filter_lastOfEach (l : List Binding) (name : String) :
    (lastOfEach l).filter (·.name == name) = (l.filter (·.name == name)).getLast?.toList := by
  fun_induction lastOfEach l with
  | case1 => rfl
  | case2 b rest hlater ih =>
    rw [ih, List.filter_cons]
    split
    · next hname =>
      obtain ⟨c, hc, heq⟩ := List.any_eq_true.1 hlater
      have hmem : c ∈ rest.filter (·.name == name) :=
        List.mem_filter.2 ⟨hc, beq_iff_eq.2 ((eq_of_beq heq).trans (eq_of_beq hname))⟩
      rw [List.getLast?_cons, List.getLast?_eq_some_getLast (List.ne_nil_of_mem hmem)]
      rfl
    · rfl
  | case3 b rest hlast ih =>
    rw [List.filter_cons, List.filter_cons, ih]
    split
    · next hname =>
      have hnone : rest.filter (·.name == name) = [] := by
        refine List.filter_eq_nil_iff.2 fun c hc heq => hlast (List.any_eq_true.2 ⟨c, hc, ?_⟩)
        exact beq_iff_eq.2 ((eq_of_beq heq).trans (eq_of_beq hname).symm)
      rw [hnone]
      rfl
    · rfl

/-- It is what the log says, too. -/
theorem isAnswered_answer {log : List Entry} (hlog : ∀ s, .stepForm s ∈ log → s.start ≤ s.stop)
    (q : CachedTable.Question) : q.IsAnswered log ((log.foldl add {}).answer q) := by
  cases q with
  | stepForms =>
    refine ⟨SpanSet.separated_ofList fun s hs => hlog s ?_, fun offset => stepForms_foldl_add hlog⟩
    rw [steps_foldl_add] at hs
    exact mem_filterMap_step?.1 hs
  | global name => exact global_foldl_add log name
  | locals name => exact locals_foldl_add log name
  | bindings => exact perm_placed_foldl_add log
  | size => exact (length_placed _).symm.trans (perm_placed_foldl_add log).length_eq
  | visibleAt offset =>
    refine showsVisible_mergeSort (fun name => ?_) fun name => ?_
    · rw [filter_lastOfEach, ← global_foldl_add]
      rfl
    · rw [← locals_foldl_add, locals, List.filter_filter, List.filter_filter]
      exact List.filter_congr fun b _ => Bool.and_comm _ _

end Table

/-! ## Runs -/

namespace CachedTable

/-- What is done with a table. -/
inductive Call where
  /-- Add a binding to a collection. -/
  | insert (c : Collection) (b : Binding)
  /-- Add a step form, the span of an expression and so in order. -/
  | insertStep (s : Span) (ordered : s.start ≤ s.stop)
  /-- Ask a question, while the maps are visited in some order. -/
  | ask (order : VisitOrder) (q : Question)

namespace Call

/-- The table after a call. -/
def apply (t : CachedTable) : Call → CachedTable
  | .insert c b => t.insert c b
  | .insertStep s _ => t.insertStep s
  | .ask order q => (t.ask order q).2

/-- What the call adds. -/
def entry? : Call → Option Entry
  | .insert c b => some (.binding c b)
  | .insertStep s _ => some (.stepForm s)
  | .ask _ _ => none

end Call

/-- The table after some calls. -/
def run (calls : List Call) : CachedTable := calls.foldl Call.apply {}

/-- The log of what some calls add. -/
def log (calls : List Call) : List Entry := calls.filterMap Call.entry?

private theorem start_le_stop_of_mem_log {calls : List Call} {s : Span}
    (h : .stepForm s ∈ log calls) :
    s.start ≤ s.stop := by
  obtain ⟨call, -, hcall⟩ := List.mem_filterMap.1 h
  cases call with
  | insert | ask => cases hcall
  | insertStep s' ordered =>
    cases hcall
    exact ordered

/-- A call leaves a table that stands for what was added, with what the call adds. -/
theorem Represents.apply {t : CachedTable} {entries : List Entry} (h : t.Represents entries)
    (call : Call) : (call.apply t).Represents (entries ++ call.entry?.toList) := by
  cases call with
  | insert c b => exact h.insert c b
  | insertStep s ordered => exact h.insertStep s
  | ask order q =>
    rw [Call.entry?, Option.toList_none, List.append_nil]
    exact h.ask order q

/-- After any calls the table stands for what they added. -/
theorem represents_run (calls : List Call) : (run calls).Represents (log calls) := by
  have hrun (t : CachedTable) (entries : List Entry) (h : t.Represents entries) :
      (calls.foldl Call.apply t).Represents (entries ++ log calls) := by
    induction calls generalizing t entries with
    | nil => simpa [log] using h
    | cons call rest ih =>
      have hrest := ih _ _ (h.apply call)
      rw [List.append_assoc] at hrest
      rw [List.foldl_cons, log, List.filterMap_cons]
      cases hentry : call.entry? <;> simpa [hentry, log] using hrest
  exact hrun {} [] .empty

/-- What holds of a table that is filled and asked in any order. -/
structure FollowsLog (calls : List Call) : Prop where
  /-- Every question is answered as the log of the entries so far says. -/
  answered : ∀ order (q : Question), q.IsAnswered (log calls) ((run calls).ask order q).1
  /-- The table that keeps no views answers the same. -/
  uncached : ∀ order (q : Question),
    q.Same ((run calls).ask order q).1 (((log calls).foldl Table.add {}).answer q)
  /-- So does a table in which two bindings that differ in name or collection were added the other
  way round. -/
  swapped : ∀ calls', Swapped (log calls) (log calls') → ∀ order order' (q : Question),
    q.Same ((run calls).ask order q).1 ((run calls').ask order' q).1

/-- A table follows its log, however additions and questions alternate. -/
theorem followsLog_run (calls : List Call) : FollowsLog calls := by
  have hanswered (calls : List Call) (order : VisitOrder) (q : Question) :
      q.IsAnswered (log calls) ((run calls).ask order q).1 :=
    (represents_run calls).isAnswered order (fun _ => start_le_stop_of_mem_log) q
  constructor
  case answered => exact hanswered calls
  case uncached =>
    intro order q
    exact (Alike.refl _).same (hanswered calls order q)
      (Table.isAnswered_answer (fun _ => start_le_stop_of_mem_log) q)
  case swapped =>
    intro calls' hswapped order order' q
    exact hswapped.alike.same (hanswered calls order q) (hanswered calls' order' q)

/-- A view that was computed does not hide what is added after it. -/
example :
    ((run [.insert .anonymousVariable (.lexical "x" ⟨6, 7⟩ .localVariable "let" ⟨8, 20⟩ ⟨0, 21⟩),
        .ask .asAdded (.locals "x"),
        .insert .singleVariable (.lexical "x" ⟨30, 31⟩ .localVariable "dolist" ⟨35, 40⟩ ⟨22, 41⟩),
        .insert .globalDefinition (.global "x" ⟨50, 51⟩ .specialVariable ⟨42, 52⟩)]).locals .asAdded
          "x").1.map (·.site.start) = [6, 30] := by
  decide

end CachedTable

end LexScope
