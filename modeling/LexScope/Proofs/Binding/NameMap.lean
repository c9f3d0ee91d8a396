import LexScope.Binding.CachedTable
import Mathlib.Data.List.Basic

/-!
# Maps from names

A map holds a list of bindings if it has, under each name, the bindings of that name in the order of
the list. The order between the names is lost, and nothing else: in whatever order the map is
visited, the bindings of each name are found together and as they were added.
-/

namespace LexScope

/-- Two lists agree up to their order if the elements of each class do. -/
theorem perm_of_filter_perm {α κ : Type} [BEq α] [LawfulBEq α] [BEq κ] [LawfulBEq κ] (key : α → κ)
    {l l' : List α} (h : ∀ k, (l.filter (key · == k)).Perm (l'.filter (key · == k))) :
    l.Perm l' := by
  rw [List.perm_iff_count]
  intro a
  have hcount (l : List α) : l.count a = (l.filter (key · == key a)).count a :=
    (List.count_filter (p := (key · == key a)) (beq_self_eq_true (key a))).symm
  rw [hcount, hcount l', (h (key a)).count_eq]

/-- Lengths that are added up are the length of all lists together. -/
theorem foldl_add_length {α β : Type} (f : α → List β) (l : List α) (n : Nat) :
    l.foldl (fun n a => n + (f a).length) n = n + (l.flatMap f).length := by
  induction l generalizing n with
  | nil => rfl
  | cons a rest ih =>
    rw [List.foldl_cons, ih, List.flatMap_cons, List.length_append, Nat.add_assoc]

namespace NameMap

/-- The size of a name map counts the bindings of all its keys. -/
theorem size_eq (m : NameMap) : m.size = (m.entries.flatMap (·.2)).length :=
  (foldl_add_length _ _ _).trans (Nat.zero_add _)

/-- The map has the bindings of the list, those of each name in the order of the list. -/
structure Holds (m : NameMap) (l : List Binding) : Prop where
  /-- No name stands twice. -/
  nodup : (m.entries.map (·.1)).Nodup
  /-- Under each name stand the bindings of the name. -/
  get : ∀ name, m.get name = l.filter (·.name == name)

section Entries

variable {name other : String} {added : List Binding} {entries : List (String × List Binding)}

private theorem lookup_extendEntries_self :
    (extendEntries name added entries).lookup name =
      some ((entries.lookup name).getD [] ++ added) := by
  induction entries with
  | nil => simp [extendEntries]
  | cons e rest ih =>
    obtain ⟨key, held⟩ := e
    rw [extendEntries]
    by_cases hkey : key = name
    · subst hkey
      simp
    · have hne : (name == key) = false := beq_false_of_ne (Ne.symm hkey)
      simp [hkey, List.lookup_cons, hne, ih]

private theorem lookup_extendEntries_of_ne (h : other ≠ name) :
    (extendEntries name added entries).lookup other = entries.lookup other := by
  have hne : (other == name) = false := beq_false_of_ne h
  induction entries with
  | nil => simp [extendEntries, List.lookup_cons, hne]
  | cons e rest ih =>
    obtain ⟨key, held⟩ := e
    rw [extendEntries]
    by_cases hkey : key = name
    · subst hkey
      simp [List.lookup_cons, hne]
    · simp only [beq_iff_eq, hkey, if_false, List.lookup_cons, ih]

private theorem keys_extendEntries :
    (extendEntries name added entries).map (·.1) =
      if name ∈ entries.map (·.1) then entries.map (·.1) else entries.map (·.1) ++ [name] := by
  induction entries with
  | nil => simp [extendEntries]
  | cons e rest ih =>
    obtain ⟨key, held⟩ := e
    rw [extendEntries]
    by_cases hkey : key = name
    · subst hkey
      simp
    · simp only [beq_iff_eq, hkey, if_false, List.map_cons, ih, List.mem_cons, Ne.symm hkey,
        false_or]
      split <;> rfl

/-- Where no name stands twice, at most one entry has a name. -/
theorem filter_entries_eq (h : (entries.map (·.1)).Nodup) (name : String) :
    entries.filter (·.1 == name) = (entries.lookup name).toList.map fun held => (name, held) := by
  induction entries with
  | nil => rfl
  | cons e rest ih =>
    obtain ⟨key, held⟩ := e
    obtain ⟨hkey, hrest⟩ := List.nodup_cons.1 h
    by_cases hname : key = name
    · subst hname
      have hnone : rest.filter (·.1 == key) = [] := by
        rw [List.filter_eq_nil_iff]
        intro e he heq
        exact hkey (List.mem_map.2 ⟨e, he, eq_of_beq heq⟩)
      simp [hnone]
    · have hne : (name == key) = false := beq_false_of_ne (Ne.symm hname)
      rw [List.filter_cons_of_neg (by simpa using hname), ih hrest, List.lookup_cons, hne]

end Entries

namespace Holds

variable {m : NameMap} {l : List Binding}

/-- The empty map holds no bindings. -/
theorem empty : Holds {} [] := ⟨List.nodup_nil, fun _ => rfl⟩

/-- A map holds a list up to the order of bindings of different names. -/
theorem congr (h : m.Holds l) {l' : List Binding}
    (hl : ∀ name, l'.filter (·.name == name) = l.filter (·.name == name)) : m.Holds l' :=
  ⟨h.nodup, fun name => (h.get name).trans (hl name).symm⟩

/-- Bindings of one name are added behind all others. -/
theorem extend (h : m.Holds l) {name : String} {added : List Binding}
    (hadded : ∀ b ∈ added, b.name = name) : (m.extend name added).Holds (l ++ added) := by
  constructor
  · rw [NameMap.extend, keys_extendEntries]
    split
    · exact h.nodup
    · next hname =>
      refine List.nodup_append.2 ⟨h.nodup, by simp, fun key hkey other hother heq => ?_⟩
      rw [List.mem_singleton] at hother
      exact hname (hother ▸ heq ▸ hkey)
  · intro other
    rw [List.filter_append, ← h.get other]
    by_cases hother : other = name
    · subst hother
      have hall : added.filter (·.name == other) = added :=
        List.filter_eq_self.2 fun b hb => beq_iff_eq.2 (hadded b hb)
      rw [hall, NameMap.get, NameMap.extend, lookup_extendEntries_self]
      rfl
    · have hnone : added.filter (·.name == other) = [] :=
        List.filter_eq_nil_iff.2 fun b hb heq => hother ((eq_of_beq heq).symm.trans (hadded b hb))
      rw [hnone, List.append_nil, NameMap.get, NameMap.extend, lookup_extendEntries_of_ne hother]
      rfl

/-- An entry has the bindings of its name. -/
theorem eq_filter_of_mem (h : m.Holds l) {e : String × List Binding} (he : e ∈ m.entries) :
    e.2 = l.filter (·.name == e.1) := by
  have hmem : e ∈ m.entries.filter (·.1 == e.1) := List.mem_filter.2 ⟨he, beq_self_eq_true _⟩
  rw [filter_entries_eq h.nodup, List.mem_map] at hmem
  obtain ⟨held, hheld, heq⟩ := hmem
  rw [← h.get, NameMap.get, Option.mem_toList.1 hheld, Option.getD_some, ← heq]

/-- The bindings kept under a key have that key as their name. -/
theorem name_of_mem (h : m.Holds l) {e : String × List Binding} (he : e ∈ m.entries) {b : Binding}
    (hb : b ∈ e.2) : b.name = e.1 := by
  rw [h.eq_filter_of_mem he] at hb
  exact eq_of_beq (List.mem_filter.1 hb).2

section Visited

variable {visited : List (String × List Binding)}

/-- In whatever order a map is visited, the entry of a name is found once. -/
theorem filter_visited (h : m.Holds l) (hvisited : visited.Perm m.entries) (name : String) :
    visited.filter (·.1 == name) = (m.entries.lookup name).toList.map fun held => (name, held) := by
  have hperm := hvisited.filter (·.1 == name)
  rw [filter_entries_eq h.nodup] at hperm
  cases hlookup : m.entries.lookup name with
  | none =>
    rw [hlookup] at hperm
    exact hperm.eq_nil
  | some held =>
    rw [hlookup] at hperm
    exact List.perm_singleton.1 hperm

/-- What is taken from the entries of a map has, for each name, what is taken from its bindings. -/
theorem filter_flatMap_visited (h : m.Holds l) (hvisited : visited.Perm m.entries)
    (take : List Binding → List Binding) (hnil : take [] = []) (htake : ∀ l, ∀ b ∈ take l, b ∈ l)
    (name : String) :
    (visited.flatMap fun e => take e.2).filter (·.name == name) =
      take (l.filter (·.name == name)) := by
  have hnamed : ∀ e ∈ visited, (take e.2).filter (·.name == name) =
      if e.1 == name then take e.2 else [] := by
    intro e he
    have hname (b : Binding) (hb : b ∈ take e.2) : b.name = e.1 :=
      h.name_of_mem (hvisited.mem_iff.1 he) (htake _ b hb)
    split
    · next heq => exact List.filter_eq_self.2 fun b hb => by rwa [hname b hb]
    · next hne => exact List.filter_eq_nil_iff.2 fun b hb => by rwa [hname b hb]
  have hfilter : (visited.flatMap fun e => take e.2).filter (·.name == name) =
      (visited.filter (·.1 == name)).flatMap fun e => take e.2 := by
    rw [List.filter_flatMap, List.flatMap_congr hnamed]
    clear hnamed h hvisited
    induction visited with
    | nil => rfl
    | cons e rest ih =>
      rw [List.flatMap_cons, ih, List.filter_cons]
      split <;> rfl
  rw [hfilter, h.filter_visited hvisited, ← h.get, NameMap.get]
  cases m.entries.lookup name <;> simp [hnil]

/-- The bindings of a map in the order in which it is visited. -/
theorem filter_visited_bindings (h : m.Holds l) (hvisited : visited.Perm m.entries)
    (name : String) :
    (visited.flatMap (·.2)).filter (·.name == name) = l.filter (·.name == name) :=
  h.filter_flatMap_visited hvisited id rfl (fun _ _ hb => hb) name

/-- All bindings of the list are visited. -/
theorem perm_visited (h : m.Holds l) (hvisited : visited.Perm m.entries) :
    (visited.flatMap (·.2)).Perm l := by
  refine perm_of_filter_perm Binding.name fun name => ?_
  rw [h.filter_visited_bindings hvisited]

/-- The last binding of each name, and of it what is visited. -/
theorem filter_visited_last (h : m.Holds l) (hvisited : visited.Perm m.entries) (name : String) :
    (visited.filterMap (·.2.getLast?)).filter (·.name == name) =
      (l.filter (·.name == name)).getLast?.toList := by
  rw [List.filterMap_eq_flatMap_toList]
  exact h.filter_flatMap_visited hvisited (fun l => l.getLast?.toList) rfl
    (fun l b hb => List.mem_of_getLast? (Option.mem_toList.1 hb)) name

end Visited

end Holds

end NameMap

end LexScope
