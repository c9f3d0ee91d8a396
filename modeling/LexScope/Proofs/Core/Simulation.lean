import LexScope.Proofs.Core.Scopes

/-!
# Environments and scopes agree

What a reference means is given by an environment, and what is found for it by the scopes around it.
`Explained` says for one reference that the two agree: either the reference is a binder itself, or
the scopes around it, each after those that surround it, are those of the names that have come into
force since the given environment. Scopes that start together belong to names of one list, whose
order decides. The theorems show this for every reference of an expression.
-/

namespace LexScope.Core

/-- The local bindings that are visible at an offset. -/
def visibleAt (offset : Nat) (ls : List Local) : List Local := ls.filter (·.scope.touches offset)

/-- Later bindings have scopes that start later, or together and in the same collection. -/
def Ordered (ls : List Local) : Prop :=
  ls.Pairwise fun a b => a.scope.start < b.scope.start ∨
    (a.scope.start = b.scope.start ∧ a.collection = b.collection)

/-- The two spans share no offset. -/
def Apart (s t : Span) : Prop := s.stop ≤ t.start ∨ t.stop ≤ s.start

/-- The reference stands between two offsets. -/
structure Reference.Inside (lo hi : Nat) (r : Reference) : Prop where
  /-- It starts there. -/
  start : lo ≤ r.name.site.start
  /-- It is not empty. -/
  proper : r.name.site.start < r.name.site.stop
  /-- It stops there. -/
  stop : r.name.site.stop ≤ hi

/-- The binding is not visible at a reference, and the reference is not its own name. -/
def Local.Unrelated (r : Reference) (l : Local) : Prop :=
  l.scope.touches r.name.site.start = false ∧ Apart l.name.site r.name.site

/-- The binding is visible at a reference, and the reference is not its own name. -/
def Local.Surrounds (r : Reference) (l : Local) : Prop :=
  l.scope.touches r.name.site.start = true ∧ Apart l.name.site r.name.site

/-- The environment and the scopes agree about a reference. -/
inductive Explained (ls : List Local) (ρ : Env) (r : Reference) : Prop
  /-- The reference is the name of a binding. -/
  | binder (l : Local) (hmem : l ∈ ls) (hname : l.name = r.name)
      (hself : r.binder = some r.name.site)
  /-- The reference is no name of a binding, and the bindings visible there are those that have come
  into force. -/
  | use (seen : List Local) (hapart : ∀ l ∈ ls, Apart l.name.site r.name.site)
      (hseen : ∀ c, (visibleAt r.name.site.start ls).filter (·.collection == c) =
        seen.filter (·.collection == c))
      (hordered : Ordered seen)
      (hbinder : r.binder = (ρ.extend (seen.map (·.name))).lookup r.name.name)

private theorem Env.extend_append (ρ : Env) (a b : List NameSite) :
    (ρ.extend a).extend b = ρ.extend (a ++ b) := by
  simp [Env.extend]

variable {lo hi offset : Nat} {r : Reference} {ρ : Env} {ls : List Local} {l : Local}

private theorem visibleAt_append (a b : List Local) :
    visibleAt offset (a ++ b) = visibleAt offset a ++ visibleAt offset b :=
  List.filter_append ..

private theorem visibleAt_of_unrelated (h : ∀ l ∈ ls, l.Unrelated r) :
    visibleAt r.name.site.start ls = [] := by
  rw [visibleAt, List.filter_eq_nil_iff]
  intro l hl
  simp [(h l hl).1]

private theorem visibleAt_of_surrounds (h : ∀ l ∈ ls, l.Surrounds r) :
    visibleAt r.name.site.start ls = ls :=
  List.filter_eq_self.2 fun l hl => (h l hl).1

private theorem filter_visibleAt (c : Collection) :
    (visibleAt offset ls).filter (·.collection == c) =
      visibleAt offset (ls.filter (·.collection == c)) := by
  simp only [visibleAt, List.filter_filter, Bool.and_comm]

/-- What is in force is visible. -/
theorem mem_visibleAt {seen : List Local}
    (h : ∀ c, (visibleAt offset ls).filter (·.collection == c) = seen.filter (·.collection == c))
    (hl : l ∈ seen) : l ∈ visibleAt offset ls := by
  rw [mem_iff_mem_filter, h, ← mem_iff_mem_filter]
  exact hl

/-- A binding is unrelated to the references before its scope. -/
theorem Local.unrelated_of_lt (hsite : Apart l.name.site r.name.site)
    (hscope : r.name.site.start < l.scope.start) : l.Unrelated r := by
  refine ⟨?_, hsite⟩
  rw [Bool.eq_false_iff, ne_eq, Span.touches_iff]
  omega

/-- A binding surrounds the references in its scope. -/
theorem Local.surrounds_of_le (hsite : l.name.site.stop ≤ r.name.site.start)
    (hstart : l.scope.start ≤ r.name.site.start) (hstop : r.name.site.start ≤ l.scope.stop) :
    l.Surrounds r :=
  ⟨Span.touches_iff.2 ⟨hstart, hstop⟩, .inl hsite⟩

/-- A binding that stays in one part of a form is unrelated to the references of another. -/
theorem Local.Within.unrelated {lo' hi' : Nat} (h : l.Within lo hi) (hr : r.Inside lo' hi')
    (hapart : hi ≤ lo' ∨ hi' ≤ lo) : l.Unrelated r := by
  have hsite := h.site_start
  have hstop := h.site_stop
  have hscope := h.scope_start
  have hend := h.scope_stop
  have hstart := hr.start
  have hproper := hr.proper
  have hlast := hr.stop
  constructor
  · rw [Bool.eq_false_iff, ne_eq, Span.touches_iff]
    omega
  · unfold Apart
    omega

namespace Explained

/-- A binder refers to itself. -/
theorem binding {n : NameSite} (h : n ∈ ls.map (·.name)) : Explained ls ρ (.binding n) := by
  obtain ⟨l, hl, rfl⟩ := List.mem_map.1 h
  exact .binder l hl rfl rfl

/-- A use that no scope surrounds refers to what the environment says. -/
theorem free {n : NameSite} (h : ∀ l ∈ ls, l.Unrelated (ρ.use n)) : Explained ls ρ (ρ.use n) := by
  refine .use [] (fun l hl => (h l hl).2) (fun c => ?_) .nil rfl
  rw [visibleAt_of_unrelated h]

/-- Bindings that have nothing to do with the reference can be added anywhere. -/
theorem insert {a b m : List Local} (h : Explained (a ++ b) ρ r) (hm : ∀ l ∈ m, l.Unrelated r) :
    Explained (a ++ (m ++ b)) ρ r := by
  have hmem : ∀ l ∈ a ++ b, l ∈ a ++ (m ++ b) := by
    intro l hl
    simp only [List.mem_append] at hl ⊢
    exact hl.imp id .inr
  cases h with
  | binder l hl hname hself => exact .binder l (hmem l hl) hname hself
  | use seen hapart hseen hordered hbinder =>
    refine .use seen (fun l hl => ?_) (fun c => ?_) hordered hbinder
    · simp only [List.mem_append] at hl
      rcases hl with hl | hl | hl
      · exact hapart l (List.mem_append_left _ hl)
      · exact (hm l hl).2
      · exact hapart l (List.mem_append_right _ hl)
    · rw [← hseen c, visibleAt_append, visibleAt_append, visibleAt_append,
        visibleAt_of_unrelated hm, List.nil_append]

private theorem prepend {m : List Local} (h : Explained ls ρ r) (hm : ∀ l ∈ m, l.Unrelated r) :
    Explained (m ++ ls) ρ r := insert (a := []) h hm

private theorem append {m : List Local} (h : Explained ls ρ r) (hm : ∀ l ∈ m, l.Unrelated r) :
    Explained (ls ++ m) ρ r := by
  rw [← List.append_nil ls] at h
  simpa only [List.append_nil] using h.insert hm

/-- Bindings that come into force around everything are the outermost ones. -/
theorem under (bound : List Local) (h : Explained ls (ρ.extend (bound.map (·.name))) r)
    (hbound : ∀ l ∈ bound, l.Surrounds r) (hordered : Ordered bound)
    (hlt : ∀ b ∈ bound, ∀ l ∈ ls, l.scope.touches r.name.site.start = true →
      b.scope.start < l.scope.start) :
    Explained (bound ++ ls) ρ r := by
  cases h with
  | binder l hl hname hself => exact .binder l (List.mem_append_right _ hl) hname hself
  | use seen hapart hseen hseenOrdered hbinder =>
    refine .use (bound ++ seen) ?_ (fun c => ?_) ?_ ?_
    · rw [List.forall_mem_append]
      exact ⟨fun l hl => (hbound l hl).2, hapart⟩
    · rw [visibleAt_append, visibleAt_of_surrounds hbound, List.filter_append, List.filter_append,
        hseen c]
    · refine List.pairwise_append.2 ⟨hordered, hseenOrdered, fun b hb l hl => ?_⟩
      obtain ⟨hmem, hvisible⟩ := List.mem_filter.1 (mem_visibleAt hseen hl)
      exact .inl (hlt b hb l hmem hvisible)
    · rw [hbinder, Env.extend_append, List.map_append]

/-- In the body of a form the names of the form are the outermost ones. The other parts of the form
may bind names between the two. -/
theorem body (bound : List Local) {m inner : List Local}
    (h : Explained inner (ρ.extend (bound.map (·.name))) r) (hm : ∀ l ∈ m, l.Unrelated r)
    (hinner : ∀ l ∈ inner, l.Within lo hi) (hordered : Ordered bound)
    (hbound : ∀ l ∈ bound, l.Surrounds r ∧ l.scope.start ≤ lo) :
    Explained (bound ++ (m ++ inner)) ρ r := by
  refine (h.prepend hm).under _ (fun b hb => (hbound b hb).1) hordered ?_
  intro b hb l hl hvisible
  rcases List.mem_append.1 hl with hl | hl
  · rw [(hm l hl).1] at hvisible
    cases hvisible
  · exact Nat.lt_of_le_of_lt (hbound b hb).2 (hinner l hl).scope_start

/-- Only the order inside each collection counts. -/
theorem congr {ls' : List Local} (h : Explained ls ρ r)
    (hfilter : ∀ c, ls'.filter (·.collection == c) = ls.filter (·.collection == c)) :
    Explained ls' ρ r := by
  have hmem : ∀ l, l ∈ ls' ↔ l ∈ ls := by
    intro l
    rw [mem_iff_mem_filter, hfilter, ← mem_iff_mem_filter]
  cases h with
  | binder l hl hname hself => exact .binder l ((hmem l).2 hl) hname hself
  | use seen hapart hseen hordered hbinder =>
    refine .use seen (fun l hl => hapart l ((hmem l).1 hl)) (fun c => ?_) hordered hbinder
    rw [← hseen c, filter_visibleAt, hfilter c, filter_visibleAt]

end Explained

/-! ## The names of a form -/

private theorem map_name_parameters (c : Collection) (stop pos : Nat) (xs : List Ident) :
    (parameters c stop pos xs).map (·.name) = sites pos xs := by
  induction xs generalizing pos with
  | nil => rfl
  | cons x rest ih => rw [parameters, List.map_cons, ih, sites]

private theorem map_name_variables (sequential : Bool) (start stop pos : Nat) : ∀ specs : Specs,
    (specs.variables sequential start stop pos).map (·.name) = specs.names pos
  | .nil => rfl
  | .cons x value rest => by
    rw [Specs.variables, Specs.names, List.map_cons, map_name_variables]

private theorem map_name_functions (start stop pos : Nat) : ∀ defs : Defs,
    (defs.functions start stop pos).map (·.name) = defs.names pos
  | .nil => rfl
  | .cons f params body rest => by
    rw [Defs.functions, Defs.names, List.map_cons, map_name_functions]

private theorem lt_of_mem_names {pos : Nat} {defs : Defs} {n : NameSite} (h : n ∈ defs.names pos) :
    pos < n.site.start := by
  rw [← map_name_functions 0 0] at h
  obtain ⟨l, hl, rfl⟩ := List.mem_map.1 h
  obtain ⟨-, -, -, hsite, -⟩ := bounds_of_mem_functions _ defs hl
  exact hsite

private theorem ordered_parameters (c : Collection) (stop pos : Nat) (xs : List Ident) :
    Ordered (parameters c stop pos xs) := by
  induction xs generalizing pos with
  | nil => exact .nil
  | cons x rest ih =>
    refine List.pairwise_cons.2 ⟨fun l hl => .inl ?_, ih _⟩
    obtain ⟨-, -, hstart, hsite, hproper, -⟩ := bounds_of_mem_parameters hl
    simp only
    omega

private theorem ordered_variables (sequential : Bool) (start stop pos : Nat) : ∀ specs : Specs,
    Ordered (specs.variables sequential start stop pos)
  | .nil => .nil
  | .cons x value rest => by
    refine List.pairwise_cons.2 ⟨fun l hl => ?_, ordered_variables ..⟩
    obtain ⟨hc, -, -, -, -, hall, heach⟩ := bounds_of_mem_variables _ rest hl
    cases sequential
    · exact .inr ⟨(hall rfl).symm, hc.symm⟩
    · have := (heach rfl).1
      left
      simp only [if_true]
      omega

private theorem ordered_functions (start stop pos : Nat) : ∀ defs : Defs,
    Ordered (defs.functions start stop pos)
  | .nil => .nil
  | .cons f params body rest => by
    refine List.pairwise_cons.2 ⟨fun l hl => .inr ?_, ordered_functions ..⟩
    obtain ⟨hc, hfrom, -⟩ := bounds_of_mem_functions _ rest hl
    exact ⟨hfrom.symm, hc.symm⟩

private theorem inside_parameters {pos : Nat} {xs : List Ident}
    (hr : r ∈ (sites pos xs).map .binding) :
    r.Inside pos (pos + Sexp.tailWidth (nameItems xs) - 1) := by
  rw [← map_name_parameters .anonymousVariable 0, List.map_map] at hr
  obtain ⟨l, hl, rfl⟩ := List.mem_map.1 hr
  obtain ⟨-, -, -, hsite, hproper, hend⟩ := bounds_of_mem_parameters hl
  exact ⟨hsite, hproper, by simp only [Function.comp_apply, Reference.binding]; omega⟩

/-- The references of parameters are binders. -/
theorem explained_parameters {c : Collection} {stop pos : Nat} {xs : List Ident}
    (hr : r ∈ (sites pos xs).map .binding) (hsub : parameters c stop pos xs ⊆ ls) :
    Explained ls ρ r := by
  rw [← map_name_parameters c stop, List.map_map] at hr
  obtain ⟨l, hl, rfl⟩ := List.mem_map.1 hr
  exact .binder l (hsub hl) rfl rfl

/-- In the body after parameters, the parameters are the outermost names. -/
theorem explained_parametersBody (c : Collection) (stop : Nat) {pos : Nat} {xs : List Ident}
    (h : Explained ls (ρ.extend (sites pos xs)) r) (hr : r.Inside lo hi)
    (hls : ∀ l ∈ ls, l.Within lo hi) (hlo : pos + Sexp.tailWidth (nameItems xs) ≤ lo)
    (hhi : hi ≤ stop) : Explained (parameters c stop pos xs ++ ls) ρ r := by
  rw [← map_name_parameters c stop] at h
  refine h.body _ (m := []) (List.forall_mem_nil _) hls (ordered_parameters ..) fun l hl => ?_
  obtain ⟨-, hstop, hstart, hsite, hproper, hend⟩ := bounds_of_mem_parameters hl
  have := hr.start
  have := hr.proper
  have := hr.stop
  constructor
  · apply Local.surrounds_of_le <;> omega
  · omega

/-- Variables are unrelated to the references before their list. -/
theorem unrelated_variables {sequential : Bool} {start stop pos : Nat} {specs : Specs}
    (hl : l ∈ specs.variables sequential start stop pos) (hr : r.Inside lo hi) (hpos : hi ≤ pos)
    (hstart : hi ≤ start) : l.Unrelated r := by
  obtain ⟨-, -, hsite, -, -, hall, heach⟩ := bounds_of_mem_variables _ specs hl
  have := hr.proper
  have := hr.stop
  refine Local.unrelated_of_lt (.inr (by omega)) ?_
  cases sequential
  · have := hall rfl
    omega
  · have := heach rfl
    omega

/-- Variables surround the references of the body. -/
theorem surrounds_variables {sequential : Bool} {start stop pos : Nat} {specs : Specs}
    (hl : l ∈ specs.variables sequential start stop pos) (hr : r.Inside lo hi)
    (hstart : pos + Sexp.tailWidth specs.items ≤ start) (hlo : start ≤ lo) (hhi : hi ≤ stop) :
    l.Surrounds r ∧ l.scope.start ≤ lo := by
  obtain ⟨-, hstop, hsite, hproper, hend, hall, heach⟩ := bounds_of_mem_variables _ specs hl
  have hfrom : l.scope.start ≤ start := by
    cases sequential
    · exact Nat.le_of_eq (hall rfl)
    · have := heach rfl
      omega
  have := hr.start
  have := hr.proper
  have := hr.stop
  constructor
  · apply Local.surrounds_of_le <;> omega
  · omega

/-- Local functions surround the references of the body. -/
theorem surrounds_functions {start stop pos : Nat} {defs : Defs}
    (hl : l ∈ defs.functions start stop pos) (hr : r.Inside lo hi)
    (hlo : pos + Sexp.tailWidth defs.items ≤ lo) (hstart : start ≤ lo) (hhi : hi ≤ stop) :
    l.Surrounds r ∧ l.scope.start ≤ lo := by
  obtain ⟨-, hfrom, hto, -, -, hsite⟩ := bounds_of_mem_functions _ defs hl
  have := hr.start
  have := hr.proper
  have := hr.stop
  constructor
  · apply Local.surrounds_of_le <;> omega
  · omega

/-- In the definitions of local functions, the functions are the outermost names if they see each
other, and not visible otherwise. -/
theorem explained_functionsDefs {recursive : Bool} {start stop pos : Nat} {defs : Defs}
    (hnames : ∀ n ∈ defs.names pos, Apart n.site r.name.site)
    (h : Explained ls (if recursive then ρ.extend (defs.names pos) else ρ) r)
    (hhidden : recursive = false → r.name.site.start < start)
    (hvisible : recursive = true → start ≤ r.name.site.start ∧ ∀ l ∈ ls, start < l.scope.start)
    (hstop : r.name.site.start ≤ stop) : Explained (defs.functions start stop pos ++ ls) ρ r := by
  rw [← map_name_functions start stop] at h hnames
  rw [List.forall_mem_map] at hnames
  cases recursive
  · refine h.prepend fun l hl => Local.unrelated_of_lt (hnames l hl) ?_
    rw [(bounds_of_mem_functions _ defs hl).2.1]
    exact hhidden rfl
  · obtain ⟨hstart, hls⟩ := hvisible rfl
    refine h.under _ (fun l hl => ⟨Span.touches_iff.2 ?_, hnames l hl⟩) (ordered_functions ..) ?_
    · obtain ⟨-, hfrom, hto, -⟩ := bounds_of_mem_functions _ defs hl
      omega
    · intro b hb l hl _
      rw [(bounds_of_mem_functions _ defs hb).2.1]
      exact hls l hl

private theorem Reference.Inside.mono {lo' hi' : Nat} (h : r.Inside lo hi) (hlo : lo' ≤ lo)
    (hhi : hi ≤ hi') : r.Inside lo' hi' :=
  ⟨Nat.le_trans hlo h.start, h.proper, Nat.le_trans h.stop hhi⟩

private theorem inside_use (ρ : Env) (x : Ident) (pos : Nat) :
    (ρ.use (x.site pos)).Inside pos (pos + x.size) := by
  have hx := x.one_le_size
  refine ⟨Nat.le_refl _, ?_, Nat.le_refl _⟩
  simp only [Env.use, Ident.site]
  omega

/-! ## Expressions -/

mutual

/-- Environment and scopes agree about every reference of an expression. -/
theorem Expr.explained {r : Reference} (ρ : Env) (pos : Nat) : ∀ e : Expr,
    r ∈ e.resolve ρ pos → r.Inside pos (pos + e.sexp.size) ∧ Explained (e.locals pos) ρ r
  | .number _, hr => by cases hr
  | .name x, hr => by
    rw [List.mem_singleton.1 hr]
    exact ⟨inside_use ρ x pos, .free (by simp [Expr.locals])⟩
  | .call f args, hr => by
    have hsize := size_call f args
    rcases List.mem_cons.1 hr with rfl | hr
    · have hinside := inside_use ρ f (pos + 1)
      refine ⟨hinside.mono (by omega) (by omega), .free fun l hl => ?_⟩
      exact (args.within_locals _ hl).unrelated hinside (by omega)
    · obtain ⟨hinside, hexplained⟩ := args.explained ρ _ hr
      exact ⟨hinside.mono (by omega) (by omega), hexplained⟩
  | .variables sequential specs body, hr => by
    rw [Expr.resolve] at hr
    rw [Expr.locals, Expr.sexp]
    generalize (Keyword.variables sequential).word = head at hr ⊢
    obtain ⟨hlistAt, hbodyAt, hlist, hend⟩ := form_bounds head specs.items body.items pos
    have hvalues : ∀ l ∈ specs.locals (listAt head pos + 1), l.Within (listAt head pos + 1)
        (listAt head pos + 1 + Sexp.tailWidth specs.items - 1) := fun l => specs.within_locals _
    have hbody : ∀ l ∈ body.locals (bodyAt head specs.items pos),
        l.Within (bodyAt head specs.items pos)
          (bodyAt head specs.items pos + Sexp.tailWidth body.items - 1) :=
      fun l => body.within_locals _
    rcases List.mem_append.1 hr with hr | hr
    · obtain ⟨hinside, hexplained⟩ := specs.explained sequential ρ
        (listAt head pos + (Sexp.list specs.items).size)
        (pos + (form head specs.items body.items).size - 1) _ (by omega) (by omega) hr
      refine ⟨hinside.mono (by omega) (by omega), ?_⟩
      rw [← List.append_assoc]
      exact hexplained.append fun l hl => (hbody l hl).unrelated hinside (by omega)
    · obtain ⟨hinside, hexplained⟩ := body.explained _ _ hr
      have hunrelated : ∀ l ∈ specs.locals (listAt head pos + 1), l.Unrelated r := fun l hl =>
        (hvalues l hl).unrelated hinside (by omega)
      refine ⟨hinside.mono (by omega) (by omega), ?_⟩
      rw [← map_name_variables sequential (listAt head pos + (Sexp.list specs.items).size)
        (pos + (form head specs.items body.items).size - 1)] at hexplained
      refine hexplained.body _ hunrelated hbody (ordered_variables ..) fun l hl => ?_
      exact surrounds_variables hl hinside (by omega) (by omega) (by omega)
  | .lambda params body, hr => by
    rw [Expr.resolve] at hr
    rw [Expr.locals, Expr.sexp]
    generalize Keyword.lambda.word = head at hr ⊢
    obtain ⟨hlistAt, hbodyAt, hlist, hend⟩ := form_bounds head (nameItems params) body.items pos
    have hbody : ∀ l ∈ body.locals (bodyAt head (nameItems params) pos),
        l.Within (bodyAt head (nameItems params) pos)
          (bodyAt head (nameItems params) pos + Sexp.tailWidth body.items - 1) :=
      fun l => body.within_locals _
    rcases List.mem_append.1 hr with hr | hr
    · exact ⟨(inside_parameters hr).mono (by omega) (by omega),
        explained_parameters hr (List.subset_append_left ..)⟩
    · obtain ⟨hinside, hexplained⟩ := body.explained _ _ hr
      exact ⟨hinside.mono (by omega) (by omega),
        explained_parametersBody _ _ hexplained hinside hbody (by omega) (by omega)⟩
  | .functions recursive defs body, hr => by
    rw [Expr.resolve] at hr
    rw [Expr.locals, Expr.sexp]
    generalize (Keyword.functions recursive).word = head at hr ⊢
    obtain ⟨hlistAt, hbodyAt, hlist, hend⟩ := form_bounds head defs.items body.items pos
    generalize hstart : (if recursive then listAt head pos
      else listAt head pos + (Sexp.list defs.items).size) = start
    generalize hstop : pos + (form head defs.items body.items).size - 1 = stop
    have hdefs : ∀ l ∈ defs.parameters (listAt head pos + 1) ++ defs.locals (listAt head pos + 1),
        l.Within (listAt head pos + 1)
          (listAt head pos + 1 + Sexp.tailWidth defs.items - 1) := by
      intro l hl
      rcases List.mem_append.1 hl with hl | hl
      · exact (within_of_mem_defParameters _ defs hl).2
      · exact defs.within_locals _ hl
    have hbody : ∀ l ∈ body.locals (bodyAt head defs.items pos),
        l.Within (bodyAt head defs.items pos)
          (bodyAt head defs.items pos + Sexp.tailWidth body.items - 1) :=
      fun l => body.within_locals _
    -- The functions come first; inside each collection the order is the same.
    suffices h : r.Inside pos (pos + (form head defs.items body.items).size) ∧
        Explained (defs.functions start stop (listAt head pos + 1) ++
          (defs.parameters (listAt head pos + 1) ++ defs.locals (listAt head pos + 1) ++
            body.locals (bodyAt head defs.items pos))) ρ r by
      refine ⟨h.1, h.2.congr fun c => ?_⟩
      simp only [List.filter_append, filter_functionsAndParameters, List.append_assoc]
    rcases List.mem_append.1 hr with hr | hr
    · obtain ⟨hinside, hexplained⟩ := defs.explained _ _ hr
      have := hinside.start
      have := hinside.proper
      have := hinside.stop
      refine ⟨hinside.mono (by omega) (by omega), ?_⟩
      rcases hexplained with ⟨n, hn, rfl⟩ | ⟨hnames, hexplained⟩
      · rw [← map_name_functions start stop] at hn
        refine .binding ?_
        rw [List.map_append]
        exact List.mem_append_left _ hn
      have happend := hexplained.append fun l hl => (hbody l hl).unrelated hinside (by omega)
      refine explained_functionsDefs hnames happend ?_ ?_ (by omega)
      · rintro rfl
        simp only [Bool.false_eq_true, if_false] at hstart
        omega
      · rintro rfl
        simp only [if_true] at hstart
        refine ⟨by omega, fun l hl => ?_⟩
        rcases List.mem_append.1 hl with hl | hl
        · have := (hdefs l hl).scope_start
          omega
        · have := (hbody l hl).scope_start
          omega
    · obtain ⟨hinside, hexplained⟩ := body.explained _ _ hr
      have hunrelated : ∀ l ∈ defs.parameters (listAt head pos + 1) ++
          defs.locals (listAt head pos + 1), l.Unrelated r := fun l hl =>
        (hdefs l hl).unrelated hinside (by omega)
      have hfrom : start ≤ listAt head pos + (Sexp.list defs.items).size := by
        rw [← hstart]
        split <;> omega
      refine ⟨hinside.mono (by omega) (by omega), ?_⟩
      rw [← map_name_functions start stop] at hexplained
      refine hexplained.body _ hunrelated hbody (ordered_functions ..) fun l hl => ?_
      exact surrounds_functions hl hinside (by omega) (by omega) (by omega)
  | .dolist x values body, hr => by
    have hx := x.one_le_size
    rw [Expr.resolve] at hr
    rw [Expr.locals, Expr.sexp]
    generalize Keyword.dolist.word = head at hr ⊢
    obtain ⟨hlistAt, hbodyAt, -, hend⟩ :=
      form_bounds head [.word x.word, values.sexp] body.items pos
    have hlist := size_entry x values.sexp
    have hvalues : ∀ l ∈ values.locals (listAt head pos + 1 + x.size + 1),
        l.Within (listAt head pos + 1 + x.size + 1)
          (listAt head pos + 1 + x.size + 1 + values.sexp.size) := fun l => values.within_locals _
    have hbody : ∀ l ∈ body.locals (bodyAt head [.word x.word, values.sexp] pos),
        l.Within (bodyAt head [.word x.word, values.sexp] pos)
          (bodyAt head [.word x.word, values.sexp] pos + Sexp.tailWidth body.items - 1) :=
      fun l => body.within_locals _
    rcases List.mem_cons.1 hr with rfl | hr
    · refine ⟨⟨?_, ?_, ?_⟩, .binding List.mem_cons_self⟩ <;>
        simp only [Reference.binding, Ident.site] <;> omega
    rcases List.mem_append.1 hr with hr | hr
    · obtain ⟨hinside, hexplained⟩ := values.explained ρ _ hr
      have := hinside.start
      have := hinside.proper
      have := hinside.stop
      refine ⟨hinside.mono (by omega) (by omega), ?_⟩
      have happend := hexplained.append fun l hl => (hbody l hl).unrelated hinside (by omega)
      refine happend.prepend (List.forall_mem_singleton.2 (Local.unrelated_of_lt (.inl ?_) ?_)) <;>
        simp only [Ident.site] <;> omega
    · obtain ⟨hinside, hexplained⟩ := body.explained _ _ hr
      have hunrelated : ∀ l ∈ values.locals (listAt head pos + 1 + x.size + 1), l.Unrelated r :=
        fun l hl => (hvalues l hl).unrelated hinside (by omega)
      have := hinside.start
      have := hinside.proper
      have := hinside.stop
      refine ⟨hinside.mono (by omega) (by omega), ?_⟩
      refine hexplained.body [_] hunrelated hbody (List.pairwise_singleton ..)
        (List.forall_mem_singleton.2 ⟨Local.surrounds_of_le ?_ ?_ ?_, ?_⟩) <;>
        simp only [Ident.site] <;> omega

/-- Environment and scopes agree about every reference of expressions. -/
theorem Body.explained {r : Reference} (ρ : Env) (pos : Nat) : ∀ body : Body,
    r ∈ body.resolve ρ pos →
      r.Inside pos (pos + Sexp.tailWidth body.items - 1) ∧ Explained (body.locals pos) ρ r
  | .nil, hr => by cases hr
  | .cons e rest, hr => by
    rw [Body.items, Sexp.tailWidth, Body.locals]
    rcases List.mem_append.1 hr with hr | hr
    · obtain ⟨hinside, hexplained⟩ := e.explained ρ _ hr
      refine ⟨hinside.mono (Nat.le_refl _) (by omega), hexplained.append fun l hl => ?_⟩
      exact (rest.within_locals _ hl).unrelated hinside (by omega)
    · obtain ⟨hinside, hexplained⟩ := rest.explained ρ _ hr
      refine ⟨hinside.mono (by omega) (by omega), hexplained.prepend fun l hl => ?_⟩
      exact (e.within_locals _ hl).unrelated hinside (by omega)

/-- Environment and scopes agree about every reference of variables and their values. -/
theorem Specs.explained {r : Reference} (sequential : Bool) (ρ : Env) (start stop pos : Nat) :
    ∀ specs : Specs, pos + Sexp.tailWidth specs.items ≤ start →
      pos + Sexp.tailWidth specs.items ≤ stop → r ∈ specs.resolve sequential ρ pos →
      r.Inside pos (pos + Sexp.tailWidth specs.items - 1) ∧
        Explained (specs.variables sequential start stop pos ++ specs.locals pos) ρ r
  | .nil, _, _, hr => by cases hr
  | .cons x value rest, hstart, hstop, hr => by
    have hx := x.one_le_size
    have hsize := size_entry x value.sexp
    rw [Specs.items, Sexp.tailWidth] at hstart hstop ⊢
    rw [Specs.resolve] at hr
    rw [Specs.variables, Specs.locals]
    generalize (Sexp.list [.word x.word, value.sexp]).size = size at hsize hstart hstop hr ⊢
    have hvalue : ∀ l ∈ value.locals (pos + 1 + x.size + 1),
        l.Within (pos + 1 + x.size + 1) (pos + 1 + x.size + 1 + value.sexp.size) :=
      fun l => value.within_locals _
    have hrest : ∀ l ∈ rest.locals (pos + size + 1),
        l.Within (pos + size + 1) (pos + size + 1 + Sexp.tailWidth rest.items - 1) :=
      fun l => rest.within_locals _
    rcases List.mem_cons.1 hr with rfl | hr
    · refine ⟨⟨?_, ?_, ?_⟩, .binding (List.mem_map_of_mem List.mem_cons_self)⟩ <;>
        simp only [Reference.binding, Ident.site] <;> omega
    rcases List.mem_append.1 hr with hr | hr
    · obtain ⟨hinside, hexplained⟩ := value.explained ρ _ hr
      have := hinside.start
      have := hinside.proper
      have := hinside.stop
      refine ⟨hinside.mono (by omega) (by omega), ?_⟩
      have happend := hexplained.append fun l hl => (hrest l hl).unrelated hinside (by omega)
      refine happend.prepend
        (List.forall_mem_cons.2 ⟨Local.unrelated_of_lt (.inl ?_) ?_, fun l hl => ?_⟩)
      · simp only [Ident.site]
        omega
      · cases sequential <;> simp <;> omega
      · exact unrelated_variables hl hinside (by omega) (by omega)
    · obtain ⟨hinside, hexplained⟩ :=
        rest.explained sequential _ start stop _ (by omega) (by omega) hr
      have := hinside.start
      have := hinside.proper
      have := hinside.stop
      have hunrelated : ∀ l ∈ value.locals (pos + 1 + x.size + 1), l.Unrelated r := fun l hl =>
        (hvalue l hl).unrelated hinside (by omega)
      refine ⟨hinside.mono (by omega) (by omega), ?_⟩
      cases sequential
      · refine (hexplained.insert hunrelated).prepend (List.forall_mem_singleton.2 ?_)
        refine Local.unrelated_of_lt (.inl ?_) ?_ <;> simp [Ident.site] <;> omega
      · refine (hexplained.insert hunrelated).under [_] ?_ (List.pairwise_singleton ..) ?_
        · refine List.forall_mem_singleton.2 (Local.surrounds_of_le ?_ ?_ ?_) <;>
            simp [Ident.site] <;> omega
        · refine List.forall_mem_singleton.2 fun l hl hvisible => ?_
          simp only [if_true]
          rcases List.mem_append.1 hl with hl | hl
          · obtain ⟨-, -, -, -, -, -, heach⟩ := bounds_of_mem_variables _ rest hl
            have := heach rfl
            omega
          rcases List.mem_append.1 hl with hl | hl
          · rw [(hunrelated l hl).1] at hvisible
            cases hvisible
          · have := (hrest l hl).scope_start
            omega

/-- Environment and scopes agree about every reference of local functions, except that the names of
the functions themselves are listed apart. -/
theorem Defs.explained {r : Reference} (ρ : Env) (pos : Nat) : ∀ defs : Defs,
    r ∈ defs.resolve ρ pos → r.Inside pos (pos + Sexp.tailWidth defs.items - 1) ∧
      ((∃ n ∈ defs.names pos, r = .binding n) ∨
        (∀ n ∈ defs.names pos, Apart n.site r.name.site) ∧
          Explained (defs.parameters pos ++ defs.locals pos) ρ r)
  | .nil, hr => by cases hr
  | .cons f params body rest, hr => by
    have hf := f.one_le_size
    obtain ⟨hlistAt, hbodyAt, hlist, hend⟩ :=
      form_bounds f.word (nameItems params) body.items pos
    rw [Defs.resolve] at hr
    rw [Defs.items, Sexp.tailWidth, Defs.names, Defs.parameters, Defs.locals]
    have hps : ∀ l ∈ parameters .localParameter
        (pos + (form f.word (nameItems params) body.items).size - 1) (listAt f.word pos + 1) params,
          l.Within pos (pos + (form f.word (nameItems params) body.items).size) :=
      fun l hl => within_parameters f hl
    generalize (form f.word (nameItems params) body.items).size = size at hend hr hps ⊢
    have hwidth : (Sexp.word f.word).size = f.size := rfl
    have hbody : ∀ l ∈ body.locals (bodyAt f.word (nameItems params) pos),
        l.Within (bodyAt f.word (nameItems params) pos)
          (bodyAt f.word (nameItems params) pos + Sexp.tailWidth body.items - 1) :=
      fun l => body.within_locals _
    have hlater : ∀ l ∈ rest.parameters (pos + size + 1) ++ rest.locals (pos + size + 1),
        l.Within (pos + size + 1) (pos + size + 1 + Sexp.tailWidth rest.items - 1) := by
      intro l hl
      rcases List.mem_append.1 hl with hl | hl
      · exact (within_of_mem_defParameters _ rest hl).2
      · exact rest.within_locals _ hl
    have hapart {lo hi : Nat} (hr : r.Inside lo hi) (hlo : pos + 1 + f.size ≤ lo)
        (hhi : hi ≤ pos + size) :
        ∀ n ∈ f.site (pos + 1) :: rest.names (pos + size + 1), Apart n.site r.name.site := by
      have := hr.start
      have := hr.stop
      refine List.forall_mem_cons.2 ⟨.inl ?_, fun n hn => .inr ?_⟩
      · simp only [Ident.site]
        omega
      · have := lt_of_mem_names hn
        omega
    rcases List.mem_cons.1 hr with rfl | hr
    · refine ⟨⟨?_, ?_, ?_⟩, .inl ⟨_, List.mem_cons_self, rfl⟩⟩ <;>
        simp only [Reference.binding, Ident.site] <;> omega
    rcases List.mem_append.1 hr with hr | hr
    · have hinside := inside_parameters hr
      refine ⟨hinside.mono (by omega) (by omega), .inr ⟨hapart hinside (by omega) (by omega), ?_⟩⟩
      rw [List.append_assoc]
      exact explained_parameters hr (List.subset_append_left ..)
    rcases List.mem_append.1 hr with hr | hr
    · obtain ⟨hinside, hexplained⟩ := body.explained _ _ hr
      refine ⟨hinside.mono (by omega) (by omega), .inr ⟨hapart hinside (by omega) (by omega), ?_⟩⟩
      have hunder := explained_parametersBody .localParameter (pos + size - 1)
        hexplained hinside hbody (by omega) (by omega)
      have hunrelated : ∀ l ∈ rest.parameters (pos + size + 1) ++ rest.locals (pos + size + 1),
          l.Unrelated r := fun l hl => (hlater l hl).unrelated hinside (by omega)
      rw [List.forall_mem_append] at hunrelated
      have hinsert := (hunder.insert hunrelated.1).append hunrelated.2
      simpa only [List.append_assoc] using hinsert
    · obtain ⟨hinside, hexplained⟩ := rest.explained ρ _ hr
      refine ⟨hinside.mono (by omega) (by omega), ?_⟩
      rcases hexplained with ⟨n, hn, rfl⟩ | ⟨hnames, hexplained⟩
      · exact .inl ⟨n, List.mem_cons_of_mem _ hn, rfl⟩
      · have hprepend := hexplained.prepend fun l hl => (hps l hl).unrelated hinside (by omega)
        rw [← List.append_assoc] at hprepend
        have hstart := hinside.start
        refine .inr ⟨List.forall_mem_cons.2 ⟨.inl ?_, hnames⟩, hprepend.insert fun l hl => ?_⟩
        · simp only [Ident.site]
          omega
        · exact (hbody l hl).unrelated hinside (by omega)

end

/-! ## Programs -/

/-- Environment and scopes agree about every reference of a form of a program. -/
theorem Top.explained (ρ : Env) (pos : Nat) (t : Top) (hr : r ∈ t.resolve ρ pos) :
    r.Inside pos (pos + t.sexp.size) ∧ Explained (t.locals pos) ρ r := by
  cases t with
  | defun f params body =>
    have hsize := size_defun f params body
    have hlist := tailWidth_le (nameItems params)
    have hlistAt : listAt Keyword.defun.word pos =
      pos + 1 + (Sexp.word Keyword.defun.word).size + 1 := rfl
    rw [Top.resolve] at hr
    rw [Top.locals]
    generalize hname : listAt Keyword.defun.word pos = name at hr hlistAt ⊢
    have hbody : ∀ l ∈ body.locals (name + f.size + 1 + (Sexp.list (nameItems params)).size + 1),
        l.Within (name + f.size + 1 + (Sexp.list (nameItems params)).size + 1)
          (name + f.size + 1 + (Sexp.list (nameItems params)).size + 1 +
            Sexp.tailWidth body.items - 1) := fun l => body.within_locals _
    rcases List.mem_cons.1 hr with rfl | hr
    · have hinside := inside_use ρ f name
      refine ⟨hinside.mono (by omega) (by omega), .free fun l hl => ?_⟩
      rcases List.mem_append.1 hl with hl | hl
      · obtain ⟨-, -, hfrom, hsite, hproper, -⟩ := bounds_of_mem_parameters hl
        have := hinside.proper
        have := hinside.stop
        exact Local.unrelated_of_lt (.inr (by omega)) (by omega)
      · exact (hbody l hl).unrelated hinside (by omega)
    rcases List.mem_append.1 hr with hr | hr
    · exact ⟨(inside_parameters hr).mono (by omega) (by omega),
        explained_parameters hr (List.subset_append_left ..)⟩
    · obtain ⟨hinside, hexplained⟩ := body.explained _ _ hr
      exact ⟨hinside.mono (by omega) (by omega),
        explained_parametersBody _ _ hexplained hinside hbody (by omega) (by omega)⟩
  | defvar x value =>
    have hsize := size_defvar x value
    have hlistAt : listAt Keyword.defvar.word pos =
      pos + 1 + (Sexp.word Keyword.defvar.word).size + 1 := rfl
    rcases List.mem_cons.1 hr with rfl | hr
    · have hinside := inside_use ρ x (listAt Keyword.defvar.word pos)
      refine ⟨hinside.mono (by omega) (by omega), .free fun l hl => ?_⟩
      exact (value.within_locals _ hl).unrelated hinside (by omega)
    · obtain ⟨hinside, hexplained⟩ := value.explained ρ _ hr
      exact ⟨hinside.mono (by omega) (by omega), hexplained⟩
  | expr e => exact e.explained ρ pos hr

/-- Environment and scopes agree about every reference of a program. -/
theorem Program.explained (ρ : Env) (pos : Nat) (p : Program)
    (hr : r ∈ (p.place pos).flatMap fun x => x.2.resolve ρ x.1) :
    r.Inside pos (pos + Sexp.tailWidth (p.map Top.sexp) - 1) ∧
      Explained ((p.place pos).flatMap fun x => x.2.locals x.1) ρ r := by
  induction p generalizing pos with
  | nil => cases hr
  | cons t rest ih =>
    rw [Program.place, List.flatMap_cons] at hr ⊢
    rw [List.map_cons, Sexp.tailWidth]
    rcases List.mem_append.1 hr with hr | hr
    · obtain ⟨hinside, hexplained⟩ := t.explained ρ _ hr
      refine ⟨hinside.mono (Nat.le_refl _) (by omega), hexplained.append fun l hl => ?_⟩
      exact (Program.within_locals _ rest hl).unrelated hinside (by omega)
    · obtain ⟨hinside, hexplained⟩ := ih _ hr
      refine ⟨hinside.mono (by omega) (by omega), hexplained.prepend fun l hl => ?_⟩
      exact (t.within_locals _ hl).unrelated hinside (by omega)

end LexScope.Core
