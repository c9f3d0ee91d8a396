import LexScope.Proofs.Core.Syntax

/-!
# Scopes of the core language

A form gives each name that it binds a scope, a span of offsets. This file lists these scopes for
every expression, in the order in which the forms open, and bounds them: names and scopes stay
inside the form that they belong to.
-/

namespace LexScope.Core

/-- A local binding, as far as resolution looks at it. -/
structure Local where
  /-- The collection that keeps it. -/
  collection : Collection
  /-- The name and where it is bound. -/
  name : NameSite
  /-- Where it is visible. -/
  scope : Span
  deriving DecidableEq

/-! ## The scopes of a form -/

/-- Parameters, the first printed at `pos`. Each is visible from its end up to `stop`. -/
def parameters (c : Collection) (stop pos : Nat) : List Ident → List Local
  | [] => []
  | x :: rest =>
    ⟨c, x.site pos, ⟨pos + x.size, stop⟩⟩ :: parameters c stop (pos + x.size + 1) rest

/-- Variables, the first printed at `pos`. They are visible up to `stop`: from `start` on, or each
from the end of its own entry if they are bound one after the other. -/
def Specs.variables (sequential : Bool) (start stop pos : Nat) : Specs → List Local
  | .nil => []
  | .cons x value rest =>
    let entryEnd := pos + (Sexp.list [.word x.word, value.sexp]).size
    ⟨.anonymousVariable, x.site (pos + 1), ⟨if sequential then entryEnd else start, stop⟩⟩ ::
      rest.variables sequential start stop (entryEnd + 1)

/-- Local functions, the first printed at `pos`, each visible from `start` up to `stop`. -/
def Defs.functions (start stop pos : Nat) : Defs → List Local
  | .nil => []
  | .cons f params body rest =>
    ⟨.localDefinition, f.site (pos + 1), ⟨start, stop⟩⟩ ::
      rest.functions start stop (pos + (form f.word (nameItems params) body.items).size + 1)

/-- The parameters of local functions, the first function printed at `pos`. -/
def Defs.parameters (pos : Nat) : Defs → List Local
  | .nil => []
  | .cons f params body rest =>
    let size := (form f.word (nameItems params) body.items).size
    Core.parameters .localParameter (pos + size - 1) (listAt f.word pos + 1) params ++
      rest.parameters (pos + size + 1)

/-- Local functions, each with its parameters after it. -/
def Defs.functionsAndParameters (start stop pos : Nat) : Defs → List Local
  | .nil => []
  | .cons f params body rest =>
    let size := (form f.word (nameItems params) body.items).size
    ⟨.localDefinition, f.site (pos + 1), ⟨start, stop⟩⟩ ::
      (Core.parameters .localParameter (pos + size - 1) (listAt f.word pos + 1) params ++
        rest.functionsAndParameters start stop (pos + size + 1))

mutual

/-- The local bindings of an expression printed at `pos`: those of a form before those of its
parts. -/
def Expr.locals (pos : Nat) : Expr → List Local
  | .number _ => []
  | .name _ => []
  | .call f args => args.locals (pos + 1 + f.size + 1)
  | .variables sequential specs body =>
    let head := (Keyword.variables sequential).word
    let list := listAt head pos
    specs.variables sequential (list + (Sexp.list specs.items).size)
        (pos + (form head specs.items body.items).size - 1) (list + 1) ++
      (specs.locals (list + 1) ++ body.locals (bodyAt head specs.items pos))
  | .lambda params body =>
    let head := Keyword.lambda.word
    Core.parameters .anonymousVariable (pos + (form head (nameItems params) body.items).size - 1)
        (listAt head pos + 1) params ++
      body.locals (bodyAt head (nameItems params) pos)
  | .functions recursive defs body =>
    let head := (Keyword.functions recursive).word
    let list := listAt head pos
    defs.functionsAndParameters (if recursive then list else list + (Sexp.list defs.items).size)
        (pos + (form head defs.items body.items).size - 1) (list + 1) ++
      (defs.locals (list + 1) ++ body.locals (bodyAt head defs.items pos))
  | .dolist x values body =>
    let head := Keyword.dolist.word
    let list := listAt head pos
    let items := [.word x.word, values.sexp]
    ⟨.singleVariable, x.site (list + 1), ⟨list + 1 + x.size + 1 + values.sexp.size,
        pos + (form head items body.items).size - 1⟩⟩ ::
      (values.locals (list + 1 + x.size + 1) ++ body.locals (bodyAt head items pos))

/-- The local bindings of expressions printed at `pos`. -/
def Body.locals (pos : Nat) : Body → List Local
  | .nil => []
  | .cons e rest => e.locals pos ++ rest.locals (pos + e.sexp.size + 1)

/-- The local bindings in the values of variables printed at `pos`. -/
def Specs.locals (pos : Nat) : Specs → List Local
  | .nil => []
  | .cons x value rest =>
    value.locals (pos + 1 + x.size + 1) ++
      rest.locals (pos + (Sexp.list [.word x.word, value.sexp]).size + 1)

/-- The local bindings in the bodies of local functions printed at `pos`. -/
def Defs.locals (pos : Nat) : Defs → List Local
  | .nil => []
  | .cons f params body rest =>
    body.locals (bodyAt f.word (nameItems params) pos) ++
      rest.locals (pos + (form f.word (nameItems params) body.items).size + 1)

end

/-- The local bindings of a form printed at `pos`. -/
def Top.locals (pos : Nat) : Top → List Local
  | t@(defun f params body) =>
    let list := listAt Keyword.defun.word pos + f.size + 1
    Core.parameters .globalParameter (pos + t.sexp.size - 1) (list + 1) params ++
      body.locals (list + (Sexp.list (nameItems params)).size + 1)
  | defvar x value => value.locals (listAt Keyword.defvar.word pos + x.size + 1)
  | expr e => e.locals pos

/-- The local bindings of a program. -/
def Program.locals (p : Program) : List Local := (p.place 0).flatMap fun x => x.2.locals x.1

/-! ## Sizes -/

/-- An identifier takes up some room. -/
theorem Ident.one_le_size (x : Ident) : 1 ≤ x.size := Sexp.one_le_size _

/-- The width of a binding entry is that of its name and its value, with a pair of brackets. -/
theorem size_entry (x : Ident) (s : Sexp) :
    (Sexp.list [.word x.word, s]).size = x.size + s.size + 3 := by
  rw [Sexp.size_list, Sexp.width, Sexp.tailWidth, Sexp.tailWidth, Ident.size]
  omega

private theorem size_form (head : Word) (list body : List Sexp) :
    (form head list body).size =
      (Sexp.word head).size + (Sexp.list list).size + Sexp.tailWidth body + 3 := by
  rw [form, Sexp.size_list, Sexp.width, Sexp.tailWidth]
  omega

/-- The width of a call is that of its function and its arguments, with a pair of brackets. -/
theorem size_call (f : Ident) (args : Body) :
    (Expr.call f args).sexp.size = f.size + Sexp.tailWidth args.items + 2 := by
  rw [Expr.sexp, Sexp.size_list, Sexp.width, Ident.size]

/-- The items of a list take up less room than the list. -/
theorem tailWidth_le (items : List Sexp) : Sexp.tailWidth items + 1 ≤ (Sexp.list items).size := by
  rw [Sexp.size_list]
  cases items with
  | nil => simp [Sexp.tailWidth]
  | cons s rest =>
    rw [Sexp.tailWidth, Sexp.width]
    omega

/-- The width of a function definition is that of its four parts. -/
theorem size_defun (f : Ident) (params : List Ident) (body : Body) :
    (Top.defun f params body).sexp.size = (Sexp.word Keyword.defun.word).size + f.size +
      (Sexp.list (nameItems params)).size + Sexp.tailWidth body.items + 4 := by
  rw [Top.sexp, Sexp.size_list, Sexp.width, Sexp.tailWidth, Sexp.tailWidth, Ident.size]
  omega

/-- The width of a variable definition is that of its three parts. -/
theorem size_defvar (x : Ident) (value : Expr) :
    (Top.defvar x value).sexp.size =
      (Sexp.word Keyword.defvar.word).size + x.size + value.sexp.size + 4 := by
  rw [Top.sexp, Sexp.size_list, Sexp.width, Sexp.tailWidth, Sexp.tailWidth, Sexp.tailWidth,
    Ident.size]
  omega

/-- Where the list and the body of a form stand. -/
theorem form_bounds (head : Word) (list body : List Sexp) (pos : Nat) :
    listAt head pos = pos + 1 + (Sexp.word head).size + 1 ∧
      bodyAt head list pos = listAt head pos + (Sexp.list list).size + 1 ∧
      Sexp.tailWidth list + 1 ≤ (Sexp.list list).size ∧
      pos + (form head list body).size = bodyAt head list pos + Sexp.tailWidth body := by
  have hsize := size_form head list body
  refine ⟨rfl, rfl, tailWidth_le list, ?_⟩
  simp only [bodyAt, listAt]
  omega

/-! ## Bounds -/

/-- The binding has its site and its scope between two offsets. -/
structure Local.Within (lo hi : Nat) (l : Local) : Prop where
  /-- Its name starts there. -/
  site_start : lo ≤ l.name.site.start
  /-- Its name stops there. -/
  site_stop : l.name.site.stop ≤ hi
  /-- Its scope starts there. -/
  scope_start : lo < l.scope.start
  /-- Its scope stops there. -/
  scope_stop : l.scope.stop < hi

private theorem Local.Within.mono {lo hi lo' hi' : Nat} {l : Local} (h : l.Within lo hi)
    (hlo : lo' ≤ lo)
    (hhi : hi ≤ hi') : l.Within lo' hi' :=
  ⟨Nat.le_trans hlo h.site_start, Nat.le_trans h.site_stop hhi,
    Nat.lt_of_le_of_lt hlo h.scope_start, Nat.lt_of_lt_of_le h.scope_stop hhi⟩

/-- A parameter is seen from the end of its name on, up to the end of the body. -/
theorem bounds_of_mem_parameters {c : Collection} {stop pos : Nat} {xs : List Ident} {l : Local}
    (h : l ∈ parameters c stop pos xs) :
    l.collection = c ∧ l.scope.stop = stop ∧ l.scope.start = l.name.site.stop ∧
      pos ≤ l.name.site.start ∧ l.name.site.start < l.name.site.stop ∧
      l.name.site.stop + 1 ≤ pos + Sexp.tailWidth (nameItems xs) := by
  induction xs generalizing pos with
  | nil => cases h
  | cons x rest ih =>
    have hx := x.one_le_size
    have hwidth : Sexp.tailWidth (nameItems (x :: rest)) =
        1 + x.size + Sexp.tailWidth (nameItems rest) := rfl
    rcases List.mem_cons.1 h with rfl | h
    · refine ⟨rfl, rfl, rfl, Nat.le_refl _, ?_, ?_⟩
      · simp only [Ident.site]
        omega
      · simp only [Ident.site]
        omega
    · obtain ⟨hc, hstop, hstart, hsite, hproper, hend⟩ := ih h
      exact ⟨hc, hstop, hstart, by omega, hproper, by omega⟩

/-- A `let` variable stands among the specifications and is seen up to the end of the form. -/
theorem bounds_of_mem_variables {sequential : Bool} {start stop : Nat} {l : Local} (pos : Nat) :
    ∀ specs : Specs, l ∈ specs.variables sequential start stop pos →
      l.collection = .anonymousVariable ∧ l.scope.stop = stop ∧ pos < l.name.site.start ∧
        l.name.site.start < l.name.site.stop ∧
        l.name.site.stop + 1 < pos + Sexp.tailWidth specs.items ∧
        (sequential = false → l.scope.start = start) ∧
        (sequential = true →
          pos < l.scope.start ∧ l.scope.start + 1 ≤ pos + Sexp.tailWidth specs.items)
  | .nil, h => by cases h
  | .cons x value rest, h => by
    have hx := x.one_le_size
    have hsize := size_entry x value.sexp
    rw [Specs.items, Sexp.tailWidth]
    rcases List.mem_cons.1 h with rfl | h
    · refine ⟨rfl, rfl, ?_, ?_, ?_, ?_, ?_⟩
      · simp only [Ident.site]
        omega
      · simp only [Ident.site]
        omega
      · simp only [Ident.site]
        omega
      · rintro rfl
        rfl
      · rintro rfl
        simp only [if_true]
        omega
    · obtain ⟨hc, hstop, hstart, hproper, hend, hall, heach⟩ := bounds_of_mem_variables _ rest h
      refine ⟨hc, hstop, by omega, hproper, by omega, hall, fun hseq => ?_⟩
      have := heach hseq
      omega

/-- A local function stands among the definitions and is seen in the given scope. -/
theorem bounds_of_mem_functions {start stop : Nat} {l : Local} (pos : Nat) :
    ∀ defs : Defs, l ∈ defs.functions start stop pos →
      l.collection = .localDefinition ∧ l.scope.start = start ∧ l.scope.stop = stop ∧
        pos < l.name.site.start ∧ l.name.site.start < l.name.site.stop ∧
        l.name.site.stop + 1 < pos + Sexp.tailWidth defs.items
  | .nil, h => by cases h
  | .cons f params body rest, h => by
    have hf := f.one_le_size
    have hsize : (form f.word (nameItems params) body.items).size =
        f.size + (Sexp.list (nameItems params)).size + Sexp.tailWidth body.items + 3 :=
      size_form _ _ _
    rw [Defs.items, Sexp.tailWidth]
    rcases List.mem_cons.1 h with rfl | h
    · refine ⟨rfl, rfl, rfl, ?_, ?_, ?_⟩
      · simp only [Ident.site]
        omega
      · simp only [Ident.site]
        omega
      · simp only [Ident.site]
        omega
    · obtain ⟨hc, hfrom, hto, hstart, hproper, hend⟩ := bounds_of_mem_functions _ rest h
      exact ⟨hc, hfrom, hto, by omega, hproper, by omega⟩

/-- The parameters of a local function stay inside its definition. -/
theorem within_parameters (f : Ident) {params : List Ident} {body : List Sexp} {pos : Nat}
    {l : Local} (h : l ∈ parameters .localParameter
      (pos + (form f.word (nameItems params) body).size - 1) (listAt f.word pos + 1) params) :
    l.Within pos (pos + (form f.word (nameItems params) body).size) := by
  have hsize := size_form f.word (nameItems params) body
  have hlist := tailWidth_le (nameItems params)
  obtain ⟨-, hstop, hstart, hsite, hproper, hend⟩ := bounds_of_mem_parameters h
  simp only [listAt] at hsite hend
  constructor <;> omega

/-- A parameter of a local function stays within the definitions. -/
theorem within_of_mem_defParameters {l : Local} (pos : Nat) : ∀ defs : Defs,
    l ∈ defs.parameters pos →
      l.collection = .localParameter ∧ l.Within pos (pos + Sexp.tailWidth defs.items - 1)
  | .nil, h => by cases h
  | .cons f params body rest, h => by
    rw [Defs.items, Sexp.tailWidth]
    rcases List.mem_append.1 h with h | h
    · have hwithin := within_parameters f h
      exact ⟨(bounds_of_mem_parameters h).1, hwithin.mono (Nat.le_refl _) (by omega)⟩
    · obtain ⟨hc, hwithin⟩ := within_of_mem_defParameters _ rest h
      exact ⟨hc, hwithin.mono (by omega) (by omega)⟩

private theorem filter_eq_nil_of_collection {ls : List Local} {c d : Collection} (hcd : d ≠ c)
    (h : ∀ l ∈ ls, l.collection = d) : ls.filter (·.collection == c) = [] := by
  rw [List.filter_eq_nil_iff]
  intro l hl
  simpa [h l hl] using hcd

/-- Listing functions and parameters together changes no collection. -/
theorem filter_functionsAndParameters (start stop : Nat) (c : Collection) (pos : Nat) :
    ∀ defs : Defs, (defs.functionsAndParameters start stop pos).filter (·.collection == c) =
      (defs.functions start stop pos ++ defs.parameters pos).filter (·.collection == c)
  | .nil => rfl
  | .cons f params body rest => by
    let next := pos + (form f.word (nameItems params) body.items).size + 1
    let bound := parameters .localParameter
      (pos + (form f.word (nameItems params) body.items).size - 1) (listAt f.word pos + 1) params
    have hrest := filter_functionsAndParameters start stop c next rest
    -- One of the two lists that change places has nothing in the collection.
    have hswap : bound.filter (·.collection == c) ++
        (rest.functions start stop next).filter (·.collection == c) =
          (rest.functions start stop next).filter (·.collection == c) ++
            bound.filter (·.collection == c) := by
      by_cases hc : c = .localDefinition
      · have hbound : bound.filter (·.collection == c) = [] :=
          filter_eq_nil_of_collection (d := .localParameter) (by simp [hc]) fun l hl =>
            (bounds_of_mem_parameters hl).1
        rw [hbound, List.nil_append, List.append_nil]
      · have hfunctions : (rest.functions start stop next).filter (·.collection == c) = [] :=
          filter_eq_nil_of_collection (Ne.symm hc) fun l hl => (bounds_of_mem_functions _ rest hl).1
        rw [hfunctions, List.nil_append, List.append_nil]
    have hcons : Defs.functionsAndParameters start stop pos (.cons f params body rest) =
        [⟨.localDefinition, f.site (pos + 1), ⟨start, stop⟩⟩] ++
          (bound ++ rest.functionsAndParameters start stop next) := rfl
    have hfunctions : Defs.functions start stop pos (.cons f params body rest) =
        [⟨.localDefinition, f.site (pos + 1), ⟨start, stop⟩⟩] ++
          rest.functions start stop next := rfl
    have hparameters : Defs.parameters pos (.cons f params body rest) =
        bound ++ rest.parameters next := rfl
    rw [hcons, hfunctions, hparameters]
    simp only [List.filter_append] at hrest hswap ⊢
    rw [hrest, ← List.append_assoc (bound.filter _), hswap]
    simp only [List.append_assoc]

/-- An element of a list is found among those of its own collection. -/
theorem mem_iff_mem_filter {l : Local} (ls : List Local) :
    l ∈ ls ↔ l ∈ ls.filter (·.collection == l.collection) := by
  simp

/-- The locals of local functions are the functions and their parameters. -/
theorem mem_functionsAndParameters {start stop pos : Nat} {defs : Defs} {l : Local} :
    l ∈ defs.functionsAndParameters start stop pos ↔
      l ∈ defs.functions start stop pos ∨ l ∈ defs.parameters pos := by
  rw [mem_iff_mem_filter, filter_functionsAndParameters, ← mem_iff_mem_filter, List.mem_append]

mutual

/-- The local bindings of an expression stay inside it. -/
theorem Expr.within_locals {l : Local} (pos : Nat) : ∀ e : Expr,
    l ∈ e.locals pos → l.Within pos (pos + e.sexp.size)
  | .number _, h => by cases h
  | .name _, h => by cases h
  | .call f args, h => by
    have hsize := size_call f args
    rw [Expr.locals] at h
    exact (args.within_locals _ h).mono (by omega) (by omega)
  | .variables sequential specs body, h => by
    have hsize := size_form (Keyword.variables sequential).word specs.items body.items
    have hlist := tailWidth_le specs.items
    simp only [Expr.locals, bodyAt, listAt] at h
    rw [Expr.sexp]
    rcases List.mem_append.1 h with h | h
    · obtain ⟨-, hstop, hstart, hproper, hend, hall, heach⟩ := bounds_of_mem_variables _ specs h
      cases sequential
      · have := hall rfl
        constructor <;> omega
      · have := heach rfl
        constructor <;> omega
    rcases List.mem_append.1 h with h | h
    · exact (specs.within_locals _ h).mono (by omega) (by omega)
    · exact (body.within_locals _ h).mono (by omega) (by omega)
  | .lambda params body, h => by
    have hsize := size_form Keyword.lambda.word (nameItems params) body.items
    have hlist := tailWidth_le (nameItems params)
    simp only [Expr.locals, bodyAt, listAt] at h
    rw [Expr.sexp]
    rcases List.mem_append.1 h with h | h
    · obtain ⟨-, hstop, hstart, hsite, hproper, hend⟩ := bounds_of_mem_parameters h
      constructor <;> omega
    · exact (body.within_locals _ h).mono (by omega) (by omega)
  | .functions recursive defs body, h => by
    have hsize := size_form (Keyword.functions recursive).word defs.items body.items
    have hlist := tailWidth_le defs.items
    simp only [Expr.locals, bodyAt, listAt] at h
    rw [Expr.sexp]
    rcases List.mem_append.1 h with h | h
    · rcases mem_functionsAndParameters.1 h with h | h
      · obtain ⟨-, hfrom, hto, hstart, hproper, hend⟩ := bounds_of_mem_functions _ defs h
        split at hfrom <;> constructor <;> omega
      · exact (within_of_mem_defParameters _ defs h).2.mono (by omega) (by omega)
    rcases List.mem_append.1 h with h | h
    · exact (defs.within_locals _ h).mono (by omega) (by omega)
    · exact (body.within_locals _ h).mono (by omega) (by omega)
  | .dolist x values body, h => by
    have hx := x.one_le_size
    have hsize := size_form Keyword.dolist.word [.word x.word, values.sexp] body.items
    have hlist := size_entry x values.sexp
    simp only [Expr.locals, bodyAt, listAt] at h
    rw [Expr.sexp]
    rcases List.mem_cons.1 h with rfl | h
    · constructor <;> simp only [Ident.site] <;> omega
    rcases List.mem_append.1 h with h | h
    · exact (values.within_locals _ h).mono (by omega) (by omega)
    · exact (body.within_locals _ h).mono (by omega) (by omega)

/-- The local bindings of expressions stay inside them. -/
theorem Body.within_locals {l : Local} (pos : Nat) : ∀ body : Body,
    l ∈ body.locals pos → l.Within pos (pos + Sexp.tailWidth body.items - 1)
  | .nil, h => by cases h
  | .cons e rest, h => by
    rw [Body.items, Sexp.tailWidth]
    rcases List.mem_append.1 h with h | h
    · exact (e.within_locals _ h).mono (Nat.le_refl _) (by omega)
    · exact (rest.within_locals _ h).mono (by omega) (by omega)

/-- The local bindings in the values of variables stay inside them. -/
theorem Specs.within_locals {l : Local} (pos : Nat) : ∀ specs : Specs,
    l ∈ specs.locals pos → l.Within pos (pos + Sexp.tailWidth specs.items - 1)
  | .nil, h => by cases h
  | .cons x value rest, h => by
    have hsize := size_entry x value.sexp
    rw [Specs.items, Sexp.tailWidth]
    rcases List.mem_append.1 h with h | h
    · exact (value.within_locals _ h).mono (by omega) (by omega)
    · exact (rest.within_locals _ h).mono (by omega) (by omega)

/-- The local bindings in the bodies of local functions stay inside them. -/
theorem Defs.within_locals {l : Local} (pos : Nat) : ∀ defs : Defs,
    l ∈ defs.locals pos → l.Within pos (pos + Sexp.tailWidth defs.items - 1)
  | .nil, h => by cases h
  | .cons f params body rest, h => by
    have hsize := size_form f.word (nameItems params) body.items
    simp only [Defs.locals, bodyAt, listAt] at h
    rw [Defs.items, Sexp.tailWidth]
    rcases List.mem_append.1 h with h | h
    · exact (body.within_locals _ h).mono (by omega) (by omega)
    · exact (rest.within_locals _ h).mono (by omega) (by omega)

end

mutual

/-- The local bindings of an expression are kept apart from the global definitions. -/
theorem Expr.collection_ne {l : Local} (pos : Nat) : ∀ e : Expr,
    l ∈ e.locals pos → l.collection ≠ .globalDefinition
  | .number _, h => by cases h
  | .name _, h => by cases h
  | .call f args, h => args.collection_ne _ h
  | .variables sequential specs body, h => by
    rw [Expr.locals, List.mem_append, List.mem_append] at h
    rcases h with h | h | h
    · simp [(bounds_of_mem_variables _ specs h).1]
    · exact specs.collection_ne _ h
    · exact body.collection_ne _ h
  | .lambda params body, h => by
    rw [Expr.locals, List.mem_append] at h
    rcases h with h | h
    · simp [(bounds_of_mem_parameters h).1]
    · exact body.collection_ne _ h
  | .functions recursive defs body, h => by
    rw [Expr.locals, List.mem_append, List.mem_append, mem_functionsAndParameters] at h
    rcases h with (h | h) | h | h
    · simp [(bounds_of_mem_functions _ defs h).1]
    · simp [(within_of_mem_defParameters _ defs h).1]
    · exact defs.collection_ne _ h
    · exact body.collection_ne _ h
  | .dolist x values body, h => by
    rw [Expr.locals, List.mem_cons, List.mem_append] at h
    rcases h with rfl | h | h
    · simp
    · exact values.collection_ne _ h
    · exact body.collection_ne _ h

/-- No local of a body is a global definition. -/
theorem Body.collection_ne {l : Local} (pos : Nat) : ∀ body : Body,
    l ∈ body.locals pos → l.collection ≠ .globalDefinition
  | .nil, h => by cases h
  | .cons e rest, h => by
    rcases List.mem_append.1 h with h | h
    · exact e.collection_ne _ h
    · exact rest.collection_ne _ h

private theorem Specs.collection_ne {l : Local} (pos : Nat) : ∀ specs : Specs,
    l ∈ specs.locals pos → l.collection ≠ .globalDefinition
  | .nil, h => by cases h
  | .cons x value rest, h => by
    rcases List.mem_append.1 h with h | h
    · exact value.collection_ne _ h
    · exact rest.collection_ne _ h

private theorem Defs.collection_ne {l : Local} (pos : Nat) : ∀ defs : Defs,
    l ∈ defs.locals pos → l.collection ≠ .globalDefinition
  | .nil, h => by cases h
  | .cons f params body rest, h => by
    rcases List.mem_append.1 h with h | h
    · exact body.collection_ne _ h
    · exact rest.collection_ne _ h

end

/-- No local of a top form is a global definition. -/
theorem Top.collection_ne {l : Local} (pos : Nat) (t : Top) (h : l ∈ t.locals pos) :
    l.collection ≠ .globalDefinition := by
  cases t with
  | defun f params body =>
    rw [Top.locals, List.mem_append] at h
    rcases h with h | h
    · simp [(bounds_of_mem_parameters h).1]
    · exact body.collection_ne _ h
  | defvar x value => exact value.collection_ne _ h
  | expr e => exact e.collection_ne _ h

/-- The locals of a top form stay within it. -/
theorem Top.within_locals {l : Local} (pos : Nat) (t : Top) (h : l ∈ t.locals pos) :
    l.Within pos (pos + t.sexp.size) := by
  cases t with
  | defun f params body =>
    have hsize := size_defun f params body
    have hlist := tailWidth_le (nameItems params)
    simp only [Top.locals, listAt] at h
    rcases List.mem_append.1 h with h | h
    · obtain ⟨-, hstop, hstart, hsite, hproper, hend⟩ := bounds_of_mem_parameters h
      constructor <;> omega
    · exact (body.within_locals _ h).mono (by omega) (by omega)
  | defvar x value =>
    have hsize := size_defvar x value
    simp only [Top.locals, listAt] at h
    exact (value.within_locals _ h).mono (by omega) (by omega)
  | expr e => exact e.within_locals _ h

/-- The locals of a program stay within it. -/
theorem Program.within_locals {l : Local} (pos : Nat) (p : Program)
    (h : l ∈ (p.place pos).flatMap fun x => x.2.locals x.1) :
    l.Within pos (pos + Sexp.tailWidth (p.map Top.sexp) - 1) := by
  induction p generalizing pos with
  | nil => cases h
  | cons t rest ih =>
    rw [Program.place, List.flatMap_cons] at h
    rw [List.map_cons, Sexp.tailWidth]
    rcases List.mem_append.1 h with h | h
    · exact (t.within_locals _ h).mono (Nat.le_refl _) (by omega)
    · exact (ih _ h).mono (by omega) (by omega)

end LexScope.Core
