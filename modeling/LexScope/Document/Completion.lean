import LexScope.Document.Analysis

/-!
# Completion

What can be completed at a cursor: every global name and the local ones in scope that start with
what is typed there. A name that is bound more than once is described by its innermost binding.
-/

namespace LexScope

/-- A proposal for completion. -/
structure CompletionItem where
  /-- The name. -/
  label : String
  /-- What the name is bound to. -/
  kind : BindingKind
  /-- The kind and container in words. -/
  detail : String
  /-- The documentation string. -/
  documentation : Option String

namespace Analysis

/-- The part of a symbol that is typed right before an offset, with ASCII capitals in lower case.
Inside a character nothing is typed. -/
def typedAt (a : Analysis) (offset : Nat) : String :=
  let stop := min offset a.source.bytes.length
  let length := ((a.source.bytes.take stop).reverse.takeWhile fun b => !Byte.isDelimiter b).length
  match Utf8.cut? a.source.bytes ⟨stop - length, stop⟩ with
  | some typed => lowerAscii (String.ofList (Utf8.decode typed))
  | none => ""

/-- The binding that describes a name better: a local one before a global one, then the later
definition. -/
def preferred (current candidate : Binding) : Binding :=
  match candidate.isGlobal, current.isGlobal with
  | false, true => candidate
  | true, false => current
  | _, _ => if current.site.start ≤ candidate.site.start then candidate else current

/-- Keep one binding for each name of a list sorted by name. -/
def describe : List Binding → List Binding
  | [] => []
  | b :: rest =>
    (rest.takeWhile (·.name == b.name)).foldl preferred b ::
      describe (rest.dropWhile (·.name == b.name))
termination_by bindings => bindings.length
decreasing_by
  have := (List.dropWhile_sublist (fun c : Binding => c.name == b.name) (l := rest)).length_le
  simp only [List.length_cons]
  omega

/-- The proposal for a binding. -/
def completionItem (b : Binding) : CompletionItem where
  label := b.name
  kind := b.kind
  detail :=
    match b.container with
    | some container => b.kind.name ++ " in " ++ container
    | none => b.kind.name
  documentation := b.doc

/-- The proposals at an offset, by name. -/
def completions (a : Analysis) (offset : Nat) : List CompletionItem :=
  let typed := (a.typedAt offset).toList
  (describe ((a.bindingsAt offset).filter fun b => typed.isPrefixOf b.name.toList)).map
    completionItem

end Analysis

end LexScope
