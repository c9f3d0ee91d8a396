import LexScope.Binding.LambdaList
import LexScope.Binding.Table

/-!
# Entries from nodes

What the binding forms have in common: a node that names a variable, a scope up to the end of a
form, and the parameters of a lambda list.
-/

namespace LexScope

/-- A name and where it is written. -/
structure NameSite where
  /-- The name in lower case. -/
  name : String
  /-- Where it is written. -/
  site : Span
  deriving DecidableEq

namespace Source

/-- The name that a node binds: an unquoted atom that can be bound. -/
def nameAt (src : Source) (n : Node) : Option NameSite :=
  if n.element.isAtom && !n.quoted then
    let name := lowerCase (src.textAt n)
    if isBindable name then some ⟨name, n.element.span⟩ else none
  else none

/-- The word of a node, which differs at most in case from a given one. -/
def isWord (src : Source) (n : Node) (word : String) : Bool := sameWord (src.textAt n) word

/-- The parameters of the lambda list at a node; `nil` is an empty list. -/
def parametersAt (src : Source) (n : Node) (destructuring : Bool) : Option (List Parameter) :=
  match n.element.kind with
  | .group _ =>
    if n.quoted then none
    else some (LambdaList.ofEntries src destructuring none .required n.items)
  | .atom => if src.isWord n "nil" then some [] else none
  | .string => none

end Source

/-- The scope from `start` to the closing bracket of a form, unless the form ends before. -/
def scopeIn (form : Pair) (start : Nat) : Option Span :=
  if start ≤ form.closing then some ⟨start, form.closing⟩ else none

namespace Entry

/-- A binding from `start` to the end of `form`. -/
def lexical (c : Collection) (kind : BindingKind) (container : String) (scopeForm : Pair)
    (form : Span) (start : Nat) (n : NameSite) : List Entry :=
  match scopeIn scopeForm start with
  | some scope => [.binding c (.lexical n.name n.site kind container scope form)]
  | none => []

/-- The parameters of a function, each visible from its own entry to the end of the form. -/
def parameters (c : Collection) (container : String) (form : Pair) (ps : List Parameter) :
    List Entry :=
  ps.flatMap fun p => lexical c .parameter container form form.span p.visibleFrom ⟨p.name, p.site⟩

end Entry

end LexScope
