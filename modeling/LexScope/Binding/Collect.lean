import LexScope.Binding.Definition
import LexScope.Binding.LocalFunction
import LexScope.Binding.Loop
import LexScope.Binding.Variable

/-!
# Collecting the bindings of a document

Every bracket pair outside the excluded parts whose first element is the word of a binding form is
collected. The forms of one category make one pass, and between passes the work can be cancelled.
-/

namespace LexScope

/-- A form that binds names. -/
structure BindingForm where
  /-- Its brackets. -/
  pair : Pair
  /-- How it binds. -/
  head : Head

namespace BindingForm

/-- How the form at a pair binds, if it does. -/
def at? (src : Source) (p : Pair) : Option BindingForm :=
  match src.elements p with
  | [] => none
  | first :: _ =>
    if first.isAtom && !first.quoted then
      (Head.classify (src.textOf first)).map fun head => ⟨p, head⟩
    else none

/-- The binding forms of a document in order of their opening brackets. -/
def all (src : Source) (excluded : SpanSet) : List BindingForm :=
  (src.layout.pairs.pairs.filter fun p => !excluded.contains p.opening).filterMap (at? src)

/-- The entries of a form. -/
def entries (src : Source) (f : BindingForm) : List Entry :=
  match src.items f.pair with
  | [] => []
  | first :: operands =>
    let keyword := keywordOf (src.textAt first)
    match f.head with
    | .global d => Definition.entries src f.pair d operands
    | .letLike sequential kind => Variable.letEntries src f.pair keyword sequential kind operands
    | .doLoop sequential => Variable.doEntries src f.pair keyword sequential operands
    | .lambda => Variable.lambdaEntries src f.pair operands
    | .destructuringBind => Variable.valueEntries src f.pair keyword true operands
    | .multipleValueBind => Variable.valueEntries src f.pair keyword false operands
    | .localFunctions form => LocalFunction.entries src f.pair keyword form operands
    | .singleVariable iterates kind =>
      Variable.singleEntries src f.pair keyword iterates kind operands
    | .loop => Loop.entries src f.pair operands

end BindingForm

/-- The entry is kept: it is a step form, or its name lies outside the excluded parts. -/
def Entry.isKept (excluded : SpanSet) : Entry → Bool
  | .binding _ b => !excluded.meets b.site
  | .stepForm _ => true

/-- The work was cancelled. -/
structure Cancelled where
  /-- How often it was asked whether to go on. -/
  checks : Nat
  deriving DecidableEq

/-- Add the entries of one pass. -/
def Table.collectPass (src : Source) (excluded : SpanSet) (forms : List BindingForm) (t : Table)
    (c : Category) : Table :=
  let found := (forms.filter (·.head.category == c)).flatMap (·.entries src)
  (found.filter (Entry.isKept excluded)).foldl Table.add t

/-- The passes that are left, of which the first is number `check`. Before each it is asked whether
to cancel. -/
def Table.collectPasses (src : Source) (excluded : SpanSet) (forms : List BindingForm)
    (cancelled : Nat → Bool) (check : Nat) (t : Table) : List Category → Except Cancelled Table
  | [] => .ok t
  | c :: rest =>
    if cancelled check then .error ⟨check + 1⟩
    else
      collectPasses src excluded forms cancelled (check + 1) (t.collectPass src excluded forms c)
        rest

/-- The bindings of a document, where `cancelled k` answers the check of number `k`. -/
def Table.collect (src : Source) (mode : Mode) (cancelled : Nat → Bool) : Except Cancelled Table :=
  let excluded := src.layout.excluded mode
  collectPasses src excluded (BindingForm.all src excluded) cancelled 0 {} Category.all

end LexScope
