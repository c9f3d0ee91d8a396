import LexScope.Binding.Basic
import LexScope.Form.Node

/-!
# Lambda lists

The parameters that a lambda list binds, read off the tree of the list. Parameters are bound one
after the other, so each is visible from the end of the outermost element it comes from.

Quoted entries, strings, default values and keywords yield no names. Where a list destructures, a
group among the required or rest parameters is a lambda list again.
-/

namespace LexScope

/-- The part of a lambda list that is being read. -/
inductive ListPart where
  /-- Required parameters. -/
  | required
  /-- After `&optional`. -/
  | optional
  /-- After `&key`. -/
  | key
  /-- After `&aux`. -/
  | aux
  /-- After `&rest` or `&body`. -/
  | rest
  deriving DecidableEq

namespace ListPart

/-- The part that a marker opens. Other markers, such as `&whole`, open none. -/
def ofMarker (word : String) : Option ListPart :=
  match lowerAscii word with
  | "&optional" => some optional
  | "&key" => some key
  | "&aux" => some aux
  | "&rest" | "&body" => some rest
  | _ => none

/-- Entries of the part may name a variable that tells whether an argument was given. -/
def hasSuppliedName : ListPart → Bool
  | optional | key => true
  | _ => false

/-- Groups of the part are lambda lists where the list destructures. -/
def nests : ListPart → Bool
  | required | rest => true
  | _ => false

end ListPart

/-- A parameter of a lambda list. -/
structure Parameter where
  /-- The name in lower case. -/
  name : String
  /-- Where it is written. -/
  site : Span
  /-- The parameter is visible from here on. -/
  visibleFrom : Nat
  deriving DecidableEq

namespace LambdaList

/-- The parameter written at a span, unless its text cannot be bound. -/
def parameterAt (src : Source) (site : Span) (visibleFrom : Nat) : List Parameter :=
  let name := lowerCase (src.slice site)
  if isBindable name then [⟨name, site, visibleFrom⟩] else []

/-- The third element of an entry, where it names a variable: `(name default supplied)`. -/
def suppliedName (src : Source) (part : ListPart) (visibleFrom : Nat) : List Node → List Parameter
  | _ :: _ :: supplied :: _ =>
    if part.hasSuppliedName && supplied.element.isAtom && !supplied.quoted then
      parameterAt src supplied.element.span visibleFrom
    else []
  | _ => []

/-- The part that comes after a node: an atom that starts with `&` may open another one. -/
def partAfter (src : Source) (part : ListPart) (n : Node) : Option ListPart :=
  let word := src.textAt n
  if n.element.isAtom && word.toList.head? == some '&' then
    some ((ListPart.ofMarker word).getD part)
  else none

mutual

/-- The parameters of the entries of a list. `outer` is where an enclosing entry ends. -/
def ofEntries (src : Source) (destructuring : Bool) (outer : Option Nat) (part : ListPart) :
    List Node → List Parameter
  | [] => []
  | n :: rest =>
    if n.quoted then ofEntries src destructuring outer part rest
    else
      match partAfter src part n with
      | some part' => ofEntries src destructuring outer part' rest
      | none =>
        ofEntry src destructuring part (outer.getD n.stop) n ++
          ofEntries src destructuring outer part rest

/-- The parameters of one entry: a name, a nested list, or a name with a default. -/
def ofEntry (src : Source) (destructuring : Bool) (part : ListPart) (visibleFrom : Nat) :
    Node → List Parameter
  | .mk e items =>
    match e.kind with
    | .atom => parameterAt src e.span visibleFrom
    | .group _ =>
      if destructuring && part.nests then
        ofEntries src destructuring (some visibleFrom) .required items
      else ofSpec src destructuring part visibleFrom items
    | .string => []

/-- The parameters of an entry in brackets: `(name default supplied)`,
`((keyword name) default supplied)` or `(name specializer)`. -/
def ofSpec (src : Source) (destructuring : Bool) (part : ListPart) (visibleFrom : Nat) :
    List Node → List Parameter
  | [] => []
  | first :: rest =>
    (if first.quoted then [] else ofSpecName src destructuring part visibleFrom first) ++
      suppliedName src part visibleFrom (first :: rest)

/-- The parameters of the first element of an entry in brackets. -/
def ofSpecName (src : Source) (destructuring : Bool) (part : ListPart) (visibleFrom : Nat) :
    Node → List Parameter
  | .mk e items =>
    match e.kind with
    | .atom => parameterAt src e.span visibleFrom
    | .group _ =>
      if part == .key then ofKeyword src destructuring visibleFrom items
      else if destructuring then ofEntries src destructuring (some visibleFrom) .required items
      else []
    | .string => []

/-- The parameters of `(keyword name)`. -/
def ofKeyword (src : Source) (destructuring : Bool) (visibleFrom : Nat) :
    List Node → List Parameter
  | _ :: named :: _ => ofVariable src destructuring visibleFrom named
  | _ => []

/-- The parameters of a name that may be a nested list. -/
def ofVariable (src : Source) (destructuring : Bool) (visibleFrom : Nat) : Node → List Parameter
  | .mk e items =>
    match e.kind with
    | .atom => parameterAt src e.span visibleFrom
    | .group _ =>
      if destructuring then ofEntries src destructuring (some visibleFrom) .required items else []
    | .string => []

end

/-- The parameters of the lambda list that opens at an offset, if its bracket has a partner. -/
def parse (src : Source) (opening : Nat) (destructuring : Bool) : Option (List Parameter) :=
  (src.layout.pairs.get? opening).map fun p =>
    ofEntries src destructuring none .required (src.items p)

end LambdaList

end LexScope
