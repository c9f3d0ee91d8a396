import LexScope.Binding.Entry

/-!
# Documentation strings

Where a definition may carry its documentation, and the contents of a string literal.
-/

namespace LexScope

/-- The characters of a literal with the backslashes of its escapes removed. -/
def unescape : List Char → List Char
  | [] => []
  | ['\\'] => []
  | '\\' :: c :: rest => c :: unescape rest
  | c :: rest => c :: unescape rest

/-- The contents of a literal without its quotes; the last one may be missing. -/
def literalContents : List Char → Option (List Char)
  | '"' :: rest => some (unescape (if rest.getLast? == some '"' then rest.dropLast else rest))
  | _ => none

namespace Source

/-- The contents of a string node. -/
def stringAt (src : Source) (n : Node) : Option String :=
  if n.element.isString then (literalContents (src.textAt n).toList).map String.ofList else none

/-- The node is the keyword `:documentation`. -/
def isDocumentationKeyword (src : Source) (n : Node) : Bool :=
  n.element.isAtom && src.isWord n ":documentation"

/-- The string of an option `(:documentation "...")`. -/
def documentationOption (src : Source) : List Node → Option String
  | head :: value :: _ => if src.isDocumentationKeyword head then src.stringAt value else none
  | _ => none

/-- The documentation among the options of a definition: the first string that stands free, the
string after `:documentation`, or that of an option. -/
def optionDoc (src : Source) : List Node → Option String
  | [] => none
  | n :: rest =>
    match n.element.kind with
    | .string => if n.quoted then optionDoc src rest else src.stringAt n
    | .atom =>
      if src.isDocumentationKeyword n then rest.head?.bind src.stringAt else optionDoc src rest
    | .group _ =>
      match src.documentationOption n.items with
      | some doc => some doc
      | none => optionDoc src rest

/-- The node is a form `(declare ...)`. -/
def isDeclaration (src : Source) (n : Node) : Bool :=
  n.element.group.isSome && !n.quoted &&
    n.items.head?.any fun head => head.element.isAtom && src.isWord head "declare"

/-- The documentation of a function body: only declarations come before it, and a string that ends
the body is its value. -/
def bodyDoc (src : Source) : List Node → Option String
  | [] => none
  | n :: rest =>
    if n.element.isString && !n.quoted then
      if rest.isEmpty then none else src.stringAt n
    else if src.isDeclaration n then bodyDoc src rest
    else none

end Source

end LexScope
