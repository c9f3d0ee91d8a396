import LexScope.Binding.Entry

/-!
# Variables of `loop`

The clauses of a `loop` form are read word by word. A word such as `for` says that the next element
is a variable, and `and` says so too while a chain of `for` or `with` clauses lasts. A target in
brackets is taken apart. Each name is visible from its own end to the end of the form.
-/

namespace LexScope.Loop

/-- The words that end a chain of `for` and `with` clauses. -/
def clauseWords : List String :=
  ["do", "doing", "collect", "collecting", "append", "appending", "nconc", "nconcing", "count",
    "counting", "sum", "summing", "maximize", "maximizing", "minimize", "minimizing", "when", "if",
    "unless", "while", "until", "repeat", "always", "never", "thereis", "finally", "initially",
    "return", "else", "end"]

/-- What the next element is. -/
inductive Expected where
  /-- A word or an expression. -/
  | anything
  /-- A variable, or several in brackets. -/
  | target
  /-- The name of the form. -/
  | name
  /-- A group whose second element is a variable. -/
  | pairing
  deriving DecidableEq

/-- State between two elements. -/
structure State where
  /-- What comes next. -/
  expected : Expected := .anything
  /-- A chain of `for` or `with` clauses lasts. -/
  inChain : Bool := false
  deriving DecidableEq

/-- The state after a word where anything may come. -/
def State.after (st : State) (word : String) : State :=
  if word == "for" || word == "as" || word == "with" then ⟨.target, true⟩
  else if word == "and" && st.inChain then { st with expected := .target }
  else if word == "into" then { st with expected := .target }
  else if word == "named" then { st with expected := .name }
  else if word == "using" then { st with expected := .pairing }
  else if clauseWords.contains word then { st with inChain := false }
  else st

/-- The word of an atom: in lower case, and without the colon of a keyword. -/
def wordOf (text : String) : String :=
  let word := lowerAscii text
  match word.toList with
  | ':' :: rest => String.ofList rest
  | _ => word

/-- The binding of one name. -/
def bindName (form : Pair) (kind : BindingKind) (n : NameSite) : List Entry :=
  Entry.lexical .loopBinding kind "loop" form form.span n.site.stop n

mutual

/-- The names of a target. -/
def bindTarget (src : Source) (form : Pair) (kind : BindingKind) : Node → List Entry
  | .mk e items =>
    match e.kind with
    | .atom => (src.nameAt (.mk e items)).toList.flatMap (bindName form kind)
    | .group _ => if e.quoted then [] else bindTargets src form kind items
    | .string => []

/-- The names of the targets in brackets. -/
def bindTargets (src : Source) (form : Pair) (kind : BindingKind) : List Node → List Entry
  | [] => []
  | n :: rest => bindTarget src form kind n ++ bindTargets src form kind rest

end

/-- The entries of the clauses, read from a state. -/
def clauses (src : Source) (form : Pair) (st : State) : List Node → List Entry
  | [] => []
  | n :: rest =>
    match st.expected with
    | .target =>
      bindTarget src form .loopVariable n ++
        clauses src form { st with expected := .anything } rest
    | .name =>
      bindTarget src form .loopName n ++ clauses src form { st with expected := .anything } rest
    | .pairing =>
      (if n.element.group.isSome then
        (n.items[1]?).toList.flatMap (bindTarget src form .loopVariable)
      else []) ++ clauses src form { st with expected := .anything } rest
    | .anything =>
      let st' := if n.element.isAtom then st.after (wordOf (src.textAt n)) else st
      clauses src form st' rest

/-- The entries of a `loop` form. -/
def entries (src : Source) (form : Pair) (operands : List Node) : List Entry :=
  clauses src form {} operands

end LexScope.Loop
