import LexScope.Form.Atom
import LexScope.Span.Basic

/-!
# Bindings

A binding is one definition of a name: where the name is written, which form introduces it, and
where it can be seen. Global bindings have no scope; for all others the end of the scope counts as
inside.
-/

namespace LexScope

/-- What a binding names. -/
inductive BindingKind where
  /-- A function. -/
  | function
  /-- A macro. -/
  | macroFunction
  /-- A compiler macro. -/
  | compilerMacro
  /-- A generic function. -/
  | genericFunction
  /-- A method. -/
  | method
  /-- A macro that updates a place. -/
  | modifyMacro
  /-- How a place is set. -/
  | setfExpander
  /-- A way to combine methods. -/
  | methodCombination
  /-- A global variable. -/
  | specialVariable
  /-- A constant. -/
  | constant
  /-- A global symbol macro. -/
  | symbolMacro
  /-- A class. -/
  | classType
  /-- A condition type. -/
  | condition
  /-- A structure type. -/
  | structType
  /-- A type abbreviation. -/
  | typeName
  /-- A package. -/
  | package
  /-- A parameter of a lambda list. -/
  | parameter
  /-- A variable of a binding form. -/
  | localVariable
  /-- A local function. -/
  | localFunction
  /-- A local macro. -/
  | localMacro
  /-- A local symbol macro. -/
  | localSymbolMacro
  /-- A variable of a `loop` clause. -/
  | loopVariable
  /-- The name of a `loop`. -/
  | loopName
  deriving DecidableEq, Inhabited

namespace BindingKind

/-- The kinds, global ones first. -/
def all : List BindingKind :=
  [function, macroFunction, compilerMacro, genericFunction, method, modifyMacro, setfExpander,
    methodCombination, specialVariable, constant, symbolMacro, classType, condition, structType,
    typeName, package, parameter, localVariable, localFunction, localMacro, localSymbolMacro,
    loopVariable, loopName]

/-- The kind in words. -/
def name : BindingKind → String
  | function => "function"
  | macroFunction => "macro"
  | compilerMacro => "compiler-macro"
  | genericFunction => "generic-function"
  | method => "method"
  | modifyMacro => "modify-macro"
  | setfExpander => "setf-expander"
  | methodCombination => "method-combination"
  | specialVariable => "variable"
  | constant => "constant"
  | symbolMacro => "symbol-macro"
  | classType => "class"
  | condition => "condition"
  | structType => "struct"
  | typeName => "type"
  | package => "package"
  | parameter => "parameter"
  | localVariable => "local-variable"
  | localFunction => "local-function"
  | localMacro => "local-macro"
  | localSymbolMacro => "local-symbol-macro"
  | loopVariable => "loop-variable"
  | loopName => "loop-name"

/-- Global kinds that stand at the head of a call. -/
def isFunctionLike : BindingKind → Bool
  | function | macroFunction | compilerMacro | genericFunction | method | modifyMacro => true
  | _ => false

/-- Local kinds that stand at the head of a call. -/
def isLocalFunction : BindingKind → Bool
  | localFunction | localMacro => true
  | _ => false

end BindingKind

/-- One definition of a name. -/
structure Binding where
  /-- The name in lower case. -/
  name : String
  /-- The keyword of the binding form, or for a parameter the function it belongs to; none for
  global definitions. -/
  container : Option String
  /-- Where the binding can be seen; none for global definitions. -/
  scope : Option Span
  /-- Where the name is written. -/
  site : Span
  /-- What the name is bound to. -/
  kind : BindingKind
  /-- The form that introduces the binding. -/
  form : Span
  /-- For variables of `do` and `do*`: from the list of variables up to the scope. Step forms in it
  see the variable. -/
  stepWindow : Option Span := none
  /-- The documentation string. -/
  doc : Option String := none
  deriving DecidableEq

namespace Binding

/-- A binding that is seen everywhere. -/
def global (name : String) (site : Span) (kind : BindingKind) (form : Span) : Binding :=
  ⟨name, none, none, site, kind, form, none, none⟩

/-- A binding with a scope. -/
def lexical (name : String) (site : Span) (kind : BindingKind) (container : String)
    (scope form : Span) : Binding :=
  ⟨name, some container, some scope, site, kind, form, none, none⟩

/-- The binding has no scope. -/
def isGlobal (b : Binding) : Bool := b.scope.isNone

/-- The offset is in the scope, its end included. -/
def isVisibleAt (b : Binding) (offset : Nat) : Bool := b.scope.any (·.touches offset)

/-- Both describe one definition, perhaps with different details. -/
def sameDefinition (a b : Binding) : Bool :=
  a.name == b.name && a.site == b.site && a.kind == b.kind

/-- The binding comes from `do` or `do*`. -/
def isDoVariable (b : Binding) : Bool := b.container == some "do" || b.container == some "do*"

end Binding

/-- The name, in lower case, can be bound: it is not empty, no constant, dot, keyword, lambda-list
marker or number. -/
def isBindable (name : String) : Bool :=
  name != "" && name != "nil" && name != "t" && name != "." &&
    name.toList.head? != some ':' && name.toList.head? != some '&' && !looksNumeric name

end LexScope
