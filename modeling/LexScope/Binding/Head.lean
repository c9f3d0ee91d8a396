import LexScope.Binding.Basic
import LexScope.Text.CaseMap

/-!
# Heads of forms

The first word of a form says how the form binds names. A `cl:` or `common-lisp:` package before the
word does not matter, nor does the case of its letters.
-/

namespace LexScope

/-- How the lambda list of a definition is read. -/
inductive LambdaListShape where
  /-- There is none, or the form has a layout of its own. -/
  | absent
  /-- Names and optional sections. -/
  | ordinary
  /-- Groups destructure. -/
  | destructuring
  /-- Qualifiers first, then parameters that may be specialized. -/
  | specialized
  deriving DecidableEq

/-- The forms that define a global name. -/
inductive Definer where
  /-- `defun` -/
  | function
  /-- `defmacro` -/
  | macroFunction
  /-- `define-compiler-macro` -/
  | compilerMacro
  /-- `defgeneric` -/
  | genericFunction
  /-- `defmethod` -/
  | method
  /-- `defsetf` -/
  | setf
  /-- `define-setf-expander` -/
  | setfExpander
  /-- `deftype` -/
  | typeName
  /-- `define-modify-macro` -/
  | modifyMacro
  /-- `define-method-combination` -/
  | methodCombination
  /-- `defvar` -/
  | specialVariable
  /-- `defparameter` -/
  | parameter
  /-- `defconstant` -/
  | constant
  /-- `define-symbol-macro` -/
  | symbolMacro
  /-- `defclass` -/
  | classType
  /-- `define-condition` -/
  | condition
  /-- `defstruct` -/
  | structType
  /-- `defpackage` -/
  | package
  deriving DecidableEq

namespace Definer

/-- All definers. -/
def all : List Definer :=
  [function, macroFunction, compilerMacro, genericFunction, method, setf, setfExpander, typeName,
    modifyMacro, methodCombination, specialVariable, parameter, constant, symbolMacro, classType,
    condition, structType, package]

/-- The word that starts the form. -/
def keyword : Definer → String
  | function => "defun"
  | macroFunction => "defmacro"
  | compilerMacro => "define-compiler-macro"
  | genericFunction => "defgeneric"
  | method => "defmethod"
  | setf => "defsetf"
  | setfExpander => "define-setf-expander"
  | typeName => "deftype"
  | modifyMacro => "define-modify-macro"
  | methodCombination => "define-method-combination"
  | specialVariable => "defvar"
  | parameter => "defparameter"
  | constant => "defconstant"
  | symbolMacro => "define-symbol-macro"
  | classType => "defclass"
  | condition => "define-condition"
  | structType => "defstruct"
  | package => "defpackage"

/-- What the form defines. -/
def kind : Definer → BindingKind
  | function => .function
  | macroFunction => .macroFunction
  | compilerMacro => .compilerMacro
  | genericFunction => .genericFunction
  | method => .method
  | setf | setfExpander => .setfExpander
  | typeName => .typeName
  | modifyMacro => .modifyMacro
  | methodCombination => .methodCombination
  | specialVariable | parameter => .specialVariable
  | constant => .constant
  | symbolMacro => .symbolMacro
  | classType => .classType
  | condition => .condition
  | structType => .structType
  | package => .package

/-- How its lambda list is read. -/
def lambdaList : Definer → LambdaListShape
  | function | genericFunction | modifyMacro => .ordinary
  | macroFunction | compilerMacro | setfExpander | typeName => .destructuring
  | method => .specialized
  | _ => .absent

/-- The form has a function body, so a documentation string comes before the first body form and is
not the last. -/
def hasBody : Definer → Bool
  | function | macroFunction | compilerMacro | method | setfExpander | typeName => true
  | _ => false

/-- The documentation string comes after a value. -/
def hasInitValue : Definer → Bool
  | specialVariable | parameter | constant | symbolMacro => true
  | _ => false

end Definer

/-- The forms that define local functions. -/
inductive LocalFunctionForm where
  /-- `flet` -/
  | flet
  /-- `labels` -/
  | labels
  /-- `macrolet` -/
  | macrolet
  deriving DecidableEq

namespace LocalFunctionForm

/-- All of these forms. -/
def all : List LocalFunctionForm := [flet, labels, macrolet]

/-- The word that starts the form. -/
def keyword : LocalFunctionForm → String
  | flet => "flet"
  | labels => "labels"
  | macrolet => "macrolet"

end LocalFunctionForm

/-- How a form binds names. -/
inductive Head where
  /-- A global definition. -/
  | global (d : Definer)
  /-- A list of variables, as in `let`; the starred forms bind one after the other. -/
  | letLike (sequential : Bool) (kind : BindingKind)
  /-- `do` and `do*`. -/
  | doLoop (sequential : Bool)
  /-- `lambda` -/
  | lambda
  /-- `destructuring-bind` -/
  | destructuringBind
  /-- `multiple-value-bind` -/
  | multipleValueBind
  /-- Local functions. -/
  | localFunctions (f : LocalFunctionForm)
  /-- One variable in a list of its own. If the form iterates, the variable is seen from the end of
  the second element of that list. -/
  | singleVariable (iterates : Bool) (kind : BindingKind)
  /-- `loop` -/
  | loop
  deriving DecidableEq

/-- The passes of the collection, each over the forms of one category. -/
inductive Category where
  /-- Global definitions. -/
  | global
  /-- Variables of binding forms. -/
  | localBinding
  /-- Local functions. -/
  | localFunction
  /-- Forms with one variable. -/
  | singleVariable
  /-- `loop` forms. -/
  | loop
  deriving DecidableEq

/-- The categories in the order of the passes. -/
def Category.all : List Category :=
  [global, localBinding, localFunction, singleVariable, loop]

namespace Head

/-- The pass in which a form is collected. -/
def category : Head → Category
  | global _ => .global
  | letLike _ _ | doLoop _ | lambda | destructuringBind | multipleValueBind => .localBinding
  | localFunctions _ => .localFunction
  | singleVariable _ _ => .singleVariable
  | loop => .loop

/-- The words that start a binding form other than definitions and local functions. -/
def ofWord : String → Option Head
  | "let" | "prog" => some (letLike false .localVariable)
  | "let*" | "prog*" => some (letLike true .localVariable)
  | "symbol-macrolet" => some (letLike false .localSymbolMacro)
  | "do" => some (doLoop false)
  | "do*" => some (doLoop true)
  | "lambda" => some lambda
  | "destructuring-bind" => some destructuringBind
  | "multiple-value-bind" => some multipleValueBind
  | "dolist" | "dotimes" | "do-symbols" | "do-external-symbols" | "do-all-symbols" =>
    some (singleVariable true .localVariable)
  | "with-open-file" | "with-open-stream" | "with-input-from-string" | "with-output-to-string" =>
    some (singleVariable false .localVariable)
  | "with-hash-table-iterator" | "with-package-iterator" =>
    some (singleVariable false .localMacro)
  | "loop" => some loop
  | _ => none

end Head

/-- The rest of a text after its given beginning. -/
def afterBeginning? (beginning text : String) : Option String :=
  if beginning.toList.isPrefixOf text.toList then
    some (String.ofList (text.toList.drop beginning.length))
  else none

/-- The word without the package of the standard symbols. -/
def withoutPackage (word : String) : String :=
  (["common-lisp::", "common-lisp:", "cl::", "cl:"].findSome? (afterBeginning? · word)).getD word

/-- The keyword that a head spells: in lower case and without its package. -/
def keywordOf (text : String) : String := withoutPackage (lowerAscii text)

/-- How the form with this first word binds names, if it does. -/
def Head.classify (text : String) : Option Head :=
  let word := keywordOf text
  match Definer.all.find? (·.keyword == word) with
  | some d => some (global d)
  | none =>
    match LocalFunctionForm.all.find? (·.keyword == word) with
    | some f => some (localFunctions f)
    | none => ofWord word

end LexScope
