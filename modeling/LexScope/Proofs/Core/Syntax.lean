import LexScope.Binding.Entry
import LexScope.Binding.Head
import LexScope.Proofs.Binding.SmallWords
import LexScope.Proofs.Form.SexpDocument

/-!
# The core language

Numbers, names, calls and the forms that bind names locally, inside global definitions. This file
says how a program is printed and what its names mean. Meaning is given by an environment, which
lists the names in force with the innermost first, and which each form extends for the parts that
see its names. No scope is measured here: offsets only tell one occurrence of a name from another.
-/

namespace LexScope.Core

open Byte Utf8

/-! ## Names -/

/-- The characters of names and keywords. -/
def isNameChar (c : Char) : Bool := c == '*' || (decide ('a' ≤ c) && decide (c ≤ 'z'))

/-- A character of an identifier is a small one. -/
theorem isSmallChar_of_isNameChar {c : Char} (h : isNameChar c = true) :
    isSmallChar c = true := by
  simp only [isNameChar, Bool.or_eq_true] at h
  rcases h with h | h <;> simp only [isSmallChar, h, Bool.or_true, Bool.true_or]

private theorem isPlain_of_mem_name {chars : List Char} (h : ∀ c ∈ chars, isNameChar c = true) :
    ∀ b ∈ encode chars, isPlain b = true :=
  isPlain_of_mem_small fun c hc => isSmallChar_of_isNameChar (h c hc)

/-- A name of the core language: small letters that spell neither a constant nor the head of a
binding form. -/
structure Ident where
  /-- The name. -/
  text : String
  /-- It has a letter. -/
  nonempty : text ≠ ""
  /-- It has nothing but small letters. -/
  letters : ∀ c ∈ text.toList, 'a' ≤ c ∧ c ≤ 'z'
  /-- It is no constant. -/
  noConstant : text ≠ "nil" ∧ text ≠ "t"
  /-- No binding form starts with it. -/
  noHead : Head.classify text = none

/-- The characters of an identifier are name characters. -/
theorem Ident.isNameChar (x : Ident) : ∀ c ∈ x.text.toList, isNameChar c = true := by
  intro c hc
  have := x.letters c hc
  simp [Core.isNameChar, this]

/-- The name as it is printed. -/
def Ident.word (x : Ident) : Word where
  chars := x.text.toList
  nonempty := by simpa using x.nonempty
  plain := isPlain_of_mem_name x.isNameChar

/-- The words that start the forms of the language. -/
inductive Keyword where
  /-- Variables, all at once. -/
  | letAll
  /-- Variables, one after the other. -/
  | letEach
  /-- A function without a name. -/
  | lambda
  /-- Local functions that do not see each other. -/
  | flet
  /-- Local functions that see each other. -/
  | labels
  /-- A loop over a list. -/
  | dolist
  /-- A global function. -/
  | defun
  /-- A global variable. -/
  | defvar

/-- The keyword of a form with variables. -/
def Keyword.variables (sequential : Bool) : Keyword := if sequential then letEach else letAll

/-- The keyword of a form with local functions. -/
def Keyword.functions (recursive : Bool) : Keyword := if recursive then labels else flet

namespace Keyword

/-- The keyword as it is written. -/
def text : Keyword → String
  | letAll => "let"
  | letEach => "let*"
  | lambda => "lambda"
  | flet => "flet"
  | labels => "labels"
  | dolist => "dolist"
  | defun => "defun"
  | defvar => "defvar"

/-- The characters of a keyword are name characters. -/
theorem isNameChar (k : Keyword) : ∀ c ∈ k.text.toList, isNameChar c = true := by
  rw [← List.all_eq_true]
  cases k <;> decide

/-- The keyword as it is printed. -/
def word (k : Keyword) : Word where
  chars := k.text.toList
  nonempty := by cases k <;> decide
  plain := isPlain_of_mem_name k.isNameChar

end Keyword

/-! ## Programs -/

mutual

/-- An expression. -/
inductive Expr where
  /-- A decimal number. -/
  | number (n : Nat)
  /-- A name. -/
  | name (x : Ident)
  /-- A call `(f e ...)`. -/
  | call (f : Ident) (args : Body)
  /-- Variables `(let ((x e) ...) e ...)`, with `let*` if they are bound one after the other. -/
  | variables (sequential : Bool) (specs : Specs) (body : Body)
  /-- A function `(lambda (x ...) e ...)`. -/
  | lambda (params : List Ident) (body : Body)
  /-- Local functions `(flet ((f (x ...) e ...) ...) e ...)`, with `labels` if they see each
  other. -/
  | functions (recursive : Bool) (defs : Defs) (body : Body)
  /-- A loop `(dolist (x e) e ...)`. -/
  | dolist (x : Ident) (values : Expr) (body : Body)

/-- Expressions one after the other. -/
inductive Body where
  /-- No expression. -/
  | nil
  /-- An expression before others. -/
  | cons (e : Expr) (rest : Body)

/-- Variables with their values, `(x e) ...`. -/
inductive Specs where
  /-- No variable. -/
  | nil
  /-- A variable before others. -/
  | cons (x : Ident) (value : Expr) (rest : Specs)

/-- Local functions, `(f (x ...) e ...) ...`. -/
inductive Defs where
  /-- No function. -/
  | nil
  /-- A function before others. -/
  | cons (f : Ident) (params : List Ident) (body : Body) (rest : Defs)

end

/-- A form of a program. -/
inductive Top where
  /-- A function `(defun f (x ...) e ...)`. -/
  | defun (f : Ident) (params : List Ident) (body : Body)
  /-- A variable `(defvar x e)`. -/
  | defvar (x : Ident) (value : Expr)
  /-- An expression. -/
  | expr (e : Expr)

/-- A program. -/
abbrev Program := List Top

/-! ## Printing -/

/-- Names one after the other. -/
def nameItems (xs : List Ident) : List Sexp := xs.map fun x => .word x.word

/-- A list that starts with a word and a list. -/
def form (head : Word) (list body : List Sexp) : Sexp := .list (.word head :: .list list :: body)

mutual

/-- An expression as it is printed. -/
def Expr.sexp : Expr → Sexp
  | .number n => .number n
  | .name x => .word x.word
  | .call f args => .list (.word f.word :: args.items)
  | .variables sequential specs body =>
    form (Keyword.variables sequential).word specs.items body.items
  | .lambda params body => form Keyword.lambda.word (nameItems params) body.items
  | .functions recursive defs body =>
    form (Keyword.functions recursive).word defs.items body.items
  | .dolist x values body => form Keyword.dolist.word [.word x.word, values.sexp] body.items

/-- Expressions as they are printed. -/
def Body.items : Body → List Sexp
  | .nil => []
  | .cons e rest => e.sexp :: rest.items

/-- Variables as they are printed. -/
def Specs.items : Specs → List Sexp
  | .nil => []
  | .cons x value rest => .list [.word x.word, value.sexp] :: rest.items

/-- Local functions as they are printed. -/
def Defs.items : Defs → List Sexp
  | .nil => []
  | .cons f params body rest => form f.word (nameItems params) body.items :: rest.items

end

/-- A form of a program as it is printed. -/
def Top.sexp : Top → Sexp
  | defun f params body =>
    .list (.word Keyword.defun.word :: .word f.word :: .list (nameItems params) :: body.items)
  | defvar x value => .list [.word Keyword.defvar.word, .word x.word, value.sexp]
  | expr e => e.sexp

/-- The text of a program. -/
def Program.text (p : Program) : String := Sexp.text (p.map Top.sexp)

/-! ## Meaning -/

/-- The names in force, innermost first. -/
abbrev Env := List NameSite

/-- What an occurrence of a name refers to. -/
structure Reference where
  /-- The occurrence. -/
  name : NameSite
  /-- Where the name is bound that it refers to. -/
  binder : Option Span
  deriving DecidableEq

/-- An occurrence that binds a name locally refers to itself. -/
def Reference.binding (n : NameSite) : Reference := ⟨n, some n.site⟩

/-- Where a name is bound that is in force. -/
def Env.lookup (ρ : Env) (name : String) : Option Span :=
  (ρ.find? (·.name == name)).map (·.site)

/-- An occurrence that uses a name refers to the innermost binder of the name. -/
def Env.use (ρ : Env) (n : NameSite) : Reference := ⟨n, ρ.lookup n.name⟩

/-- More names come into force, the last of them innermost. -/
def Env.extend (ρ : Env) (bound : List NameSite) : Env := bound.reverse ++ ρ

/-- Number of bytes of a name. -/
def Ident.size (x : Ident) : Nat := (Sexp.word x.word).size

/-- A name printed at `pos`. -/
def Ident.site (x : Ident) (pos : Nat) : NameSite := ⟨x.text, ⟨pos, pos + x.size⟩⟩

/-- Names printed one after the other, the first at `pos`. -/
def sites (pos : Nat) : List Ident → List NameSite
  | [] => []
  | x :: rest => x.site pos :: sites (pos + x.size + 1) rest

/-- Where the list of a form printed at `pos` stands. -/
def listAt (head : Word) (pos : Nat) : Nat := pos + 1 + (Sexp.word head).size + 1

/-- Where the body of a form printed at `pos` stands. -/
def bodyAt (head : Word) (list : List Sexp) (pos : Nat) : Nat :=
  listAt head pos + (Sexp.list list).size + 1

/-- The variables of a form, the first printed at `pos`. -/
def Specs.names (pos : Nat) : Specs → List NameSite
  | .nil => []
  | .cons x value rest =>
    x.site (pos + 1) :: rest.names (pos + (Sexp.list [.word x.word, value.sexp]).size + 1)

/-- The local functions of a form, the first printed at `pos`. -/
def Defs.names (pos : Nat) : Defs → List NameSite
  | .nil => []
  | .cons f params body rest =>
    f.site (pos + 1) ::
      rest.names (pos + (form f.word (nameItems params) body.items).size + 1)

mutual

/-- What the names of an expression printed at `pos` refer to. -/
def Expr.resolve (ρ : Env) (pos : Nat) : Expr → List Reference
  | .number _ => []
  | .name x => [ρ.use (x.site pos)]
  | .call f args => ρ.use (f.site (pos + 1)) :: args.resolve ρ (pos + 1 + f.size + 1)
  | .variables sequential specs body =>
    let head := (Keyword.variables sequential).word
    let bound := specs.names (listAt head pos + 1)
    specs.resolve sequential ρ (listAt head pos + 1) ++
      body.resolve (ρ.extend bound) (bodyAt head specs.items pos)
  | .lambda params body =>
    let head := Keyword.lambda.word
    let bound := sites (listAt head pos + 1) params
    bound.map .binding ++ body.resolve (ρ.extend bound) (bodyAt head (nameItems params) pos)
  | .functions recursive defs body =>
    let head := (Keyword.functions recursive).word
    let inner := ρ.extend (defs.names (listAt head pos + 1))
    defs.resolve (if recursive then inner else ρ) (listAt head pos + 1) ++
      body.resolve inner (bodyAt head defs.items pos)
  | .dolist x values body =>
    let head := Keyword.dolist.word
    let bound := x.site (listAt head pos + 1)
    -- The values are computed before the variable comes into force.
    .binding bound :: (values.resolve ρ (listAt head pos + 1 + x.size + 1) ++
      body.resolve (ρ.extend [bound]) (bodyAt head [.word x.word, values.sexp] pos))

/-- What the names of expressions printed at `pos` refer to. -/
def Body.resolve (ρ : Env) (pos : Nat) : Body → List Reference
  | .nil => []
  | .cons e rest => e.resolve ρ pos ++ rest.resolve ρ (pos + e.sexp.size + 1)

/-- What the names of variables printed at `pos`, and of their values, refer to. -/
def Specs.resolve (sequential : Bool) (ρ : Env) (pos : Nat) : Specs → List Reference
  | .nil => []
  | .cons x value rest =>
    let bound := x.site (pos + 1)
    .binding bound :: (value.resolve ρ (pos + 1 + x.size + 1) ++
      rest.resolve sequential (if sequential then ρ.extend [bound] else ρ)
        (pos + (Sexp.list [.word x.word, value.sexp]).size + 1))

/-- What the names of local functions printed at `pos` refer to. -/
def Defs.resolve (ρ : Env) (pos : Nat) : Defs → List Reference
  | .nil => []
  | .cons f params body rest =>
    let bound := sites (listAt f.word pos + 1) params
    .binding (f.site (pos + 1)) :: (bound.map .binding ++
      (body.resolve (ρ.extend bound) (bodyAt f.word (nameItems params) pos) ++
        rest.resolve ρ (pos + (form f.word (nameItems params) body.items).size + 1)))

end

/-- The name that a form printed at `pos` defines globally. -/
def Top.global? (pos : Nat) : Top → Option NameSite
  | defun f _ _ => some (f.site (listAt Keyword.defun.word pos))
  | defvar x _ => some (x.site (listAt Keyword.defvar.word pos))
  | expr _ => none

/-- What the names of a form printed at `pos` refer to. The name of a global definition refers, like
any use, to the definition that is in force. -/
def Top.resolve (ρ : Env) (pos : Nat) : Top → List Reference
  | defun f params body =>
    let name := listAt Keyword.defun.word pos
    let list := name + f.size + 1
    let bound := sites (list + 1) params
    ρ.use (f.site name) :: (bound.map .binding ++
      body.resolve (ρ.extend bound) (list + (Sexp.list (nameItems params)).size + 1))
  | defvar x value =>
    let name := listAt Keyword.defvar.word pos
    ρ.use (x.site name) :: value.resolve ρ (name + x.size + 1)
  | expr e => e.resolve ρ pos

/-- The forms of a program with the offsets at which they are printed. -/
def Program.place (pos : Nat) : Program → List (Nat × Top)
  | [] => []
  | t :: rest => (pos, t) :: Program.place (pos + t.sexp.size + 1) rest

/-- The global definitions of a program, in order. -/
def Program.globals (p : Program) : List NameSite :=
  (p.place 0).filterMap fun x => x.2.global? x.1

/-- What the names of a program refer to, in the order in which they are written. Everywhere in the
program the last global definition of a name is in force. -/
def Program.references (p : Program) : List Reference :=
  (p.place 0).flatMap fun x => x.2.resolve (Env.extend [] p.globals) x.1

end LexScope.Core
