import LexScope.Proofs.Core.Words

/-!
# Symbols of a program

The symbols of a printed program are its keywords and its names, in the order in which they are
written. Without the keywords they are the references of the program, whatever the environment.
-/

namespace LexScope.Core

open Utf8

/-- The symbol starts no binding form. -/
def isOrdinary (s : Symbol) : Bool := (Head.classify s.name).isNone

/-- The symbols among words that start no binding form. -/
def ordinarySymbols (words : List (Span × List UInt8)) : List Symbol :=
  (words.filterMap Symbol.ofWord).filter isOrdinary

/-- The symbol that a reference is. -/
def Reference.symbol (r : Reference) : Symbol := ⟨r.name.name, r.name.site⟩

private theorem ordinarySymbols_append (a b : List (Span × List UInt8)) :
    ordinarySymbols (a ++ b) = ordinarySymbols a ++ ordinarySymbols b := by
  rw [ordinarySymbols, List.filterMap_append, List.filter_append, ordinarySymbols, ordinarySymbols]

/-! ## Atoms -/

private theorem isSymbolText_name {text : String} (h : ∀ c ∈ text.toList, isNameChar c = true) :
    isSymbolText text = true := by
  have hchars : ∀ c ∈ text.toList, c ≠ ':' ∧ c ≠ '.' := fun c hc =>
    ⟨(ne_of_isNameChar (h c hc)).2.2.1, (ne_of_isNameChar (h c hc)).2.2.2.2⟩
  have hcolon : text.toList.head? ≠ some ':' := fun hhead =>
    (hchars ':' (List.mem_of_mem_head? hhead)).1 rfl
  have hdot : text ≠ "." := by
    rintro rfl
    exact (hchars '.' (by decide)).2 rfl
  simp [isSymbolText, hcolon, hdot, looksNumeric_name h]

private theorem ofWord_name {text : String} (h : ∀ c ∈ text.toList, isNameChar c = true)
    (s : Span) :
    Symbol.ofWord (s, encode text.toList) = some ⟨text, s⟩ := by
  rw [Symbol.ofWord]
  simp only [decode_encode, String.ofList_toList, isSymbolText_name h, lowerCase_name h,
    if_true]

private theorem ordinarySymbols_ident (x : Ident) (pos : Nat) :
    ordinarySymbols ((Sexp.word x.word).words pos) = [⟨x.text, ⟨pos, pos + x.size⟩⟩] := by
  have hofWord : Symbol.ofWord (⟨pos, pos + x.size⟩, encode x.text.toList) =
    some ⟨x.text, ⟨pos, pos + x.size⟩⟩ := ofWord_name x.isNameChar _
  have hwords : (Sexp.word x.word).words pos = [(⟨pos, pos + x.size⟩, encode x.text.toList)] := by
    rw [Sexp.words]
    rfl
  have hordinary : isOrdinary ⟨x.text, ⟨pos, pos + x.size⟩⟩ = true := by
    simp [isOrdinary, x.noHead]
  rw [hwords, ordinarySymbols, List.filterMap_cons, hofWord, List.filterMap_nil]
  exact List.filter_cons_of_pos hordinary

private theorem ordinarySymbols_keyword (k : Keyword) (pos : Nat) :
    ordinarySymbols ((Sexp.word k.word).words pos) = [] := by
  have hofWord (s : Span) : Symbol.ofWord (s, encode k.text.toList) = some ⟨k.text, s⟩ :=
    ofWord_name k.isNameChar s
  have hwords : (Sexp.word k.word).words pos =
      [(⟨pos, pos + (Sexp.word k.word).size⟩, encode k.text.toList)] := by
    rw [Sexp.words]
    rfl
  rw [hwords, ordinarySymbols, List.filterMap_cons, hofWord, List.filterMap_nil]
  exact List.filter_cons_of_neg (by simp [isOrdinary, k.classify])

private theorem ordinarySymbols_number (n pos : Nat) :
    ordinarySymbols ((Sexp.number n).words pos) = [] := by
  have hofWord (s : Span) : Symbol.ofWord (s, encode (Nat.toDigits 10 n)) = none := by
    simp [Symbol.ofWord, decode_encode, isSymbolText, looksNumeric_digits]
  rw [Sexp.words, ordinarySymbols, List.filterMap_cons, hofWord]
  rfl

private theorem ordinarySymbols_nameItems (xs : List Ident) (pos : Nat) :
    ordinarySymbols (Sexp.wordsFrom pos (nameItems xs)) =
      ((sites pos xs).map .binding).map Reference.symbol := by
  induction xs generalizing pos with
  | nil =>
    rw [nameItems, List.map_nil, Sexp.wordsFrom]
    rfl
  | cons x rest ih =>
    rw [nameItems, List.map_cons, Sexp.wordsFrom, ordinarySymbols_append, ordinarySymbols_ident,
      ← nameItems, ih]
    rfl

/-! ## Expressions -/

private theorem ordinarySymbols_form (head : Word) (list body : List Sexp) (pos : Nat) :
    ordinarySymbols ((form head list body).words pos) =
      ordinarySymbols ((Sexp.word head).words (pos + 1)) ++
        (ordinarySymbols (Sexp.wordsFrom (listAt head pos + 1) list) ++
          ordinarySymbols (Sexp.wordsFrom (bodyAt head list pos) body)) := by
  have hwords : (form head list body).words pos = (Sexp.word head).words (pos + 1) ++
      (Sexp.wordsFrom (listAt head pos + 1) list ++
        Sexp.wordsFrom (bodyAt head list pos) body) := by
    rw [form, Sexp.words.eq_3, Sexp.wordsFrom.eq_2, Sexp.wordsFrom.eq_2, Sexp.words.eq_3]
    rfl
  rw [hwords, ordinarySymbols_append, ordinarySymbols_append]

private theorem ordinarySymbols_entry (x : Ident) (value : Sexp) (pos : Nat) :
    ordinarySymbols (Sexp.wordsFrom pos [.word x.word, value]) =
      ⟨x.text, ⟨pos, pos + x.size⟩⟩ :: ordinarySymbols (value.words (pos + x.size + 1)) := by
  rw [Sexp.wordsFrom, ordinarySymbols_append, ordinarySymbols_ident, Sexp.wordsFrom, Sexp.wordsFrom,
    List.append_nil]
  rfl

mutual

/-- The symbols of an expression are its references. -/
theorem Expr.ordinarySymbols_words (ρ : Env) (pos : Nat) : ∀ e : Expr,
    ordinarySymbols (e.sexp.words pos) = (e.resolve ρ pos).map Reference.symbol
  | .number n => by
    rw [Expr.sexp, ordinarySymbols_number, Expr.resolve]
    rfl
  | .name x => by
    rw [Expr.sexp, ordinarySymbols_ident, Expr.resolve]
    rfl
  | .call f args => by
    rw [Expr.sexp, Sexp.words, Sexp.wordsFrom, ordinarySymbols_append, ordinarySymbols_ident,
      ← Ident.size, args.ordinarySymbols_words ρ, Expr.resolve]
    rfl
  | .variables sequential specs body => by
    rw [Expr.sexp, ordinarySymbols_form, ordinarySymbols_keyword, List.nil_append,
      Expr.resolve, List.map_append, specs.ordinarySymbols_words sequential ρ,
      body.ordinarySymbols_words]
  | .lambda params body => by
    rw [Expr.sexp, ordinarySymbols_form, ordinarySymbols_keyword, List.nil_append,
      Expr.resolve, List.map_append, ordinarySymbols_nameItems, body.ordinarySymbols_words]
  | .functions recursive defs body => by
    rw [Expr.sexp, ordinarySymbols_form, ordinarySymbols_keyword, List.nil_append,
      Expr.resolve, List.map_append, defs.ordinarySymbols_words, body.ordinarySymbols_words]
  | .dolist x values body => by
    rw [Expr.sexp, ordinarySymbols_form, ordinarySymbols_keyword, List.nil_append,
      Expr.resolve, List.map_cons, List.map_append, ordinarySymbols_entry,
      values.ordinarySymbols_words ρ, body.ordinarySymbols_words]
    rfl

/-- The symbols of expressions are their references. -/
theorem Body.ordinarySymbols_words (ρ : Env) (pos : Nat) : ∀ body : Body,
    ordinarySymbols (Sexp.wordsFrom pos body.items) = (body.resolve ρ pos).map Reference.symbol
  | .nil => by
    rw [Body.items, Sexp.wordsFrom]
    rfl
  | .cons e rest => by
    rw [Body.items, Sexp.wordsFrom, ordinarySymbols_append, e.ordinarySymbols_words ρ,
      rest.ordinarySymbols_words ρ, Body.resolve, List.map_append]

/-- The symbols of variables and their values are their references. -/
theorem Specs.ordinarySymbols_words (sequential : Bool) (ρ : Env) (pos : Nat) : ∀ specs : Specs,
    ordinarySymbols (Sexp.wordsFrom pos specs.items) =
      (specs.resolve sequential ρ pos).map Reference.symbol
  | .nil => by
    rw [Specs.items, Sexp.wordsFrom]
    rfl
  | .cons x value rest => by
    rw [Specs.items, Sexp.wordsFrom, ordinarySymbols_append, Sexp.words, ordinarySymbols_entry,
      value.ordinarySymbols_words ρ, rest.ordinarySymbols_words sequential, Specs.resolve,
      List.map_cons, List.map_append]
    rfl

/-- The symbols of local functions are their references. -/
theorem Defs.ordinarySymbols_words (ρ : Env) (pos : Nat) : ∀ defs : Defs,
    ordinarySymbols (Sexp.wordsFrom pos defs.items) = (defs.resolve ρ pos).map Reference.symbol
  | .nil => by
    rw [Defs.items, Sexp.wordsFrom]
    rfl
  | .cons f params body rest => by
    rw [Defs.items, Sexp.wordsFrom, ordinarySymbols_append, ordinarySymbols_form,
      ordinarySymbols_ident, ordinarySymbols_nameItems, body.ordinarySymbols_words,
      rest.ordinarySymbols_words, Defs.resolve, List.map_cons, List.map_append, List.map_append,
      List.append_assoc, List.append_assoc]
    rfl

end

/-! ## Programs -/

private theorem Top.ordinarySymbols_words (ρ : Env) (pos : Nat) (t : Top) :
    ordinarySymbols (t.sexp.words pos) = (t.resolve ρ pos).map Reference.symbol := by
  cases t with
  | defun f params body =>
    rw [Top.sexp, Sexp.words, Sexp.wordsFrom, ordinarySymbols_append, ordinarySymbols_keyword,
      List.nil_append, Sexp.wordsFrom, ordinarySymbols_append, ordinarySymbols_ident,
      Sexp.wordsFrom, Sexp.words, ordinarySymbols_append, ordinarySymbols_nameItems,
      body.ordinarySymbols_words, Top.resolve, List.map_cons, List.map_append]
    rfl
  | defvar x value =>
    rw [Top.sexp, Sexp.words, Sexp.wordsFrom, ordinarySymbols_append, ordinarySymbols_keyword,
      List.nil_append, ordinarySymbols_entry, value.ordinarySymbols_words ρ, Top.resolve,
      List.map_cons]
    rfl
  | expr e => exact e.ordinarySymbols_words ρ pos

/-- The ordinary symbols of a program are those its references stand for. -/
theorem Program.ordinarySymbols_words (ρ : Env) (pos : Nat) (p : Program) :
    ordinarySymbols (Sexp.wordsFrom pos (p.map Top.sexp)) =
      ((p.place pos).flatMap fun x => x.2.resolve ρ x.1).map Reference.symbol := by
  induction p generalizing pos with
  | nil =>
    rw [List.map_nil, Sexp.wordsFrom]
    rfl
  | cons t rest ih =>
    rw [List.map_cons, Sexp.wordsFrom, ordinarySymbols_append, t.ordinarySymbols_words ρ, ih,
      Program.place, List.flatMap_cons, List.map_append]

end LexScope.Core
