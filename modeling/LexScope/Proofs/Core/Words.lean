import LexScope.Proofs.Binding.Heads
import LexScope.Proofs.Core.Syntax

/-!
# Words of the core language

How the reader sees names, keywords and numbers: names and keywords are read as they are written,
a name can be bound, a keyword starts its binding form, and a number is no symbol.
-/

namespace LexScope.Core

open Byte Utf8

variable {chars : List Char}

/-! ## Characters -/

private theorem isMantissaChar_of_isNameChar {c : Char} (hc : isNameChar c = true) :
    isMantissaChar c = false := by
  simp only [isNameChar, Bool.or_eq_true, beq_iff_eq, Bool.and_eq_true, decide_eq_true_eq] at hc
  rcases hc with rfl | hc
  · decide
  · exact (ne_of_letter hc).1

/-- A name character is none of the characters that give a word another reading. -/
theorem ne_of_isNameChar {c : Char} (hc : isNameChar c = true) :
    c ≠ '+' ∧ c ≠ '-' ∧ c ≠ ':' ∧ c ≠ '&' ∧ c ≠ '.' := by
  simp only [isNameChar, Bool.or_eq_true, beq_iff_eq, Bool.and_eq_true, decide_eq_true_eq] at hc
  rcases hc with rfl | hc
  · decide
  · exact (ne_of_letter hc).2

/-! ## Texts -/

/-- A name is its own lower case. -/
theorem lowerCase_name {text : String} (h : ∀ c ∈ text.toList, isNameChar c = true) :
    lowerCase text = text :=
  lowerCase_small fun c hc => isSmallChar_of_isNameChar (h c hc)

/-- A name does not look like a number. -/
theorem looksNumeric_name {text : String} (h : ∀ c ∈ text.toList, isNameChar c = true) :
    looksNumeric text = false := by
  cases htext : text.toList with
  | nil =>
    rw [looksNumeric, htext]
    rfl
  | cons c rest =>
    have hc := h c (by simp [htext])
    obtain ⟨hplus, hminus, -⟩ := ne_of_isNameChar hc
    exact looksNumeric_of_head htext (isMantissaChar_of_isNameChar hc) hplus hminus

/-- A printed number looks like a number. -/
theorem looksNumeric_digits (n : Nat) :
    looksNumeric (String.ofList (Nat.toDigits 10 n)) = true := by
  have hdigits : ∀ c ∈ Nat.toDigits 10 n, c.isDigit = true := fun c =>
    Nat.isDigit_of_mem_toDigits (by decide) (by decide)
  have hne : Nat.toDigits 10 n ≠ [] := Nat.toDigits_ne_nil
  rw [looksNumeric, String.toList_ofList]
  generalize Nat.toDigits 10 n = chars at hdigits hne ⊢
  obtain ⟨c, rest, rfl⟩ := List.exists_cons_of_ne_nil hne
  have hc := hdigits c List.mem_cons_self
  have hsign : dropSign (c :: rest) = c :: rest := by
    unfold dropSign
    split <;> simp_all
  have hmantissa : ∀ d ∈ c :: rest, isMantissaChar d = true := by
    intro d hd
    simp [isMantissaChar, hdigits d hd]
  have htake : (c :: rest).takeWhile isMantissaChar = c :: rest := by
    rw [← List.append_nil (c :: rest), List.takeWhile_append_of_pos hmantissa]
    rfl
  have hdrop : (c :: rest).dropWhile isMantissaChar = [] := by
    rw [← List.append_nil (c :: rest), List.dropWhile_append_of_pos hmantissa]
    rfl
  rw [hsign, htake, hdrop, List.any_cons, hc]
  rfl

/-! ## Names and keywords in a document -/

variable {src : Source} {pos : Nat}

private theorem Ident.text_word (x : Ident) : x.word.text = x.text := String.ofList_toList

private theorem Keyword.text_word (k : Keyword) : k.word.text = k.text := String.ofList_toList

private theorem textOf_ident {x : Ident} (h : Sexp.At src pos (.word x.word)) :
    src.textOf ((Sexp.word x.word).element pos) = x.text :=
  h.textOf_word.trans x.text_word

private theorem Ident.exists_head (x : Ident) :
    ∃ c rest, x.text.toList = c :: rest ∧ 'a' ≤ c ∧ c ≤ 'z' := by
  obtain ⟨c, rest, htext⟩ := List.exists_cons_of_ne_nil x.word.nonempty
  have htext : x.text.toList = c :: rest := htext
  exact ⟨c, rest, htext, x.letters c (by simp [htext])⟩

private theorem Ident.head?_ne (x : Ident) : x.text.toList.head? ≠ some '&' := by
  obtain ⟨c, rest, htext, hc⟩ := x.exists_head
  rw [htext, List.head?_cons, ne_eq, Option.some.injEq]
  exact (ne_of_letter hc).2.2.2.2.1

/-- A name can be bound. -/
theorem Ident.isBindable (x : Ident) : isBindable x.text = true := by
  obtain ⟨c, rest, htext, hc⟩ := x.exists_head
  exact isBindable_of_letter htext hc x.noConstant

/-- An identifier is read as a name at its own site. -/
theorem nameAt_ident {x : Ident} (h : Sexp.At src pos (.word x.word)) :
    src.nameAt (src.node ((Sexp.word x.word).element pos)) = some (x.site pos) := by
  have hlower : lowerCase x.word.text = x.text := by
    rw [x.text_word, lowerCase_name x.isNameChar]
  have hbindable : LexScope.isBindable (lowerCase x.word.text) = true := by
    rw [hlower, x.isBindable]
  rw [h.nameAt_word hbindable, hlower]
  rfl

/-! ## Parameters -/

/-- Parameters as a lambda list yields them, the first printed at `pos`. -/
def parameterList (pos : Nat) : List Ident → List Parameter
  | [] => []
  | x :: rest =>
    ⟨x.text, ⟨pos, pos + x.size⟩, pos + x.size⟩ :: parameterList (pos + x.size + 1) rest

private theorem ofEntries_nameItems (xs : List Ident)
    (h : ∀ x ∈ Sexp.place pos (nameItems xs), Sexp.At src x.1 x.2) :
    LambdaList.ofEntries src false none .required
      ((Sexp.place pos (nameItems xs)).map fun x => src.node (x.2.element x.1)) =
        parameterList pos xs := by
  induction xs generalizing pos with
  | nil => rfl
  | cons x rest ih =>
    obtain ⟨hx, hrest⟩ := List.forall_mem_cons.1 h
    have htext : src.textAt (src.node ((Sexp.word x.word).element pos)) = x.text := textOf_ident hx
    have hquoted : (src.node ((Sexp.word x.word).element pos)).quoted = false := rfl
    have hmarker : LambdaList.partAfter src .required (src.node ((Sexp.word x.word).element pos)) =
        none := by
      simp [LambdaList.partAfter, htext, x.head?_ne]
    have hslice : src.slice ⟨pos, pos + x.size⟩ = x.text := textOf_ident hx
    have hentry : LambdaList.ofEntry src false .required (pos + x.size)
        (src.node ((Sexp.word x.word).element pos)) =
          [⟨x.text, ⟨pos, pos + x.size⟩, pos + x.size⟩] := by
      have hatom : ((Sexp.word x.word).element pos).kind = .atom := rfl
      have hspan : ((Sexp.word x.word).element pos).span = ⟨pos, pos + x.size⟩ := rfl
      rw [Source.node, LambdaList.ofEntry, hatom, hspan]
      simp only [LambdaList.parameterAt, hslice, lowerCase_name x.isNameChar, x.isBindable, if_true]
    have hstop : (src.node ((Sexp.word x.word).element pos)).stop = pos + x.size := rfl
    rw [nameItems, List.map_cons, Sexp.place, List.map_cons, LambdaList.ofEntries]
    simp only [hquoted, Bool.false_eq_true, if_false, hmarker, Option.getD_none, hstop, hentry]
    exact congrArg (List.cons _) (ih hrest)

/-- A list of identifiers is read as the parameters they name. -/
theorem parametersAt_nameItems {xs : List Ident} (h : Sexp.At src pos (.list (nameItems xs))) :
    src.parametersAt (src.node ((Sexp.list (nameItems xs)).element pos)) false =
      some (parameterList (pos + 1) xs) := by
  have hkind : (src.node ((Sexp.list (nameItems xs)).element pos)).element.kind =
      .group ((Sexp.list (nameItems xs)).pairAt pos) := rfl
  have hquoted : (src.node ((Sexp.list (nameItems xs)).element pos)).quoted = false := rfl
  rw [Source.parametersAt, hkind]
  simp only [hquoted, Bool.false_eq_true, if_false]
  rw [h.items_node, ofEntries_nameItems xs h.inner]

/-! ## Heads of forms -/

/-- How the form of a keyword binds. -/
def Keyword.head : Keyword → Head
  | letAll => .letLike false .localVariable
  | letEach => .letLike true .localVariable
  | lambda => .lambda
  | flet => .localFunctions .flet
  | labels => .localFunctions .labels
  | dolist => .singleVariable true .localVariable
  | defun => .global .function
  | defvar => .global .specialVariable

/-- A keyword is classified as the head it stands for. -/
theorem Keyword.classify (k : Keyword) : Head.classify k.text = some k.head := by
  cases k <;> rfl

/-- A list that starts with a keyword is a binding form. -/
theorem at?_keyword {k : Keyword} {rest : List Sexp}
    (h : Sexp.At src pos (.list (.word k.word :: rest))) :
    BindingForm.at? src ((Sexp.list (.word k.word :: rest)).pairAt pos) =
      some ⟨(Sexp.list (.word k.word :: rest)).pairAt pos, k.head⟩ := by
  rw [BindingForm.at?_word h, k.text_word, k.classify, Option.map_some]

/-- A list that starts with a name is no binding form. -/
theorem at?_ident {x : Ident} {rest : List Sexp}
    (h : Sexp.At src pos (.list (.word x.word :: rest))) :
    BindingForm.at? src ((Sexp.list (.word x.word :: rest)).pairAt pos) = none := by
  rw [BindingForm.at?_word h, x.text_word, x.noHead, Option.map_none]

/-- A list of identifiers is no binding form. -/
theorem at?_nameItems {xs : List Ident} (h : Sexp.At src pos (.list (nameItems xs))) :
    BindingForm.at? src ((Sexp.list (nameItems xs)).pairAt pos) = none := by
  cases xs with
  | nil => exact BindingForm.at?_list h (by simp [nameItems])
  | cons x rest => exact at?_ident h

end LexScope.Core
