import LexScope.Proofs.Binding.Lookup
import LexScope.Proofs.Form.Trees

/-!
# Words and heads of printed forms

A printed word is read as it is written, so the first word of a printed list says whether the list
is a binding form.
-/

namespace LexScope

/-- The word as a text. -/
def Word.text (w : Word) : String := String.ofList w.chars

variable {src : Source} {pos : Nat}

namespace Sexp

/-- A word is read as it is written. -/
theorem At.slice_word {w : Word} (h : At src pos (word w)) :
    src.slice ⟨pos, pos + (word w).size⟩ = w.text :=
  slice_of_standsAt h.printed.stands

/-- The text of a printed word is the word itself. -/
theorem At.textOf_word {w : Word} (h : At src pos (word w)) :
    src.textOf ((word w).element pos) = w.text := h.slice_word

/-- A word that can be bound is the name that it spells. -/
theorem At.nameAt_word {w : Word} (h : At src pos (word w))
    (hbindable : isBindable (lowerCase w.text) = true) :
    src.nameAt (src.node ((word w).element pos)) =
      some ⟨lowerCase w.text, ⟨pos, pos + (word w).size⟩⟩ := by
  have htext : src.textAt (src.node ((word w).element pos)) = w.text := h.textOf_word
  have hatom : (src.node ((word w).element pos)).element.isAtom = true := rfl
  have hquoted : (src.node ((word w).element pos)).quoted = false := rfl
  simp only [Source.nameAt, htext, hbindable, hatom, hquoted, Bool.not_false, Bool.and_self,
    if_true]
  rfl

end Sexp

namespace BindingForm

/-- A list that starts with a word is the form that the word says. -/
theorem at?_word {w : Word} {rest : List Sexp} (h : Sexp.At src pos (.list (.word w :: rest))) :
    at? src ((Sexp.list (.word w :: rest)).pairAt pos) =
      (Head.classify w.text).map fun head =>
        ⟨(Sexp.list (.word w :: rest)).pairAt pos, head⟩ := by
  have hword : Sexp.At src (pos + 1) (.word w) := h.inner (pos + 1, _) List.mem_cons_self
  have hatom : (((Sexp.word w).element (pos + 1)).isAtom &&
      !((Sexp.word w).element (pos + 1)).quoted) = true := rfl
  rw [at?, h.elements_pairAt, Sexp.place, List.map_cons]
  simp only [hatom, if_true, hword.textOf_word]

/-- A list that is empty or starts with a list is no binding form. -/
theorem at?_list {items : List Sexp} (h : Sexp.At src pos (.list items))
    (hitems : ∀ s ∈ items.head?, ∃ inner, s = .list inner) :
    at? src ((Sexp.list items).pairAt pos) = none := by
  rw [at?, h.elements_pairAt]
  cases items with
  | nil => rfl
  | cons s rest =>
    obtain ⟨inner, rfl⟩ := hitems s rfl
    rfl

end BindingForm

namespace Datum

/-- The word of an unmarked atom. -/
def bareText? : Datum → Option String
  | atom [] a => some (String.ofList a.chars)
  | _ => none

/-- The word that starts a list, if that is an unmarked atom. -/
def firstWord? : Datum → Option String
  | list _ _ (first :: _) => first.bareText?
  | _ => none

/-- The brackets of a datum printed at `pos` with the word that starts it, if it is a list that
starts with a word. -/
def headed? (pos : Nat) (d : Datum) : Option (Pair × String) :=
  (d.bracket? pos).bind fun p => d.firstWord?.map fun word => (p, word)

/-- What starts a printed form is said by its first item. -/
theorem PrintedAt.word?_eq {d : Datum} (h : PrintedAt src pos d) {p : Pair}
    (hp : d.bracket? pos = some p) : BindingForm.word? src p = d.firstWord? := by
  cases d with
  | atom | string => cases hp
  | list marks gaps items =>
    obtain rfl : ⟨pos + marks.length, (list marks gaps items).stopAt pos - 1⟩ = p := by
      simpa [bracket?] using hp
    rw [stopAt_eq, BindingForm.word?, h.elements]
    cases items with
    | nil => rfl
    | cons d rest =>
      have htext := h.items.cons.1.textAt
      rw [Source.textAt, element_node] at htext
      rw [elementsFrom, List.head?_cons, Option.filter_some]
      cases d with
      | atom marks' a =>
        cases marks' with
        | nil => exact congrArg some htext
        | cons => rfl
      | string | list => rfl

/-- The words that start the forms of a document are the first items of its lists. -/
theorem words_ofText (d : Datum) (excluded : SpanSet) :
    BindingForm.words (.ofText (String.ofList d.chars)) excluded =
      ((d.parts 0).filterMap fun x => x.2.headed? x.1).filter
        fun x => !excluded.contains x.1.opening := by
  have hprinted : ∀ x ∈ d.parts 0, PrintedAt (.ofText (String.ofList d.chars)) x.1 x.2 :=
    fun x hx => (printedAt_ofText d).of_mem_parts hx
  rw [BindingForm.words, pairs_ofText]
  generalize Source.ofText (String.ofList d.chars) = src at hprinted ⊢
  generalize d.parts 0 = parts at hprinted ⊢
  induction parts with
  | nil => rfl
  | cons x rest ih =>
    obtain ⟨hx, hrest⟩ := List.forall_mem_cons.1 hprinted
    rw [List.filterMap_cons, List.filterMap_cons, headed?]
    cases hp : x.2.bracket? x.1 with
    | none => exact ih hrest
    | some p =>
      have hword := hx.word?_eq hp
      cases hout : excluded.contains p.opening <;> cases hfirst : x.2.firstWord? <;>
        simp [hout, hword, hfirst, ih hrest]

end Datum

end LexScope
