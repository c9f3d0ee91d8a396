/-!
# Cutting and joining texts

A text is cut at every character of a class, which leaves one piece more than there are such
characters. Joining the pieces with the character at which they were cut gives the text back.
-/

namespace LexScope

/-- Cut a text at every separator. -/
def splitWhere (isSeparator : Char → Bool) : List Char → List (List Char)
  | [] => [[]]
  | c :: rest =>
    if isSeparator c then [] :: splitWhere isSeparator rest
    else
      match splitWhere isSeparator rest with
      | [] => [[c]]
      | first :: more => (c :: first) :: more

/-- Join texts with a separator between neighbours. -/
def joinWith (separator : Char) : List (List Char) → List Char
  | [] => []
  | [piece] => piece
  | piece :: next :: more => piece ++ separator :: joinWith separator (next :: more)

/-- There is always a piece. -/
theorem splitWhere_ne_nil (isSeparator : Char → Bool) (text : List Char) :
    splitWhere isSeparator text ≠ [] := by
  cases text with
  | nil => simp [splitWhere]
  | cons c rest =>
    rw [splitWhere]
    split
    · simp
    · split <;> simp

/-- Nothing is lost between the pieces but the separators. -/
theorem joinWith_splitWhere (separator : Char) (text : List Char) :
    joinWith separator (splitWhere (· == separator) text) = text := by
  induction text with
  | nil => rfl
  | cons c rest ih =>
    rw [splitWhere]
    match h : splitWhere (· == separator) rest with
    | [] => exact absurd h (splitWhere_ne_nil _ _)
    | first :: more =>
      rw [h] at ih
      by_cases hc : c = separator
      · subst hc
        simp [joinWith, ih]
      · simp only [beq_iff_eq, hc, if_false]
        cases more with
        | nil => simpa [joinWith] using ih
        | cons next more => simpa [joinWith] using ih

end LexScope
