import LexScope.Span.Basic

/-!
# Errors

The ways in which a request can be at fault, their wording, and the hint that goes with it.
-/

namespace LexScope

/-- What was wrong with a request. -/
inductive Error where
  /-- The name is not that of an exclusion mode. -/
  | unknownMode (name : String)
  /-- The document has no such line. -/
  | positionOutside (line character : Nat)
  /-- The two ends of a span are in the wrong order. -/
  | invertedSpan (start stop : Nat)
  deriving DecidableEq

namespace Error

/-- The error in words. -/
def message : Error → String
  | unknownMode name => s!"unknown exclusion mode `{name}`"
  | positionOutside line character => s!"position {line}:{character} is outside the document"
  | invertedSpan start stop => s!"inverted range {start}..{stop}"

/-- What to write instead, where that can be said. -/
def hint : Error → Option String
  | unknownMode _ => some ("expected one of: none, comment-string, comment-string-quote, " ++
      "comment-string-backquote, comment-string-quote-backquote, " ++
      "comment-string-quote-backquote-except-comma")
  | _ => none

end Error

/-- The span between two given ends, which must be in order. -/
def Span.between (start stop : Nat) : Except Error Span :=
  if start ≤ stop then .ok ⟨start, stop⟩ else .error (.invertedSpan start stop)

end LexScope
