import LexScope.Error
import LexScope.Text.Blank

/-!
# Exclusion modes

An exclusion mode says which parts of a document are left out of an analysis. Three uses of a
document, collecting definitions, highlighting and looking up names, have a mode each.
-/

namespace LexScope

/-- Which parts of a document are left out. -/
inductive Mode where
  /-- Nothing is left out. -/
  | nothing
  /-- Comments and strings. -/
  | commentString
  /-- Comments, strings and quoted data. -/
  | commentStringQuote
  /-- Comments, strings and templates. -/
  | commentStringBackquote
  /-- Comments, strings, quoted data and templates. -/
  | commentStringQuoteBackquote
  /-- As before, but the evaluated parts of templates stay in. -/
  | commentStringQuoteBackquoteExceptComma
  deriving DecidableEq, Inhabited

namespace Mode

/-- The modes, from the most to the least inclusive reading. -/
def all : List Mode :=
  [nothing, commentString, commentStringQuote, commentStringBackquote,
    commentStringQuoteBackquote, commentStringQuoteBackquoteExceptComma]

/-- The name by which a user chooses the mode. -/
def name : Mode → String
  | nothing => "none"
  | commentString => "comment-string"
  | commentStringQuote => "comment-string-quote"
  | commentStringBackquote => "comment-string-backquote"
  | commentStringQuoteBackquote => "comment-string-quote-backquote"
  | commentStringQuoteBackquoteExceptComma => "comment-string-quote-backquote-except-comma"

/-- Comments and strings are left out. -/
def dropsComments (m : Mode) : Bool := m != nothing

/-- Quoted data are left out. -/
def dropsQuotes : Mode → Bool
  | commentStringQuote | commentStringQuoteBackquote | commentStringQuoteBackquoteExceptComma =>
    true
  | _ => false

/-- Templates are left out. -/
def dropsTemplates : Mode → Bool
  | commentStringBackquote | commentStringQuoteBackquote
  | commentStringQuoteBackquoteExceptComma => true
  | _ => false

/-- The evaluated parts of what is left out are put back. -/
def keepsCommas (m : Mode) : Bool := m == commentStringQuoteBackquoteExceptComma

/-- A name as it is compared: without blanks at its ends, `_` and spaces read as `-`, ASCII
capitals as small letters. -/
def normalize (given : String) : String :=
  String.ofList ((trimBlank given.toList).map fun c =>
    if c == '_' || c == ' ' then '-' else c.toLower)

/-- The mode of a name. -/
def parse (given : String) : Except Error Mode :=
  match all.find? fun m => m.name == normalize given with
  | some m => .ok m
  | none => .error (.unknownMode given)

/-- The mode of a name; an unknown name leaves nothing out. -/
def parseLossy (given : String) : Mode := (parse given).toOption.getD nothing

end Mode

/-- The modes of the three uses of a document. -/
structure Settings where
  /-- For collecting definitions and call forms. -/
  collection : Mode := .commentStringQuoteBackquoteExceptComma
  /-- For highlighting. -/
  highlight : Mode := .commentString
  /-- For definitions and references of the name under a cursor. -/
  lookup : Mode := .commentString
  deriving DecidableEq, Inhabited

/-- The same mode for every use. -/
def Settings.uniform (m : Mode) : Settings := ⟨m, m, m⟩

end LexScope
