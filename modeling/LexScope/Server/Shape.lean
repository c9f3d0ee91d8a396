import LexScope.Json
import LexScope.Uri.Reader

/-!
# Shapes of JSON values

Parameters of an editor are only taken if all of them are well formed, also those that nothing
depends on. A shape says which values are well formed. Values are optional here: what a record does
not mention is given as `none`, and the shape of the field tells whether that is allowed.

A record is an object, in which unknown members are ignored, or an array of the fields in order.
-/

namespace LexScope

/-- Which values are well formed. -/
inductive Shape where
  /-- Any value. -/
  | any
  /-- A truth value. -/
  | bool
  /-- A string. -/
  | string
  /-- A number. -/
  | number
  /-- A whole number of 32 bits with sign. -/
  | int32
  /-- A whole number of 32 bits without sign. -/
  | uint32
  /-- A URI. -/
  | uri
  /-- One of some words. -/
  | word (words : List String)
  /-- A value that may be absent or `null`. -/
  | maybe (shape : Shape)
  /-- A value that may be absent, also at the end of an array of fields. -/
  | defaulted (shape : Shape)
  /-- An array of values. -/
  | list (shape : Shape)
  /-- An array of two values. -/
  | pair (shape : Shape)
  /-- An object with members of any names, which have to be URIs if `byUri` says so. -/
  | dict (byUri : Bool) (shape : Shape)
  /-- A record that is written as an object or as an array. -/
  | record (fields : List (String × Shape))
  /-- A record that is written as an object only. -/
  | members (fields : List (String × Shape))
  /-- An object with some members, whose other members have one shape. -/
  | openMembers (fields : List (String × Shape)) (others : Shape)
  /-- One of two shapes. -/
  | either (first second : Shape)

namespace Shape

/-- The value is one of some words; a word may also be the one member of an object, with `null`
under it. -/
def isWord (words : List String) : Json → Bool
  | .string s => words.contains s
  | .object [(name, value)] => words.contains name && value.isNull
  | _ => false

/-- A field of this shape may be missing at the end of an array. -/
def isDefaulted : Shape → Bool
  | defaulted _ => true
  | _ => false

/-- The string is a URI. -/
def isUri (s : String) : Bool := (Uri.normalize? s).isSome

mutual

/-- A value, which may be absent, is well formed. -/
def accepts : Shape → Option Json → Bool
  | maybe shape, j => j.all fun value => value.isNull || accepts shape (some value)
  | defaulted shape, j => j.all fun value => accepts shape (some value)
  | _, none => false
  | any, some _ => true
  | bool, some j => j.bool?.isSome
  | string, some j => j.string?.isSome
  | number, some j =>
    match j with
    | .number _ _ => true
    | _ => false
  | int32, some j => j.signed32?.isSome
  | uint32, some j => j.unsigned32?.isSome
  | uri, some j => j.string?.any isUri
  | word words, some j => isWord words j
  | list shape, some j => j.array?.any (·.all fun value => accepts shape (some value))
  | pair shape, some j =>
    j.array?.any fun values =>
      values.length == 2 && values.all fun value => accepts shape (some value)
  | dict byUri shape, some j =>
    match j with
    | .object given =>
      given.all fun (name, value) => (!byUri || isUri name) && accepts shape (some value)
    | _ => false
  | record fields, some j =>
    match j with
    | .object given => acceptsMembers fields given
    | .array elements => acceptsElements fields elements
    | _ => false
  | members fields, some j =>
    match j with
    | .object given => acceptsMembers fields given
    | _ => false
  | openMembers fields others, some j =>
    match j with
    | .object given =>
      acceptsMembers fields given && given.all fun (name, value) =>
        (fields.map (·.1)).contains name || accepts others (some value)
    | _ => false
  | either first second, j => accepts first j || accepts second j

/-- The fields of a record are well formed members of an object. -/
def acceptsMembers : List (String × Shape) → List (String × Json) → Bool
  | [], _ => true
  | (name, shape) :: rest, given =>
    accepts shape (Json.member? name (.object given)) && acceptsMembers rest given

/-- The fields of a record are well formed elements of an array, in order and without a surplus. -/
def acceptsElements : List (String × Shape) → List Json → Bool
  | [], elements => elements.isEmpty
  | (_, shape) :: rest, [] => shape.isDefaulted && acceptsElements rest []
  | (_, shape) :: rest, j :: elements =>
    accepts shape (some j) && acceptsElements rest elements

end

end Shape

end LexScope
