/-!
# JSON values

Settings and the messages of an editor are JSON. Reading a typed value out of one either succeeds or
fails as a whole, so readers return an `Option`.

A record is written as an object, or as an array of its fields in order; `Json.record?` takes both.
-/

namespace LexScope

/-- A JSON value. A number is `mantissa · 10 ^ (-decimals)`. -/
inductive Json where
  /-- `null` -/
  | null
  /-- `true` and `false` -/
  | bool (b : Bool)
  /-- A number; whole numbers have no decimals. -/
  | number (mantissa : Int) (decimals : Nat)
  /-- A string. -/
  | string (s : String)
  /-- An array. -/
  | array (elements : List Json)
  /-- An object with its members in order. -/
  | object (members : List (String × Json))
  deriving Inhabited

namespace Json

/-- A whole number. -/
def ofNat (n : Nat) : Json := number n 0

/-- An object without the members that have no value. -/
def ofMembers (members : List (String × Option Json)) : Json :=
  object (members.filterMap fun (name, value) => value.map fun v => (name, v))

/-- A value or `null`. -/
def orNull (value : Option Json) : Json := value.getD null

/-- The value is `null`. -/
def isNull : Json → Bool
  | null => true
  | _ => false

/-- A member of an object. -/
def member? (name : String) : Json → Option Json
  | object members => (members.find? (·.1 == name)).map (·.2)
  | _ => none

/-- The contents of a string. -/
def string? : Json → Option String
  | string s => some s
  | _ => none

/-- The value of a truth value. -/
def bool? : Json → Option Bool
  | bool b => some b
  | _ => none

/-- The elements of an array. -/
def array? : Json → Option (List Json)
  | array elements => some elements
  | _ => none

/-- A whole number between two bounds. -/
def int? (low high : Int) : Json → Option Int
  | number n 0 => if low ≤ n ∧ n ≤ high then some n else none
  | _ => none

/-- A whole number of 32 bits without sign. -/
def unsigned32? (j : Json) : Option Nat := (j.int? 0 4294967295).map Int.toNat

/-- A whole number of 32 bits with sign. -/
def signed32? (j : Json) : Option Int := j.int? (-2147483648) 2147483647

/-- The fields of a record by name. Only an array needs a value for every field. -/
def record? (fields : List String) : Json → Option (String → Option Json)
  | object members => some fun name => (object members).member? name
  | array elements =>
    if elements.length = fields.length then
      some fun name => ((fields.zip elements).find? (·.1 == name)).map (·.2)
    else none
  | _ => none

/-- A value that may be absent or `null`; if it is there it has to be readable. -/
def optional? {α : Type} (read : Json → Option α) : Option Json → Option (Option α)
  | none => some none
  | some j => if j.isNull then some none else (read j).map some

end Json

end LexScope
