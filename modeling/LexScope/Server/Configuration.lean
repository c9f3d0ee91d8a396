import LexScope.Json
import LexScope.Mode

/-!
# Settings from an editor

Settings are an object with a mode name for each use, or an array of mode names in a fixed order.
They may be nested once under the name of the tool. A missing entry keeps its default and an unknown
mode name leaves nothing out, but anything that is no mode name makes all of it the default.
-/

namespace LexScope.Settings

/-- The names of the entries in their order. -/
def entryNames : List String := ["staticAnalysis", "highlight", "lookup"]

/-- The member under which an editor may nest the settings. -/
def sectionName : String := "clscope"

/-- The mode of an entry: absent, a name, or something else. -/
def mode? (default : Mode) : Option Json → Option Mode
  | none => some default
  | some j => j.string?.map Mode.parseLossy

/-- Settings of three entries. -/
def ofEntries? (collection highlight lookup : Option Json) : Option Settings :=
  let standard : Settings := {}
  match mode? standard.collection collection, mode? standard.highlight highlight,
      mode? standard.lookup lookup with
  | some c, some h, some l => some ⟨c, h, l⟩
  | _, _, _ => none

/-- The settings in a value, if it has their form. -/
def read? : Json → Option Settings
  | .object members =>
    let entry (name : String) := (Json.object members).member? name
    ofEntries? (entry "staticAnalysis") (entry "highlight") (entry "lookup")
  | .array elements =>
    if elements.length ≤ entryNames.length then
      ofEntries? elements[0]? elements[1]? elements[2]?
    else none
  | _ => none

/-- The settings that an editor has sent. -/
def ofJson (value : Option Json) : Settings :=
  match value with
  | none => {}
  | some j => (read? ((j.member? sectionName).getD j)).getD {}

end LexScope.Settings
