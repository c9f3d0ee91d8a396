import LexScope.Document.Analysis

/-!
# Open documents

The server keeps the latest analysis of each open document. Events reach it through a queue, while
the version of a changed document is noted at once: an analysis of an older version that is still
going on gives up when it sees a newer one.
-/

namespace LexScope

/-- An open document. -/
structure OpenDocument where
  /-- The version that was analysed. -/
  version : Int
  /-- Its analysis. -/
  analysis : Analysis

/-- What happens to documents and settings. -/
inductive Event where
  /-- A document was opened or changed. -/
  | changed (uri : String) (version : Int) (text : String)
  /-- A document was closed. -/
  | closed (uri : String)
  /-- There are new settings. -/
  | configured (settings : Settings)

/-- The settings and the open documents. -/
structure Workspace where
  /-- The settings in force. -/
  settings : Settings := {}
  /-- The open documents by URI. -/
  documents : List (String × OpenDocument) := []

/-- Put a value under a key, in the place of an earlier one. -/
def putAt {α : Type} (key : String) (value : α) : List (String × α) → List (String × α)
  | [] => [(key, value)]
  | (k, v) :: rest => if k == key then (key, value) :: rest else (k, v) :: putAt key value rest

/-- The value under a key. -/
def valueAt {α : Type} (key : String) (entries : List (String × α)) : Option α :=
  (entries.find? (·.1 == key)).map (·.2)

/-- The entries without those of a key. -/
def dropAt {α : Type} (key : String) (entries : List (String × α)) : List (String × α) :=
  entries.filter (·.1 != key)

/-- An entry put at a key is found there, and the other keys find what they did. -/
theorem valueAt_putAt {α : Type} (key key' : String) (value : α) (entries : List (String × α)) :
    valueAt key' (putAt key value entries) =
      if key = key' then some value else valueAt key' entries := by
  induction entries with
  | nil => by_cases h : key = key' <;> simp [putAt, valueAt, h]
  | cons entry rest ih =>
    obtain ⟨k, v⟩ := entry
    simp only [valueAt] at ih ⊢
    by_cases hk : k = key
    · by_cases h : key = key' <;> simp [putAt, hk, h]
    · by_cases hk' : k = key'
      · have hne : key ≠ key' := fun h => hk (hk'.trans h.symm)
        simp [putAt, hk', hne, Ne.symm hne]
      · simp [putAt, hk, hk', ih]

/-- A key that is dropped finds nothing, and the other keys find what they did. -/
theorem valueAt_dropAt {α : Type} (key key' : String) (entries : List (String × α)) :
    valueAt key' (dropAt key entries) = if key = key' then none else valueAt key' entries := by
  unfold valueAt dropAt
  rw [List.find?_filter]
  by_cases h : key = key'
  · simp [h, List.find?_eq_none]
  · have hsame : (fun entry : String × α => decide ((entry.1 != key) = true ∧ (entry.1 == key') = true)) =
        fun entry => entry.1 == key' := by
      funext entry
      by_cases hentry : entry.1 = key'
      · simp [hentry, Ne.symm h]
      · simp [hentry]
    rw [hsame, if_neg h]

/-- Whether an analysis is out of date when it is asked for the k-th time; by URI and version. -/
abbrev Staleness := String → Int → Nat → Bool

namespace Workspace

/-- The open document of a URI. -/
def get? (w : Workspace) (uri : String) : Option OpenDocument := valueAt uri w.documents

/-- Analyse a version of a document and keep the result, unless it is out of date by then. -/
def update (w : Workspace) (stale : Staleness) (uri : String) (version : Int) (text : String) :
    Workspace :=
  match analyzeUnless (stale uri version) w.settings text with
  | .ok analysis => { w with documents := putAt uri ⟨version, analysis⟩ w.documents }
  | .error _ => w

/-- Analyse an open document again. -/
def reanalyze (stale : Staleness) (w : Workspace) (entry : String × OpenDocument) : Workspace :=
  w.update stale entry.1 entry.2.version entry.2.analysis.text

/-- Take over new settings and analyse the open documents again; nothing is done for settings that
are in force already. -/
def configure (w : Workspace) (stale : Staleness) (settings : Settings) : Workspace :=
  if settings = w.settings then w
  else w.documents.foldl (reanalyze stale) { w with settings := settings }

/-- Take in one event. -/
def handle (w : Workspace) (stale : Staleness) : Event → Workspace
  | .changed uri version text => w.update stale uri version text
  | .closed uri => { w with documents := dropAt uri w.documents }
  | .configured settings => w.configure stale settings

end Workspace

/-- The workspace with the events that wait for it. -/
structure Server where
  /-- Latest version received for each document. -/
  latest : List (String × Int) := []
  /-- Events that wait, oldest first. -/
  queue : List Event := []
  /-- The workspace. -/
  workspace : Workspace := {}

namespace Server

/-- A version is out of date when a higher one has been received. -/
def isStale (latest : List (String × Int)) (uri : String) (version : Int) : Bool :=
  (valueAt uri latest).any fun v => decide (version < v)

/-- Send an event. The version of a changed document is noted before the event is handled. -/
def post (s : Server) (e : Event) : Server :=
  let latest :=
    match e with
    | .changed uri version _ => putAt uri version s.latest
    | _ => s.latest
  { s with latest := latest, queue := s.queue ++ [e] }

/-- Handle one event, where `stale` answers whether an analysis is out of date; the noted version of
a closed document is forgotten. -/
def handleWhile (s : Server) (stale : Staleness) (e : Event) : Server :=
  let latest :=
    match e with
    | .closed uri => dropAt uri s.latest
    | _ => s.latest
  { s with latest := latest, workspace := s.workspace.handle stale e }

/-- Handle one event while no other is sent. -/
def handle (s : Server) (e : Event) : Server :=
  s.handleWhile (fun uri version _ => isStale s.latest uri version) e

/-- Handle all events that wait. -/
def drain (s : Server) : Server := { s.queue.foldl handle s with queue := [] }

/-- Ask about an open document. -/
def query {α : Type} (s : Server) (uri : String) (ask : Analysis → α) : Option α :=
  (s.workspace.get? uri).map fun doc => ask doc.analysis

end Server

end LexScope
