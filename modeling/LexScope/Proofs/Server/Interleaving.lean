import LexScope.Server.Workspace

/-!
# Events that arrive while others are handled

Handlers send events at any time, and one worker handles them in the order in which they were sent.
While the worker analyses, further events may arrive, and each check for cancellation reads the
noted versions as they are at some moment in between. This file follows the two parties as a step
relation and shows that no update is lost: once the worker has nothing left to do, every document is
the one that was sent last, analysed under the settings that were sent last.
-/

namespace LexScope

/-! ## The log of events -/

namespace Event

/-- The event opens, changes or closes the document. -/
def concerns (uri : String) : Event → Bool
  | changed u _ _ => u == uri
  | closed u => u == uri
  | configured _ => false

/-- The settings that the event brings. -/
def settings? : Event → Option Settings
  | configured settings => some settings
  | _ => none

end Event

/-- The last event of a log that concerns a document. -/
def lastFor (uri : String) (log : List Event) : Option Event :=
  (log.filter (Event.concerns uri)).getLast?

/-- The settings that were sent last, or the default ones. -/
def settingsIn (log : List Event) : Settings := (log.filterMap Event.settings?).getLast?.getD {}

/-- What is kept of a document after the last event that concerns it. -/
def documentAfter (settings : Settings) : Option Event → Option OpenDocument
  | some (.changed _ version text) => some ⟨version, analyze settings text⟩
  | _ => none

private theorem lastFor_append_singleton (uri : String) (log : List Event) (e : Event) :
    lastFor uri (log ++ [e]) = if e.concerns uri then some e else lastFor uri log := by
  unfold lastFor
  by_cases h : e.concerns uri = true <;> simp [h]

/-- Events that do not concern a document do not count for it. -/
theorem lastFor_append_of_forall_not {uri : String} {log rest : List Event}
    (hrest : ∀ e ∈ rest, e.concerns uri = false) : lastFor uri (log ++ rest) = lastFor uri log := by
  have hnone : rest.filter (Event.concerns uri) = [] := by
    simpa [List.filter_eq_nil_iff] using hrest
  simp [lastFor, hnone]

private theorem settingsIn_append_singleton (log : List Event) (e : Event) :
    settingsIn (log ++ [e]) = e.settings?.getD (settingsIn log) := by
  cases e <;> simp [settingsIn, Event.settings?, List.filterMap_append]

/-! ## What handling an event does to a document -/

private theorem mem_of_valueAt {α : Type} {key : String} {value : α} {entries : List (String × α)}
    (h : valueAt key entries = some value) : (key, value) ∈ entries := by
  obtain ⟨⟨k, v⟩, hfind, rfl⟩ := Option.map_eq_some_iff.1 h
  have hkey := List.find?_some hfind
  simp only [beq_iff_eq] at hkey
  subst hkey
  exact List.mem_of_find?_eq_some hfind

private theorem not_mem_keys_of_valueAt {α : Type} {key : String} {entries : List (String × α)}
    (h : valueAt key entries = none) : key ∉ entries.map (·.1) := by
  simp only [valueAt, Option.map_eq_none_iff, List.find?_eq_none, beq_iff_eq] at h
  simp only [List.mem_map, not_exists, not_and]
  exact h

private theorem mem_keys_putAt {α : Type} {key key' : String} {value : α}
    {entries : List (String × α)} :
    key' ∈ (putAt key value entries).map (·.1) ↔ key' = key ∨ key' ∈ entries.map (·.1) := by
  induction entries with
  | nil => simp [putAt]
  | cons entry rest ih =>
    obtain ⟨k, v⟩ := entry
    by_cases hk : k = key
    · simp [putAt, hk]
    · simp only [putAt, beq_iff_eq, hk, if_false, List.map_cons, List.mem_cons, ih]
      exact or_left_comm

private theorem nodup_keys_putAt {α : Type} {key : String} {value : α} {entries : List (String × α)}
    (h : (entries.map (·.1)).Nodup) : ((putAt key value entries).map (·.1)).Nodup := by
  induction entries with
  | nil => simp [putAt]
  | cons entry rest ih =>
    obtain ⟨k, v⟩ := entry
    simp only [List.map_cons, List.nodup_cons] at h
    by_cases hk : k = key
    · subst hk
      simpa [putAt] using h
    · simp only [putAt, beq_iff_eq, hk, if_false, List.map_cons, List.nodup_cons]
      refine ⟨?_, ih h.2⟩
      rw [mem_keys_putAt, not_or]
      exact ⟨hk, h.1⟩

namespace Workspace

/-- Each document is kept once. -/
def Distinct (w : Workspace) : Prop := (w.documents.map (·.1)).Nodup

/-- Taking up a new text keeps the settings. -/
@[simp] theorem settings_update (w : Workspace) (stale : Staleness) (uri : String) (version : Int)
    (text : String) : (w.update stale uri version text).settings = w.settings := by
  unfold update
  split <;> rfl

private theorem Distinct.update {w : Workspace} (hw : w.Distinct) (stale : Staleness) (uri : String)
    (version : Int) (text : String) : (w.update stale uri version text).Distinct := by
  unfold Workspace.update
  split
  · exact nodup_keys_putAt hw
  · exact hw

/-- An update leaves the other documents alone. -/
theorem get?_update_of_ne (w : Workspace) (stale : Staleness) {uri uri' : String} (version : Int)
    (text : String) (hne : uri ≠ uri') :
    (w.update stale uri version text).get? uri' = w.get? uri' := by
  unfold update get?
  split
  · simp [valueAt_putAt, hne]
  · rfl

/-- An update that is never out of date is kept. -/
theorem get?_update_self (w : Workspace) {stale : Staleness} {uri : String} {version : Int}
    (text : String) (hfresh : ∀ check, stale uri version check = false) :
    (w.update stale uri version text).get? uri = some ⟨version, analyze w.settings text⟩ := by
  have hnever : stale uri version = fun _ => false := funext hfresh
  simp [update, get?, hnever, analyzeUnless_never, valueAt_putAt]

/-- Analysing other documents again leaves a document alone. -/
theorem get?_foldl_reanalyze_of_not_mem (stale : Staleness) {uri : String}
    (entries : List (String × OpenDocument)) (w : Workspace) (huri : uri ∉ entries.map (·.1)) :
    (entries.foldl (reanalyze stale) w).get? uri = w.get? uri := by
  induction entries generalizing w with
  | nil => rfl
  | cons entry rest ih =>
    simp only [List.map_cons, List.mem_cons, not_or] at huri
    rw [List.foldl_cons, ih _ huri.2]
    exact get?_update_of_ne w stale _ _ (Ne.symm huri.1)

/-- Analysing the open texts again keeps the settings. -/
@[simp] theorem settings_foldl_reanalyze (stale : Staleness)
    (entries : List (String × OpenDocument)) (w : Workspace) :
    (entries.foldl (reanalyze stale) w).settings = w.settings := by
  induction entries generalizing w with
  | nil => rfl
  | cons entry rest ih => rw [List.foldl_cons, ih, reanalyze, settings_update]

private theorem Distinct.foldl_reanalyze {w : Workspace} (hw : w.Distinct) (stale : Staleness)
    (entries : List (String × OpenDocument)) : (entries.foldl (reanalyze stale) w).Distinct := by
  induction entries generalizing w with
  | nil => exact hw
  | cons entry rest ih => exact ih (hw.update stale _ _ _)

/-- A document that is never out of date is analysed again under the settings in force. -/
theorem get?_foldl_reanalyze_of_mem {stale : Staleness} {uri : String} {doc : OpenDocument}
    (entries : List (String × OpenDocument)) (w : Workspace) (hnodup : (entries.map (·.1)).Nodup)
    (hmem : (uri, doc) ∈ entries) (hfresh : ∀ check, stale uri doc.version check = false) :
    (entries.foldl (reanalyze stale) w).get? uri =
      some ⟨doc.version, analyze w.settings doc.analysis.text⟩ := by
  induction entries generalizing w with
  | nil => cases hmem
  | cons entry rest ih =>
    rw [List.map_cons, List.nodup_cons] at hnodup
    rw [List.foldl_cons]
    rcases List.mem_cons.1 hmem with rfl | hrest
    · rw [get?_foldl_reanalyze_of_not_mem stale rest _ hnodup.1]
      exact get?_update_self w _ hfresh
    · rw [ih _ hnodup.2 hrest, reanalyze, settings_update]

/-- An event sets the settings it carries and no other. -/
@[simp] theorem settings_handle (w : Workspace) (stale : Staleness) (e : Event) :
    (w.handle stale e).settings = e.settings?.getD w.settings := by
  cases e with
  | changed uri version text => exact settings_update w stale uri version text
  | closed uri => rfl
  | configured settings =>
    simp only [handle, configure, Event.settings?, Option.getD_some]
    split
    · next hsame => exact hsame.symm
    · exact settings_foldl_reanalyze stale _ _

private theorem Distinct.handle {w : Workspace} (hw : w.Distinct) (stale : Staleness) (e : Event) :
    (w.handle stale e).Distinct := by
  cases e with
  | changed uri version text => exact hw.update stale uri version text
  | closed uri => exact hw.sublist (List.filter_sublist.map _)
  | configured settings =>
    simp only [Workspace.handle, configure]
    split
    · exact hw
    · exact Distinct.foldl_reanalyze (w := { w with settings := settings }) hw stale _

/-- The document that is kept is the one of its last event, under the settings in force. -/
def Keeps (w : Workspace) (uri : String) (last : Option Event) : Prop :=
  w.get? uri = documentAfter w.settings last

/-- An analysis for the event is never out of date. -/
def Fresh (stale : Staleness) (uri : String) (last : Option Event) : Prop :=
  ∀ u version text, last = some (.changed u version text) →
    ∀ check, stale uri version check = false

/-- New settings bring every document up to date that is not about to change. -/
theorem Keeps.configure {w : Workspace} {stale : Staleness} {uri : String} {last : Option Event}
    (hw : w.Distinct) (hkeeps : w.Keeps uri last) (hfresh : Fresh stale uri last)
    (settings : Settings) : (w.configure stale settings).Keeps uri last := by
  unfold Workspace.configure
  split
  · exact hkeeps
  · unfold Keeps at hkeeps ⊢
    rw [settings_foldl_reanalyze]
    match last with
    | some (.changed u version text) =>
      have hmem := mem_of_valueAt hkeeps
      rw [get?_foldl_reanalyze_of_mem w.documents _ hw hmem (hfresh u version text rfl)]
      simp [documentAfter, analyze_eq]
    | some (.closed _) | some (.configured _) | none =>
      rw [get?_foldl_reanalyze_of_not_mem stale _ _ (not_mem_keys_of_valueAt hkeeps)]
      exact hkeeps

/-- Handling an event leaves a document as it is that the event does not concern. -/
theorem Keeps.handle_of_not_concerns {w : Workspace} {stale : Staleness} {uri : String}
    {last : Option Event} (hw : w.Distinct) (hkeeps : w.Keeps uri last)
    (hfresh : Fresh stale uri last) {e : Event} (he : e.concerns uri = false) :
    (w.handle stale e).Keeps uri last := by
  cases e with
  | changed u version text =>
    simp only [Event.concerns, beq_eq_false_iff_ne] at he
    unfold Keeps at hkeeps ⊢
    rw [Workspace.handle, get?_update_of_ne w stale version text he, settings_update]
    exact hkeeps
  | closed u =>
    simp only [Event.concerns, beq_eq_false_iff_ne] at he
    unfold Keeps at hkeeps ⊢
    rw [Workspace.handle, get?, valueAt_dropAt, if_neg he]
    exact hkeeps
  | configured settings => exact hkeeps.configure hw hfresh settings

/-- Handling an event brings the document up to date that the event concerns. -/
theorem keeps_handle_of_concerns (w : Workspace) {stale : Staleness} {uri : String} {e : Event}
    (hfresh : Fresh stale uri (some e)) (he : e.concerns uri = true) :
    (w.handle stale e).Keeps uri (some e) := by
  cases e with
  | changed u version text =>
    simp only [Event.concerns, beq_iff_eq] at he
    subst he
    unfold Keeps
    rw [Workspace.handle, get?_update_self w text (hfresh u version text rfl), settings_update]
    rfl
  | closed u =>
    simp only [Event.concerns, beq_iff_eq] at he
    simp [Keeps, Workspace.handle, get?, valueAt_dropAt, he, documentAfter]
  | configured settings => cases he

end Workspace

namespace Interleaving

/-- An event that is being handled. -/
structure Job where
  /-- The event. -/
  event : Event
  /-- The noted versions at every moment since the event was taken from the queue. -/
  seen : List (List (String × Int))

/-- Handlers and worker together. -/
structure State where
  /-- Noted versions, waiting events and the workspace. -/
  server : Server := {}
  /-- What the worker is doing; nothing when it is idle. -/
  job : Option Job := none
  /-- Every event that was sent, oldest first. -/
  sent : List Event := []

namespace State

/-- The events that are not handled yet: the one at work, then those that wait. -/
def pending (s : State) : List Event := s.job.toList.map (·.event) ++ s.server.queue

/-- The worker sees what a handler has noted. -/
def notice (latest : List (String × Int)) (job : Job) : Job :=
  { job with seen := latest :: job.seen }

/-- A handler sends an event. -/
def send (s : State) (e : Event) : State where
  server := s.server.post e
  job := s.job.map (notice (s.server.post e).latest)
  sent := s.sent ++ [e]

/-- The worker takes the oldest event from the queue. -/
def take (s : State) (e : Event) (rest : List Event) : State :=
  { s with server := { s.server with queue := rest }, job := some ⟨e, [s.server.latest]⟩ }

/-- The worker is done with an event. -/
def finish (s : State) (stale : Staleness) (e : Event) : State :=
  { s with server := s.server.handleWhile stale e, job := none }

end State

/-- The answer to every check was read off the versions noted at some moment of the job. Different
checks may read at different moments. -/
def Job.Answers (job : Job) (stale : Staleness) : Prop :=
  ∀ uri version check, ∃ latest ∈ job.seen,
    stale uri version check = Server.isStale latest uri version

/-- One step of a handler or of the worker. -/
inductive Step : State → State → Prop
  | send (s : State) (e : Event) : Step s (s.send e)
  | take {s : State} {e : Event} {rest : List Event} (hidle : s.job = none)
      (hqueue : s.server.queue = e :: rest) : Step s (s.take e rest)
  | finish {s : State} {job : Job} {stale : Staleness} (hjob : s.job = some job)
      (hstale : job.Answers stale) : Step s (s.finish stale job.event)

/-- The states of all runs, in any order of steps. -/
inductive Reachable : State → Prop
  | start : Reachable {}
  | step {s t : State} (hs : Reachable s) (hstep : Step s t) : Reachable t

/-! ## The invariant -/

/-- The version noted for a document is the one that was sent last, unless the document has been
closed since. Nothing is said while the last event of the document is its closing. -/
def Noted (uri : String) (log : List Event) (latest : List (String × Int)) : Prop :=
  ∀ u version text, lastFor uri log = some (.changed u version text) →
    ∀ noted, valueAt uri latest = some noted → noted = version

/-- A version that is still the noted one is not out of date. -/
theorem Noted.isStale_eq_false {uri u text : String} {log : List Event}
    {latest : List (String × Int)} {version : Int} (hnoted : Noted uri log latest)
    (hlast : lastFor uri log = some (.changed u version text)) :
    Server.isStale latest uri version = false := by
  unfold Server.isStale
  cases hvalue : valueAt uri latest with
  | none => rfl
  | some noted => simp [hnoted u version text hlast noted hvalue]

/-- Sending an event keeps the notes right. -/
theorem Noted.post {uri : String} {log : List Event} {s : Server} (h : Noted uri log s.latest)
    (e : Event) : Noted uri (log ++ [e]) (s.post e).latest := by
  intro u version text hlast noted hvalue
  rw [lastFor_append_singleton] at hlast
  cases e with
  | changed u' version' text' =>
    simp only [Server.post, valueAt_putAt] at hvalue
    by_cases hu : u' = uri
    · simp only [Event.concerns, hu, beq_self_eq_true, if_true, Option.some.injEq,
        Event.changed.injEq] at hlast
      simp only [hu, if_true, Option.some.injEq] at hvalue
      rw [← hvalue, hlast.2.1]
    · simp only [Event.concerns, beq_iff_eq, hu, if_false] at hlast
      simp only [hu, if_false] at hvalue
      exact h u version text hlast noted hvalue
  | closed u' =>
    by_cases hu : u' = uri
    · simp [Event.concerns, hu] at hlast
    · simp only [Event.concerns, beq_iff_eq, hu, if_false] at hlast
      exact h u version text hlast noted hvalue
  | configured settings => exact h u version text hlast noted hvalue

/-- Handling an event forgets notes and makes none. -/
theorem Noted.handleWhile {uri : String} {log : List Event} {s : Server}
    (h : Noted uri log s.latest) (stale : Staleness) (e : Event) :
    Noted uri log (s.handleWhile stale e).latest := by
  cases e with
  | changed u version text => exact h
  | configured settings => exact h
  | closed u =>
    intro u' version text hlast noted hvalue
    simp only [Server.handleWhile, valueAt_dropAt] at hvalue
    split at hvalue
    · cases hvalue
    · exact h u' version text hlast noted hvalue

/-- What holds between any two steps. A document without waiting events is up to date; for the
others an event is still to come that brings them up to date. -/
structure Invariant (s : State) : Prop where
  /-- Each document is kept once. -/
  distinct : s.server.workspace.Distinct
  /-- Events are handled in the order in which they were sent, and settings are in force from the
  event on that brings them. -/
  inOrder : ∃ handled, s.sent = handled ++ s.pending ∧
    s.server.workspace.settings = settingsIn handled
  /-- Documents without waiting events are up to date. -/
  upToDate : ∀ uri, (∀ e ∈ s.pending, e.concerns uri = false) →
    s.server.workspace.Keeps uri (lastFor uri s.sent)
  /-- The notes are right. -/
  noted : ∀ uri, Noted uri s.sent s.server.latest
  /-- The worker has read right notes about documents for which no event has come since. -/
  read : ∀ job ∈ s.job, ∀ latest ∈ job.seen, ∀ uri,
    (∀ e ∈ s.server.queue, e.concerns uri = false) → Noted uri s.sent latest

private theorem invariant_start : Invariant {} where
  distinct := List.nodup_nil
  inOrder := ⟨[], rfl, rfl⟩
  upToDate _ _ := rfl
  noted uri u version text hlast := by cases hlast
  read job hjob := by cases hjob

private theorem pending_send (s : State) (e : Event) : (s.send e).pending = s.pending ++ [e] := by
  cases hjob : s.job <;> simp [State.pending, State.send, State.notice, Server.post, hjob]

private theorem Invariant.send {s : State} (h : Invariant s) (e : Event) : Invariant
    (s.send e) where
  distinct := h.distinct
  inOrder := by
    obtain ⟨handled, hsent, hsettings⟩ := h.inOrder
    refine ⟨handled, ?_, hsettings⟩
    rw [pending_send, ← List.append_assoc, ← hsent]
    rfl
  upToDate uri hnone := by
    simp only [pending_send, List.mem_append, List.mem_singleton] at hnone
    have he := hnone e (Or.inr rfl)
    have hkeeps := h.upToDate uri fun e' he' => hnone e' (Or.inl he')
    simpa [State.send, Server.post, lastFor_append_singleton, he] using hkeeps
  noted uri := (h.noted uri).post e
  read job hjob latest hlatest uri hnone := by
    simp only [State.send, Server.post, List.mem_append, List.mem_singleton] at hnone
    have he := hnone e (Or.inr rfl)
    obtain ⟨old, hold, rfl⟩ := Option.map_eq_some_iff.1 hjob
    rcases List.mem_cons.1 hlatest with rfl | hseen
    · exact (h.noted uri).post e
    · have hread := h.read old hold latest hseen uri fun e' he' => hnone e' (Or.inl he')
      simpa [Noted, State.send, lastFor_append_singleton, he] using hread

private theorem Invariant.take {s : State} (h : Invariant s) {e : Event} {rest : List Event}
    (hidle : s.job = none) (hqueue : s.server.queue = e :: rest) :
    Invariant (s.take e rest) := by
  have hpending : (s.take e rest).pending = s.pending := by
    simp [State.pending, State.take, hidle, hqueue]
  refine ⟨h.distinct, ?_, ?_, h.noted, ?_⟩
  · rw [hpending]
    exact h.inOrder
  · rw [hpending]
    exact h.upToDate
  · intro job hjob latest hlatest uri _
    simp only [State.take, Option.mem_def, Option.some.injEq] at hjob
    subst hjob
    rw [List.mem_singleton.1 hlatest]
    exact h.noted uri

/-- The checks of a job find no document out of date for which no event is waiting. -/
theorem Invariant.fresh {s : State} (h : Invariant s) {job : Job} {stale : Staleness}
    (hjob : s.job = some job) (hstale : job.Answers stale) {uri : String}
    (hnone : ∀ e ∈ s.server.queue, e.concerns uri = false) :
    Workspace.Fresh stale uri (lastFor uri s.sent) := by
  intro u version text hlast check
  obtain ⟨latest, hlatest, hread⟩ := hstale uri version check
  rw [hread]
  exact (h.read job hjob latest hlatest uri hnone).isStale_eq_false hlast

private theorem Invariant.finish {s : State} (h : Invariant s) {job : Job} {stale : Staleness}
    (hjob : s.job = some job) (hstale : job.Answers stale) :
    Invariant (s.finish stale job.event) := by
  obtain ⟨handled, hsent, hsettings⟩ := h.inOrder
  have hpending : s.pending = job.event :: s.server.queue := by simp [State.pending, hjob]
  have hpending' : (s.finish stale job.event).pending = s.server.queue := by
    simp [State.pending, State.finish, Server.handleWhile]
  have hsent' : s.sent = handled ++ [job.event] ++ s.server.queue := by simp [hsent, hpending]
  refine ⟨h.distinct.handle stale _, ⟨handled ++ [job.event], ?_, ?_⟩, ?_,
    fun uri => (h.noted uri).handleWhile stale _, fun job hnone => by cases hnone⟩
  · rw [hpending']
    exact hsent'
  · rw [settingsIn_append_singleton, ← hsettings]
    exact Workspace.settings_handle _ _ _
  · intro uri hnone
    rw [hpending'] at hnone
    have hfresh := h.fresh hjob hstale hnone
    change ((s.server.workspace.handle stale job.event).Keeps uri (lastFor uri s.sent))
    -- Either the event at work is the last one of the document, or none was waiting for it before.
    by_cases hconcerns : job.event.concerns uri = true
    · have hlast : lastFor uri s.sent = some job.event := by
        rw [hsent', lastFor_append_of_forall_not hnone, lastFor_append_singleton, if_pos hconcerns]
      rw [hlast] at hfresh ⊢
      exact Workspace.keeps_handle_of_concerns _ hfresh hconcerns
    · simp only [Bool.not_eq_true] at hconcerns
      have hnone' : ∀ e ∈ s.pending, e.concerns uri = false := by
        rw [hpending]
        exact List.forall_mem_cons.2 ⟨hconcerns, hnone⟩
      exact (h.upToDate uri hnone').handle_of_not_concerns h.distinct hfresh hconcerns

private theorem Reachable.invariant {s : State} (h : Reachable s) : Invariant s := by
  induction h with
  | start => exact invariant_start
  | step _ hstep ih =>
    cases hstep with
    | send e => exact ih.send e
    | take hidle hqueue => exact ih.take hidle hqueue
    | finish hjob hstale => exact ih.finish hjob hstale

/-- **No update is lost.** When no event waits and the worker is idle, a document is open exactly if
the last event that opened, changed or closed it was no closing. It then has the version and the
text of that event, analysed under the settings that were sent last. -/
theorem get?_of_quiescent {s : State} (hs : Reachable s) (hqueue : s.server.queue = [])
    (hidle : s.job = none) (uri : String) :
    s.server.workspace.get? uri = documentAfter (settingsIn s.sent) (lastFor uri s.sent) := by
  have hinv := hs.invariant
  have hpending : s.pending = [] := by simp [State.pending, hidle, hqueue]
  obtain ⟨handled, hsent, hsettings⟩ := hinv.inOrder
  have hkeeps := hinv.upToDate uri (by simp [hpending])
  rw [hpending, List.append_nil] at hsent
  rw [hsent, ← hsettings, ← hsent]
  exact hkeeps

/-- A job that reads the notes of one moment only. -/
theorem Job.answers_of_mem {job : Job} {latest : List (String × Int)} (h : latest ∈ job.seen) :
    job.Answers fun uri version _ => Server.isStale latest uri version :=
  fun _ _ _ => ⟨latest, h, rfl⟩

/-- A document is closed and opened again with a lower version while its first version is being
analysed, and the note of the second opening is forgotten when the closing is handled. -/
theorem get?_of_quiescent_reopened :
    ∃ s : State, Reachable s ∧ s.server.queue = [] ∧ s.job = none ∧
      s.sent = [.changed "a" 5 "(f)", .closed "a", .changed "a" 1 "(g)"] ∧
      s.server.workspace.get? "a" = some ⟨1, analyze {} "(g)"⟩ := by
  have h1 := Reachable.start.step (.send {} (.changed "a" 5 "(f)"))
  have h2 := h1.step (.take rfl rfl)
  have h3 := h2.step (.send _ (.closed "a"))
  have h4 := h3.step (.send _ (.changed "a" 1 "(g)"))
  have h5 := h4.step (.finish rfl (Job.answers_of_mem List.mem_cons_self))
  have h6 := h5.step (.take rfl rfl)
  have h7 := h6.step (.finish rfl (Job.answers_of_mem List.mem_cons_self))
  have h8 := h7.step (.take rfl rfl)
  have h9 := h8.step (.finish rfl (Job.answers_of_mem List.mem_cons_self))
  exact ⟨_, h9, rfl, rfl, rfl, get?_of_quiescent h9 rfl rfl "a"⟩

end Interleaving

end LexScope
