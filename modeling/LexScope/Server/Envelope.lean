import LexScope.Json.Text
import LexScope.Server.Session

/-!
# Envelopes of messages

A message of an editor travels as a JSON object. A request carries an identifier and its answer
carries the same one; a notification has none and is not answered.
-/

namespace LexScope

/-- A message with the identifier to answer to. -/
structure Envelope where
  /-- The identifier of a request. -/
  id : Option Json
  /-- What is asked or told. -/
  message : Message

/-- What goes wrong with a refused request, in words. -/
def Refusal.message : Refusal → String
  | notReady => "Server not initialized"
  | outOfPlace => "Invalid request"
  | unknownMethod => "Method not found"
  | badParameters => "Invalid params"

namespace Envelope

/-- Open an envelope. Answers to the server, which have no method, hold no message. -/
def open? (j : Json) : Option Envelope :=
  match (j.member? "method").bind Json.string? with
  | none => none
  | some method =>
    let id := j.member? "id"
    some ⟨id, ⟨method, j.member? "params", id.isNone⟩⟩

/-- The envelope of an answer. -/
def sealed (id : Json) (member : String) (value : Json) : Json :=
  .object [("jsonrpc", .string "2.0"), ("id", id), (member, value)]

/-- The answer to send, if the reply is one. -/
def answer? (e : Envelope) (r : Reply) : Option Json :=
  e.id.bind fun id =>
    match r with
    | .sent | .closed => none
    | .result value => some (sealed id "result" value)
    | .refused reason =>
      some (sealed id "error" (.object
        [("code", .number reason.code 0), ("message", .string reason.message)]))

end Envelope

/-- Take in the text of a message: the session after it, and the text of the answer, if there is
one. Text that holds no message changes nothing. -/
def Session.exchange (s : Session) (text : String) : Session × Option String :=
  match (Json.parse? text).bind Envelope.open? with
  | none => (s, none)
  | some e =>
    let (s', reply) := s.step e.message
    (s', (e.answer? reply).map Json.render)

end LexScope
