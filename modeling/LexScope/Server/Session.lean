import LexScope.Server.Configuration
import LexScope.Server.Handshake
import LexScope.Server.Query
import LexScope.Server.Workspace

/-!
# A session with an editor

An editor greets the server, sends notifications and requests, asks it to stop and lets it exit.
Before the greeting requests are refused and notifications dropped, and after the stop too.
-/

namespace LexScope

/-- Why a request is refused. -/
inductive Refusal where
  /-- The server has not been greeted yet. -/
  | notReady
  /-- The request is out of place. -/
  | outOfPlace
  /-- There is no such request, or it is not supported. -/
  | unknownMethod
  /-- The parameters are missing or ill typed. -/
  | badParameters
  deriving DecidableEq

/-- The code by which an editor knows a refusal. -/
def Refusal.code : Refusal → Int
  | notReady => -32002
  | outOfPlace => -32600
  | unknownMethod => -32601
  | badParameters => -32602

/-- Where a session stands. -/
inductive Stage where
  /-- Not greeted yet. -/
  | fresh
  /-- At work. -/
  | ready
  /-- Asked to stop. -/
  | stopped
  /-- Gone. -/
  | closed
  deriving DecidableEq

/-- A message of the editor. -/
structure Message where
  /-- What it is about. -/
  method : String
  /-- Its parameters, if it has any. -/
  params : Option Json
  /-- It expects no answer. -/
  isNotification : Bool

/-- The outcome of a message. -/
inductive Reply where
  /-- There is nothing to answer. -/
  | sent
  /-- The answer to a request. -/
  | result (value : Json)
  /-- The request is refused. -/
  | refused (r : Refusal)
  /-- The session is over. -/
  | closed

/-- The state of a session. -/
structure Session where
  /-- Where it stands. -/
  stage : Stage := .fresh
  /-- Open documents and settings. -/
  server : Server := {}

/-- The notifications of the protocol that a session takes while it is at work. -/
def notificationMethods : List String :=
  ["initialized", "textDocument/didOpen", "textDocument/didChange", "textDocument/didClose",
    "textDocument/willSave", "textDocument/didSave", "workspace/didChangeConfiguration",
    "workspace/didChangeWorkspaceFolders", "workspace/didChangeWatchedFiles",
    "workspace/didCreateFiles", "workspace/didRenameFiles", "workspace/didDeleteFiles"]

/-- The notification that takes a request back. It is taken at every stage. -/
def cancelMethod : String := "$/cancelRequest"

namespace Session

/-- Answer a question about a document; there is no answer about an unknown one. -/
def answer (s : Session) {α : Type} (params : Option α) (uri : α → String)
    (ask : α → Analysis → Option Json) : Except Refusal Json :=
  match params with
  | none => .error .badParameters
  | some p => .ok (.orNull ((s.server.query (uri p) (ask p)).bind id))

/-- Answer a request whose parameters are well formed; not every standard request is supported. -/
def supported (s : Session) (method : String) (params : Option Json) : Except Refusal Json :=
  match method with
  | "textDocument/completion" =>
    s.answer (params.bind Protocol.documentPosition?) (·.1) fun p => Query.completion p.2
  | "textDocument/documentSymbol" =>
    s.answer (params.bind Protocol.document?) id fun _ a => some (Query.outline a)
  | "textDocument/semanticTokens/full" =>
    s.answer (params.bind Protocol.document?) id fun _ a => some (Query.highlights a)
  | "textDocument/references" =>
    s.answer (params.bind Protocol.referenceParams?) (·.1) fun p =>
      Query.references p.1 p.2.1 p.2.2
  | "textDocument/definition" =>
    s.answer (params.bind Protocol.documentPosition?) (·.1) fun p => Query.definition p.1 p.2
  | "textDocument/prepareCallHierarchy" =>
    s.answer (params.bind Protocol.documentPosition?) (·.1) fun p a =>
      (Query.offsetOf a p.2).bind (Query.prepareCalls p.1 a)
  | "callHierarchy/incomingCalls" =>
    s.answer (params.bind Protocol.callParams?) (·.uri) fun item a =>
      some (Query.incomingCalls item a)
  | "callHierarchy/outgoingCalls" =>
    s.answer (params.bind Protocol.callParams?) (·.uri) fun item a =>
      some (Query.outgoingCalls item a)
  | _ => .error .unknownMethod

/-- Answer a request of a session at work. Ill-formed parameters are noticed before it matters
whether the request is supported. -/
def request (s : Session) (method : String) (params : Option Json) : Except Refusal Json :=
  match Parameters.shapeOf? method with
  | none => .error .unknownMethod
  | some shape =>
    if shape.accepts params then s.supported method params else .error .badParameters

/-- The method is one of the protocol, whether it is supported or not. -/
def isStandard (method : String) : Bool :=
  method == "initialize" || method == "shutdown" || notificationMethods.contains method ||
    (Parameters.shapeOf? method).isSome

/-- The event that a notification reports, if it reports one. -/
def eventOf (method : String) (params : Option Json) : Option Event :=
  match method with
  | "textDocument/didOpen" =>
    (params.bind Protocol.opened?).map fun (uri, version, text) => .changed uri version text
  | "textDocument/didChange" =>
    (params.bind Protocol.changed?).bind fun (uri, version, texts) =>
      texts.getLast?.map (.changed uri version)
  | "textDocument/didClose" => (params.bind Protocol.closed?).map .closed
  | "workspace/didChangeConfiguration" =>
    (params.bind Protocol.settings?).map fun j => .configured (Settings.ofJson (some j))
  | _ => none

/-- Take in an event at once. -/
def receive (s : Session) (e : Event) : Session := { s with server := (s.server.post e).drain }

/-- Greet a fresh session. -/
def greet (s : Session) (params : Option Json) : Session × Reply :=
  match params.bind Handshake.settings? with
  | none => (s, .refused .badParameters)
  | some options =>
    ({ s.receive (.configured (Settings.ofJson options)) with stage := .ready },
      .result Protocol.greeting)

/-- Take in a notification. -/
def notify (s : Session) (method : String) (params : Option Json) : Session :=
  if method == "exit" then { s with stage := .closed }
  else
    match s.stage with
    | .ready =>
      if method == "shutdown" then { s with stage := .stopped }
      else
        match eventOf method params with
        | some e => s.receive e
        | none => s
    | _ => s

/-- Take in a request for a standard method where the session stands. A notification that comes as a
request is out of place. -/
def requestStep (s : Session) (method : String) (params : Option Json) : Session × Reply :=
  match s.stage with
  | .closed => (s, .closed)
  | .stopped => (s, .refused .outOfPlace)
  | .fresh => if method == "initialize" then s.greet params else (s, .refused .notReady)
  | .ready =>
    if method == "initialize" || notificationMethods.contains method then
      (s, .refused .outOfPlace)
    else if method == "shutdown" then
      ({ s with stage := .stopped },
        if params.isSome then .refused .badParameters else .result .null)
    else
      match s.request method params with
      | .ok value => (s, .result value)
      | .error r => (s, .refused r)

/-- Take in a request. Methods that start with `$/` are optional, so that nothing is answered about
unknown ones. -/
def requested (s : Session) (method : String) (params : Option Json) : Session × Reply :=
  if method == "exit" then ({ s with stage := .closed }, .sent)
  else if method == cancelMethod then (s, .refused .outOfPlace)
  else if isStandard method then s.requestStep method params
  else if method.toList.take 2 == ['$', '/'] then (s, .sent)
  else (s, .refused .unknownMethod)

/-- Take in a message. -/
def step (s : Session) (m : Message) : Session × Reply :=
  if s.stage == .closed then (s, .closed)
  else if m.isNotification then (s.notify m.method m.params, .sent)
  else s.requested m.method m.params

/-- The replies to the messages of a session. -/
def run (s : Session) : List Message → List Reply
  | [] => []
  | m :: rest =>
    let (s', reply) := s.step m
    reply :: s'.run rest

end Session

end LexScope
