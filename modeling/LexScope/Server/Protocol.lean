import LexScope.Document.CallGraph
import LexScope.Document.Completion
import LexScope.Document.Highlight
import LexScope.Document.Outline
import LexScope.Server.Parameters
import LexScope.Text.Lines

/-!
# Messages of an editor

How places, outlines, completions, highlights and calls are written as JSON, and how what the server
needs is read out of the parameters of requests and notifications.
-/

namespace LexScope.Protocol

/-! ### Writing -/

/-- A place. -/
def position (p : Position) : Json :=
  .object [("line", .ofNat p.line), ("character", .ofNat p.character)]

/-- A span as its two places. -/
def range (lines : Lines) (s : Span) : Json :=
  .object [("start", position (lines.position s.start)), ("end", position (lines.position s.stop))]

/-- A span of a document. -/
def location (uri : String) (lines : Lines) (s : Span) : Json :=
  .object [("uri", .string uri), ("range", range lines s)]

/-- The number by which an editor knows what an outline shows. -/
def symbolKind : BindingKind → Nat
  | .function | .localFunction | .setfExpander | .macroFunction | .compilerMacro | .modifyMacro
  | .localMacro => 12
  | .genericFunction | .method => 6
  | .specialVariable | .symbolMacro | .localVariable | .localSymbolMacro | .parameter
  | .loopVariable => 13
  | .constant => 14
  | .classType | .condition | .typeName => 5
  | .structType => 23
  | .package => 4
  | .methodCombination => 25
  | .loopName => 20

/-- The number for a container of an outline. -/
def containerKind : Nat := 3

/-- The number for the document. -/
def documentKind : Nat := 1

/-- The number by which an editor knows what a completion names. -/
def completionKind : BindingKind → Nat
  | .function | .localFunction | .setfExpander => 3
  | .genericFunction | .method => 2
  | .macroFunction | .compilerMacro | .modifyMacro | .symbolMacro | .localMacro
  | .localSymbolMacro => 14
  | .specialVariable | .localVariable | .parameter | .loopVariable => 6
  | .constant => 21
  | .classType | .condition | .typeName => 7
  | .structType => 22
  | .package => 9
  | .methodCombination | .loopName => 18

/-- A proposal for completion. -/
def completion (item : CompletionItem) : Json :=
  .ofMembers [("label", some (.string item.label)),
    ("kind", some (.ofNat (completionKind item.kind))), ("detail", some (.string item.detail)),
    ("documentation", item.documentation.map .string)]

/-- The number of an outline item. -/
def outlineKind (item : OutlineItem) : Nat := (item.kind.map symbolKind).getD containerKind

mutual

/-- An outline item with what is inside it. -/
def documentSymbol (lines : Lines) : OutlineTree → Json
  | .node item children =>
    let inside := documentSymbols lines children
    .ofMembers [("name", some (.string item.name)),
      ("detail", item.kind.map fun k => .string k.name),
      ("kind", some (.ofNat (outlineKind item))), ("range", some (range lines item.span)),
      ("selectionRange", some (range lines item.selection)),
      ("children", if inside.isEmpty then none else some (.array inside))]

/-- The items of an outline. -/
def documentSymbols (lines : Lines) : List OutlineTree → List Json
  | [] => []
  | t :: rest => documentSymbol lines t :: documentSymbols lines rest

end

/-- Highlights as one list of numbers. -/
def semanticTokens (hs : List Highlight) : Json :=
  .object [("data", .array ((Highlight.encode hs).map .ofNat))]

/-- A node of the call graph. The node for the document is marked, so that it is found again. -/
def callItem (uri : String) (lines : Lines) (n : CallNode) : Json :=
  .ofMembers [("name", some (.string n.name)),
    ("kind", some (.ofNat ((n.kind.map symbolKind).getD documentKind))),
    ("detail", n.kind.map fun k => .string k.name), ("uri", some (.string uri)),
    ("range", some (range lines n.span)), ("selectionRange", some (range lines n.selection)),
    ("data", if n.kind.isNone then some (.string CallGraph.documentName) else none)]

/-- What the server can do. -/
def capabilities : Json :=
  .object [("textDocumentSync", .ofNat 1),
    ("completionProvider", .object [("triggerCharacters", .array [.string "("])]),
    ("documentSymbolProvider", .bool true), ("referencesProvider", .bool true),
    ("definitionProvider", .bool true), ("callHierarchyProvider", .bool true),
    ("semanticTokensProvider", .object [("full", .bool true),
      ("legend", .object [
        ("tokenTypes", .array (HighlightClass.all.map fun c => .string c.name)),
        ("tokenModifiers", .array (Highlight.modifierNames.map .string))])])]

/-- The greeting of the server. -/
def greeting : Json :=
  .object [("capabilities", capabilities),
    ("serverInfo", .object [("name", .string "clscope"), ("version", .string "0.1.0")])]

/-! ### Reading -/

/-- A URI in its one spelling. -/
def uri? (j : Json) : Option String := j.string?.bind Uri.normalize?

/-- A place. -/
def position? (j : Json) : Option Position :=
  match j.record? ["line", "character"] with
  | some get =>
    match (get "line").bind Json.unsigned32?, (get "character").bind Json.unsigned32? with
    | some line, some character => some ⟨line, character⟩
    | _, _ => none
  | none => none

/-- The two places of a range. -/
def range? (j : Json) : Option (Position × Position) :=
  match j.record? ["start", "end"] with
  | some get =>
    match (get "start").bind position?, (get "end").bind position? with
    | some start, some stop => some (start, stop)
    | _, _ => none
  | none => none

/-- The URI of a document identifier. -/
def documentUri? (j : Json) : Option String :=
  (j.record? ["uri"]).bind fun get => (get "uri").bind uri?

/-- The document of a request. -/
def document? (params : Json) : Option String := (params.member? "textDocument").bind documentUri?

/-- The document and place of a request. -/
def documentPosition? (params : Json) : Option (String × Position) :=
  match document? params, (params.member? "position").bind position? with
  | some uri, some p => some (uri, p)
  | _, _ => none

/-- The document and place of a request for references, and whether the definition is wanted. -/
def referenceParams? (params : Json) : Option (String × Position × Bool) :=
  let wanted := ((params.member? "context").bind (·.record? ["includeDeclaration"])).bind
    fun get => (get "includeDeclaration").bind Json.bool?
  match documentPosition? params, wanted with
  | some (uri, p), some b => some (uri, p, b)
  | _, _ => none

/-- A node of the call graph as an editor gives it back. -/
structure CallItem where
  /-- Its document. -/
  uri : String
  /-- Start of its name. -/
  selectionStart : Position
  /-- It is marked as the node for the document. -/
  isDocument : Bool

/-- A node of the call graph. All of it has to be well formed, although nothing depends on most of
it. -/
def callItem? (j : Json) : Option CallItem :=
  if (Shape.record Parameters.callItemFields).accepts (some j) then
    (j.record? (Parameters.callItemFields.map (·.1))).bind fun get =>
      match (get "uri").bind uri?, (get "selectionRange").bind range? with
      | some uri, some (start, _) =>
        some ⟨uri, start, (get "data").bind Json.string? == some CallGraph.documentName⟩
      | _, _ => none
  else none

/-- The node that a request asks about. -/
def callParams? (params : Json) : Option CallItem := (params.member? "item").bind callItem?

/-- The record of an opened document: its URI, version and text. -/
def opened? (params : Json) : Option (String × Int × String) :=
  match ((params.record? ["textDocument"]).bind fun get => get "textDocument").bind
      (·.record? ["uri", "languageId", "version", "text"]) with
  | none => none
  | some get =>
    match (get "uri").bind uri?, (get "languageId").bind Json.string?,
        (get "version").bind Json.signed32?, (get "text").bind Json.string? with
    | some uri, some _, some version, some text => some (uri, version, text)
    | _, _, _, _ => none

/-- The text of one change. -/
def change? (j : Json) : Option String :=
  match j.record? ["range", "rangeLength", "text"] with
  | none => none
  | some get =>
    match Json.optional? range? (get "range"), Json.optional? Json.unsigned32? (get "rangeLength"),
        (get "text").bind Json.string? with
    | some _, some _, some text => some text
    | _, _, _ => none

/-- A changed document: its URI and version, and the texts of the changes. -/
def changed? (params : Json) : Option (String × Int × List String) :=
  match params.record? ["textDocument", "contentChanges"] with
  | none => none
  | some get =>
    match (get "textDocument").bind (·.record? ["uri", "version"]),
        ((get "contentChanges").bind Json.array?).bind (·.mapM change?) with
    | some doc, some texts =>
      match (doc "uri").bind uri?, (doc "version").bind Json.signed32? with
      | some uri, some version => some (uri, version, texts)
      | _, _ => none
    | _, _ => none

/-- A closed document. -/
def closed? (params : Json) : Option String :=
  ((params.record? ["textDocument"]).bind fun get => get "textDocument").bind documentUri?

/-- New settings. -/
def settings? (params : Json) : Option Json :=
  (params.record? ["settings"]).bind fun get => get "settings"

end LexScope.Protocol
