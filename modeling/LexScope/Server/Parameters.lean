import LexScope.Server.Shape

/-!
# Parameters of requests

The standard requests of an editor with the shapes of their parameters. Most of them can carry
tokens for reporting progress and partial results beside their own fields, and such parameters are
written as objects only.
-/

namespace LexScope.Parameters

open Shape

/-! ### Parts -/

/-- A place. -/
def position : Shape := record [("line", uint32), ("character", uint32)]

/-- The text between two places. -/
def range : Shape := record [("start", position), ("end", position)]

/-- A range of a document. -/
def location : Shape := record [("uri", uri), ("range", range)]

/-- A token for reports: a number or a string. -/
def token : Shape := maybe (either int32 string)

/-- The field that names a document. -/
def document : String × Shape := ("textDocument", record [("uri", uri)])

/-- The fields that name a place in a document. -/
def documentPosition : List (String × Shape) := [document, ("position", position)]

/-- Parameters whose progress can be reported. -/
def reported (fields : List (String × Shape)) : Shape :=
  members (fields ++ [("workDoneToken", token)])

/-- Parameters whose progress and partial results can be reported. -/
def streamed (fields : List (String × Shape)) : Shape :=
  members (fields ++ [("workDoneToken", token), ("partialResultToken", token)])

/-- A string that may be missing. -/
def text : Shape := maybe string

/-- Data that the server has attached to something. -/
def data : String × Shape := ("data", maybe any)

/-- Text for the user, plain or in a markup. -/
def documentation : Shape :=
  either string (record [("kind", word ["plaintext", "markdown"]), ("value", string)])

/-- A command that the user can run. -/
def command : Shape :=
  record [("title", string), ("command", string), ("arguments", maybe (list any))]

/-- A change of a range. -/
def edit : Shape := record [("range", range), ("newText", string)]

/-- A message about a range. -/
def diagnostic : Shape :=
  record [
    ("range", range),
    ("severity", maybe int32),
    ("code", maybe (either int32 string)),
    ("codeDescription", maybe (record [("href", uri)])),
    ("source", text),
    ("message", string),
    ("relatedInformation", maybe (list (record [("location", location), ("message", string)]))),
    ("tags", maybe (list int32)),
    data]

/-- How documents are laid out. -/
def layout : Shape :=
  openMembers
    [("tabSize", uint32), ("insertSpaces", bool), ("trimTrailingWhitespace", maybe bool),
      ("insertFinalNewline", maybe bool), ("trimFinalNewlines", maybe bool)]
    (either bool (either int32 string))

/-- The fields of a node of a hierarchy, where `tags` is the shape of its tags. -/
def hierarchyFields (tags : Shape) : List (String × Shape) :=
  [("name", string), ("kind", int32), ("tags", maybe tags), ("detail", text), ("uri", uri),
    ("range", range), ("selectionRange", range), data]

/-- The fields of a node of the call graph. -/
def callItemFields : List (String × Shape) := hierarchyFields (list int32)

/-- A node of the type graph, which has one tag at most. -/
def typeItem : Shape := record (hierarchyFields int32)

/-- Help about the parameters of a function. -/
def signatureHelp : Shape :=
  record [
    ("signatures", list (record [
      ("label", string),
      ("documentation", maybe documentation),
      ("parameters", maybe (list (record [
        ("label", either string (pair uint32)),
        ("documentation", maybe documentation)]))),
      ("activeParameter", maybe uint32)])),
    ("activeSignature", maybe uint32),
    ("activeParameter", maybe uint32)]

/-! ### Things that can be completed later -/

/-- A proposal for completion. -/
def completionItem : Shape :=
  record [
    ("label", string),
    ("labelDetails", maybe (record [("detail", text), ("description", text)])),
    ("kind", maybe int32),
    ("detail", text),
    ("documentation", maybe documentation),
    ("deprecated", maybe bool),
    ("preselect", maybe bool),
    ("sortText", text),
    ("filterText", text),
    ("insertText", text),
    ("insertTextFormat", maybe int32),
    ("insertTextMode", maybe int32),
    ("textEdit", maybe (either edit (record [
      ("newText", string), ("insert", range), ("replace", range)]))),
    ("additionalTextEdits", maybe (list edit)),
    ("command", maybe command),
    ("commitCharacters", maybe (list string)),
    data,
    ("tags", maybe (list int32))]

/-- A remark inside a line. -/
def inlayHint : Shape :=
  record [
    ("position", position),
    ("label", either string (list (record [
      ("value", string),
      ("tooltip", maybe documentation),
      ("location", maybe location),
      ("command", maybe command)]))),
    ("kind", maybe int32),
    ("textEdits", maybe (list edit)),
    ("tooltip", maybe documentation),
    ("paddingLeft", maybe bool),
    ("paddingRight", maybe bool),
    data]

/-- Changes of one document. -/
def documentEdit : Shape :=
  record [
    ("textDocument", record [("uri", uri), ("version", maybe int32)]),
    ("edits", list (either edit
      (members [("range", range), ("newText", string), ("annotationId", string)])))]

/-- An operation on files with its options. -/
def fileOperation (kind : String) (files : List String) (options : List String) : Shape :=
  members ([("kind", word [kind])] ++ files.map (fun name => (name, uri)) ++
    [("options", maybe (record (options.map fun name => (name, maybe bool)))),
      ("annotationId", text)])

/-- Changes of the workspace. -/
def workspaceEdit : Shape :=
  record [
    ("changes", defaulted (maybe (dict true (list edit)))),
    ("documentChanges", maybe (either (list documentEdit) (list (either
      (either (fileOperation "create" ["uri"] ["overwrite", "ignoreIfExists"])
        (either (fileOperation "rename" ["oldUri", "newUri"] ["overwrite", "ignoreIfExists"])
          (fileOperation "delete" ["uri"] ["recursive", "ignoreIfNotExists"])))
      documentEdit)))),
    ("changeAnnotations", maybe (dict false (record [
      ("label", string), ("needsConfirmation", maybe bool), ("description", text)])))]

/-- A change that is offered to the user. -/
def codeAction : Shape :=
  record [
    ("title", string),
    ("kind", text),
    ("diagnostics", maybe (list diagnostic)),
    ("edit", maybe workspaceEdit),
    ("command", maybe command),
    ("isPreferred", maybe bool),
    ("disabled", maybe (record [("reason", string)])),
    data]

/-- A definition somewhere in the workspace. -/
def workspaceSymbol : Shape :=
  record [
    ("name", string),
    ("kind", int32),
    ("tags", maybe (list int32)),
    ("containerName", text),
    ("location", either location (record [("uri", uri)])),
    data]

/-! ### Requests -/

/-- Requests about a document as a whole. -/
def aboutDocument : List (String × Shape) :=
  [("textDocument/documentSymbol", streamed [document]),
    ("textDocument/semanticTokens/full", streamed [document]),
    ("textDocument/semanticTokens/full/delta",
      streamed [document, ("previousResultId", string)]),
    ("textDocument/semanticTokens/range", streamed [document, ("range", range)]),
    ("textDocument/documentLink", streamed [document]),
    ("textDocument/codeLens", streamed [document]),
    ("textDocument/foldingRange", streamed [document]),
    ("textDocument/documentColor", streamed [document]),
    ("textDocument/selectionRange", streamed [document, ("positions", list position)]),
    ("textDocument/diagnostic",
      streamed [document, ("identifier", text), ("previousResultId", text)]),
    ("textDocument/inlayHint", reported [document, ("range", range)]),
    ("textDocument/inlineValue", reported [document, ("range", range),
      ("context", record [("frameId", int32), ("stoppedLocation", range)])]),
    ("textDocument/codeAction", streamed [document, ("range", range),
      ("context", record [("diagnostics", list diagnostic), ("only", maybe (list string)),
        ("triggerKind", maybe int32)])]),
    ("textDocument/colorPresentation", streamed [document, ("range", range),
      ("color", record [("red", number), ("green", number), ("blue", number),
        ("alpha", number)])]),
    ("textDocument/formatting", reported [document, ("options", layout)]),
    ("textDocument/rangeFormatting", reported [document, ("range", range), ("options", layout)]),
    ("textDocument/willSaveWaitUntil", record [document, ("reason", int32)])]

/-- Requests about a place in a document. -/
def aboutPosition : List (String × Shape) :=
  [("textDocument/definition", streamed documentPosition),
    ("textDocument/declaration", streamed documentPosition),
    ("textDocument/typeDefinition", streamed documentPosition),
    ("textDocument/implementation", streamed documentPosition),
    ("textDocument/documentHighlight", streamed documentPosition),
    ("textDocument/moniker", streamed documentPosition),
    ("textDocument/references", streamed (documentPosition ++
      [("context", record [("includeDeclaration", bool)])])),
    ("textDocument/completion", streamed (documentPosition ++
      [("context", maybe (record [("triggerKind", int32), ("triggerCharacter", text)]))])),
    ("textDocument/hover", reported documentPosition),
    ("textDocument/linkedEditingRange", reported documentPosition),
    ("textDocument/prepareCallHierarchy", reported documentPosition),
    ("textDocument/prepareTypeHierarchy", reported documentPosition),
    ("textDocument/signatureHelp", reported (documentPosition ++
      [("context", maybe (record [("triggerKind", int32), ("triggerCharacter", text),
        ("isRetrigger", bool), ("activeSignatureHelp", maybe signatureHelp)]))])),
    ("textDocument/rename", reported (documentPosition ++ [("newName", string)])),
    ("textDocument/prepareRename", record documentPosition),
    ("textDocument/onTypeFormatting",
      members (documentPosition ++ [("ch", string), ("options", layout)]))]

/-- Requests about something that the server has answered before. -/
def aboutAnswer : List (String × Shape) :=
  [("callHierarchy/incomingCalls", streamed [("item", record callItemFields)]),
    ("callHierarchy/outgoingCalls", streamed [("item", record callItemFields)]),
    ("typeHierarchy/supertypes", streamed [("item", typeItem)]),
    ("typeHierarchy/subtypes", streamed [("item", typeItem)]),
    ("documentLink/resolve",
      record [("range", range), ("target", maybe uri), ("tooltip", text), data]),
    ("codeLens/resolve", record [("range", range), ("command", maybe command), data]),
    ("completionItem/resolve", completionItem),
    ("inlayHint/resolve", inlayHint),
    ("codeAction/resolve", codeAction),
    ("workspaceSymbol/resolve", workspaceSymbol)]

/-- Requests about the workspace. -/
def aboutWorkspace : List (String × Shape) :=
  [("workspace/symbol", streamed [("query", string)]),
    ("workspace/diagnostic", streamed [("identifier", text),
      ("previousResultIds", list (record [("uri", uri), ("value", string)]))]),
    ("workspace/executeCommand",
      reported [("command", string), ("arguments", defaulted (list any))]),
    ("workspace/willCreateFiles", record [("files", list (record [("uri", string)]))]),
    ("workspace/willDeleteFiles", record [("files", list (record [("uri", string)]))]),
    ("workspace/willRenameFiles",
      record [("files", list (record [("oldUri", string), ("newUri", string)]))])]

/-- The standard requests between the first and the last one of a session. -/
def requests : List (String × Shape) :=
  aboutDocument ++ aboutPosition ++ aboutAnswer ++ aboutWorkspace

/-- The shape of the parameters of a standard request. -/
def shapeOf? (method : String) : Option Shape := (requests.find? (·.1 == method)).map (·.2)

end LexScope.Parameters
