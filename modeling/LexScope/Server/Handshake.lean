import LexScope.Server.Shape

/-!
# What an editor says about itself

The first request of a session describes the editor: where it runs and what it can do. The server
makes no use of the description, but takes the request only if all of it is well formed.
-/

namespace LexScope.Handshake

open Shape

/-- A truth value that may be missing. -/
def flag : Shape := maybe bool

/-- A string that may be missing. -/
def text : Shape := maybe string

/-- A record that may be missing, all of whose fields are truth values. -/
def flags (names : List String) : Shape := maybe (record (names.map fun name => (name, flag)))

/-- An ability that can be announced later. -/
def dynamic : Shape := flags ["dynamicRegistration"]

/-- The numbers that an editor knows of a kind of thing. -/
def knownKinds : Shape := maybe (record [("valueSet", maybe (list int32))])

/-- The tags that an editor knows; it may also just say that it knows tags. -/
def knownTags : Shape :=
  defaulted (maybe (either bool (record [("valueSet", list int32)])))

/-- The properties that an editor can ask for later. -/
def resolvable : Shape := maybe (record [("properties", list string)])

/-- The ways to write a text for the user, in order of preference. -/
def markups : Shape := maybe (list (word ["plaintext", "markdown"]))

/-- Abilities about the workspace. -/
def workspace : Shape :=
  record [
    ("applyEdit", flag),
    ("workspaceEdit", maybe (record [
      ("documentChanges", flag),
      ("resourceOperations", maybe (list (word ["create", "rename", "delete"]))),
      ("failureHandling",
        maybe (word ["abort", "transactional", "textOnlyTransactional", "undo"])),
      ("normalizesLineEndings", flag),
      ("changeAnnotationSupport", flags ["groupsOnLabel"])])),
    ("didChangeConfiguration", dynamic),
    ("didChangeWatchedFiles", flags ["dynamicRegistration", "relativePatternSupport"]),
    ("symbol", maybe (record [
      ("dynamicRegistration", flag),
      ("symbolKind", knownKinds),
      ("tagSupport", knownTags),
      ("resolveSupport", resolvable)])),
    ("executeCommand", dynamic),
    ("workspaceFolders", flag),
    ("configuration", flag),
    ("semanticTokens", flags ["refreshSupport"]),
    ("codeLens", flags ["refreshSupport"]),
    ("fileOperations", flags ["dynamicRegistration", "didCreate", "willCreate", "didRename",
      "willRename", "didDelete", "willDelete"]),
    ("inlineValue", flags ["refreshSupport"]),
    ("inlayHint", flags ["refreshSupport"]),
    ("diagnostic", flags ["refreshSupport"])]

/-- Abilities about completion. -/
def completion : Shape :=
  record [
    ("dynamicRegistration", flag),
    ("completionItem", maybe (record [
      ("snippetSupport", flag),
      ("commitCharactersSupport", flag),
      ("documentationFormat", markups),
      ("deprecatedSupport", flag),
      ("preselectSupport", flag),
      ("tagSupport", knownTags),
      ("insertReplaceSupport", flag),
      ("resolveSupport", resolvable),
      ("insertTextModeSupport", maybe (record [("valueSet", list int32)])),
      ("labelDetailsSupport", flag)])),
    ("completionItemKind", knownKinds),
    ("contextSupport", flag),
    ("insertTextMode", maybe int32),
    ("completionList", maybe (record [("itemDefaults", maybe (list string))]))]

/-- Abilities about highlighting by meaning. -/
def semanticTokens : Shape :=
  record [
    ("dynamicRegistration", flag),
    ("requests", record [
      ("range", flag),
      ("full", maybe (either bool (record [("delta", flag)])))]),
    ("tokenTypes", list string),
    ("tokenModifiers", list string),
    ("formats", list string),
    ("overlappingTokenSupport", flag),
    ("multilineTokenSupport", flag),
    ("serverCancelSupport", flag),
    ("augmentsSyntaxTokens", flag)]

/-- Abilities about documents. -/
def textDocument : Shape :=
  record [
    ("synchronization", flags ["dynamicRegistration", "willSave", "willSaveWaitUntil", "didSave"]),
    ("completion", maybe completion),
    ("hover", maybe (record [("dynamicRegistration", flag), ("contentFormat", markups)])),
    ("signatureHelp", maybe (record [
      ("dynamicRegistration", flag),
      ("signatureInformation", maybe (record [
        ("documentationFormat", markups),
        ("parameterInformation", flags ["labelOffsetSupport"]),
        ("activeParameterSupport", flag)])),
      ("contextSupport", flag)])),
    ("references", dynamic),
    ("documentHighlight", dynamic),
    ("documentSymbol", maybe (record [
      ("dynamicRegistration", flag),
      ("symbolKind", knownKinds),
      ("hierarchicalDocumentSymbolSupport", flag),
      ("tagSupport", knownTags)])),
    ("formatting", dynamic),
    ("rangeFormatting", dynamic),
    ("onTypeFormatting", dynamic),
    ("declaration", flags ["dynamicRegistration", "linkSupport"]),
    ("definition", flags ["dynamicRegistration", "linkSupport"]),
    ("typeDefinition", flags ["dynamicRegistration", "linkSupport"]),
    ("implementation", flags ["dynamicRegistration", "linkSupport"]),
    ("codeAction", maybe (record [
      ("dynamicRegistration", flag),
      ("codeActionLiteralSupport", maybe (record [
        ("codeActionKind", record [("valueSet", list string)])])),
      ("isPreferredSupport", flag),
      ("disabledSupport", flag),
      ("dataSupport", flag),
      ("resolveSupport", resolvable),
      ("honorsChangeAnnotations", flag)])),
    ("codeLens", dynamic),
    ("documentLink", flags ["dynamicRegistration", "tooltipSupport"]),
    ("colorProvider", dynamic),
    ("rename", maybe (record [
      ("dynamicRegistration", flag),
      ("prepareSupport", flag),
      ("prepareSupportDefaultBehavior", maybe int32),
      ("honorsChangeAnnotations", flag)])),
    ("publishDiagnostics", maybe (record [
      ("relatedInformation", flag),
      ("tagSupport", knownTags),
      ("versionSupport", flag),
      ("codeDescriptionSupport", flag),
      ("dataSupport", flag)])),
    ("foldingRange", maybe (record [
      ("dynamicRegistration", flag),
      ("rangeLimit", maybe uint32),
      ("lineFoldingOnly", flag),
      ("foldingRangeKind", maybe (record [
        ("valueSet", maybe (list (word ["comment", "imports", "region"])))])),
      ("foldingRange", flags ["collapsedText"])])),
    ("selectionRange", dynamic),
    ("linkedEditingRange", dynamic),
    ("callHierarchy", dynamic),
    ("semanticTokens", maybe semanticTokens),
    ("moniker", dynamic),
    ("typeHierarchy", dynamic),
    ("inlineValue", dynamic),
    ("inlayHint", maybe (record [("dynamicRegistration", flag), ("resolveSupport", resolvable)])),
    ("diagnostic", flags ["dynamicRegistration", "relatedDocumentSupport"])]

/-- Abilities about windows. -/
def window : Shape :=
  record [
    ("workDoneProgress", flag),
    ("showMessage", maybe (record [
      ("messageActionItem", flags ["additionalPropertiesSupport"])])),
    ("showDocument", maybe (record [("support", bool)]))]

/-- Abilities of any other kind. -/
def general : Shape :=
  record [
    ("regularExpressions", maybe (record [("engine", string), ("version", text)])),
    ("markdown", maybe (record [
      ("parser", string),
      ("version", text),
      ("allowedTags", maybe (list string))])),
    ("staleRequestSupport", maybe (record [
      ("cancel", bool),
      ("retryOnContentModified", list string)])),
    ("positionEncodings", maybe (list string))]

/-- What an editor can do. -/
def abilities : Shape :=
  record [
    ("workspace", maybe workspace),
    ("textDocument", maybe textDocument),
    ("window", maybe window),
    ("general", maybe general),
    ("experimental", maybe any)]

/-- The fields of the first request in order. -/
def fields : List (String × Shape) :=
  [("processId", maybe uint32),
    ("rootPath", text),
    ("rootUri", defaulted (maybe uri)),
    ("initializationOptions", maybe any),
    ("capabilities", abilities),
    ("trace", defaulted (maybe (word ["off", "messages", "verbose"]))),
    ("workspaceFolders", maybe (list (record [("uri", uri), ("name", string)]))),
    ("clientInfo", maybe (record [("name", string), ("version", text)])),
    ("locale", text)]

/-- The settings in the first request, if it is well formed. -/
def settings? (params : Json) : Option (Option Json) :=
  if (record fields).accepts (some params) then
    (params.record? (fields.map (·.1))).map fun get => get "initializationOptions"
  else none

end LexScope.Handshake
