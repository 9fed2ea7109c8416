import PolicyLint.Protocol.Reading
/-!
# Requests that are not offered

The protocol defines many requests that this server does not offer. Their parameters are checked
all the same, so that a client is told of malformed parameters before it is told that the method is
not there. This module holds the form of the parameters of each of them.
-/

namespace PolicyLint.Protocol

namespace Form

/-! ## Parts of parameters -/

/-- The fields that name a place in a document. -/
def place : List (String × Form) :=
  [("textDocument", document), ("position", position)]

def inDocument : List (String × Form) :=
  [("textDocument", document)]

def location : Form :=
  record [("uri", uri), ("range", range)]

def command : Form :=
  record [("title", text), ("command", text), ("arguments", optional (list any))]

def textEdit : Form :=
  record [("range", range), ("newText", text)]

/-- A text, or a text with its markup. -/
def marked : Form :=
  either text (record [
    ("kind", fun v => [some "plaintext", some "markdown"].contains v.str?), ("value", text)])

def diagnostic : Form :=
  record [
    ("range", range), ("severity", optional integer), ("code", optional (either integer text)),
    ("codeDescription", optional (record [("href", uri)])), ("source", optional text),
    ("message", text),
    ("relatedInformation", optional (list (record [("location", location), ("message", text)]))),
    ("tags", optional (list integer)), ("data", any)]

def callItem : Form :=
  record [
    ("name", text), ("kind", integer), ("tags", optional (list integer)),
    ("detail", optional text), ("uri", uri), ("range", range), ("selectionRange", range),
    ("data", any)]

def typeItem : Form :=
  record [
    ("name", text), ("kind", integer), ("tags", optional integer), ("detail", optional text),
    ("uri", uri), ("range", range), ("selectionRange", range), ("data", any)]

def formattingOptions : Form :=
  object [
    ("tabSize", word), ("insertSpaces", flag), ("trimTrailingWhitespace", optional flag),
    ("insertFinalNewline", optional flag), ("trimFinalNewlines", optional flag)]

/-- Edits of one document at a version. -/
def documentEdit : Form :=
  record [
    ("textDocument", record [("uri", uri), ("version", optional integer)]),
    ("edits", list (either textEdit (object [
      ("range", range), ("newText", text), ("annotationId", text)])))]

/-- Making, renaming or deleting a file. -/
def fileOperation : Form := fun v =>
  match (v.field? "kind").bind Json.str? with
  | some "create" | some "delete" => object [("uri", uri)] v
  | some "rename" => object [("oldUri", uri), ("newUri", uri)] v
  | _ => false

def workspaceEdit : Form :=
  record [
    ("changes", optional (dictionary (fun k => (Uri.read? k).isSome) (list textEdit))),
    ("documentChanges", optional (list (either documentEdit fileOperation))),
    ("changeAnnotations", optional (dictionary (fun _ => true) (record [
      ("label", text), ("needsConfirmation", optional flag), ("description", optional text)])))]

def inlayLabel : Form :=
  either text (list (record [
    ("value", text), ("tooltip", optional marked), ("location", optional location),
    ("command", optional command)]))

def signatureHelp : Form :=
  record [
    ("signatures", list (record [
      ("label", text), ("documentation", optional marked),
      ("parameters", optional (list (record [
        ("label", either text (fun v => ((list? word? v).map (·.length)) == some 2)),
        ("documentation", optional marked)]))),
      ("activeParameter", optional word)])),
    ("activeSignature", optional word), ("activeParameter", optional word)]

def completionItem : Form :=
  record [
    ("label", text),
    ("labelDetails", optional (record [
      ("detail", optional text), ("description", optional text)])),
    ("kind", optional integer), ("detail", optional text), ("documentation", optional marked),
    ("deprecated", optional flag), ("preselect", optional flag), ("sortText", optional text),
    ("filterText", optional text), ("insertText", optional text),
    ("insertTextFormat", optional integer), ("insertTextMode", optional integer),
    ("textEdit", optional (either textEdit (record [
      ("newText", text), ("insert", range), ("replace", range)]))),
    ("additionalTextEdits", optional (list textEdit)), ("command", optional command),
    ("commitCharacters", optional (list text)), ("data", any), ("tags", optional (list integer))]

def codeAction : Form :=
  record [
    ("title", text), ("kind", optional text), ("diagnostics", optional (list diagnostic)),
    ("edit", optional workspaceEdit), ("command", optional command),
    ("isPreferred", optional flag), ("disabled", optional (record [("reason", text)])),
    ("data", any)]

/-- The parameters of a request about files, each given by the fields under the keys. -/
def files (keys : List String) : Form :=
  record [("files", list (record (keys.map fun k => (k, text))))]

end Form

open Form in
/-- The form of the parameters of a request that is not offered, by its method. -/
def unoffered : List (String × Form) := [
  ("textDocument/declaration", object (place ++ tokens)),
  ("textDocument/definition", object (place ++ tokens)),
  ("textDocument/typeDefinition", object (place ++ tokens)),
  ("textDocument/implementation", object (place ++ tokens)),
  ("textDocument/references",
    object (place ++ tokens ++ [("context", record [("includeDeclaration", flag)])])),
  ("textDocument/prepareCallHierarchy", object (place ++ [workToken])),
  ("callHierarchy/incomingCalls", object (("item", callItem) :: tokens)),
  ("callHierarchy/outgoingCalls", object (("item", callItem) :: tokens)),
  ("textDocument/prepareTypeHierarchy", object (place ++ [workToken])),
  ("typeHierarchy/supertypes", object (("item", typeItem) :: tokens)),
  ("typeHierarchy/subtypes", object (("item", typeItem) :: tokens)),
  ("textDocument/documentHighlight", object (place ++ tokens)),
  ("textDocument/documentLink", object (inDocument ++ tokens)),
  ("documentLink/resolve", record [
    ("range", range), ("target", optional uri), ("tooltip", optional text), ("data", any)]),
  ("textDocument/codeLens", object (inDocument ++ tokens)),
  ("codeLens/resolve", record [("range", range), ("command", optional command), ("data", any)]),
  ("textDocument/foldingRange", object (inDocument ++ tokens)),
  ("textDocument/selectionRange", object (inDocument ++ tokens ++ [("positions", list position)])),
  ("textDocument/documentSymbol", object (inDocument ++ tokens)),
  ("textDocument/semanticTokens/full", object (inDocument ++ tokens)),
  ("textDocument/semanticTokens/full/delta",
    object (inDocument ++ tokens ++ [("previousResultId", text)])),
  ("textDocument/semanticTokens/range", object (inDocument ++ tokens ++ [("range", range)])),
  ("textDocument/inlineValue", object (inDocument ++ [
    workToken, ("range", range),
    ("context", record [("frameId", integer), ("stoppedLocation", range)])])),
  ("textDocument/inlayHint", object (inDocument ++ [workToken, ("range", range)])),
  ("inlayHint/resolve", record [
    ("position", position), ("label", inlayLabel), ("kind", optional integer),
    ("textEdits", optional (list textEdit)), ("tooltip", optional marked),
    ("paddingLeft", optional flag), ("paddingRight", optional flag), ("data", any)]),
  ("textDocument/moniker", object (place ++ tokens)),
  ("textDocument/completion", object (place ++ tokens ++ [
    ("context", optional (record [
      ("triggerKind", integer), ("triggerCharacter", optional text)]))])),
  ("completionItem/resolve", completionItem),
  ("textDocument/diagnostic", object (inDocument ++ tokens ++ [
    ("identifier", optional text), ("previousResultId", optional text)])),
  ("workspace/diagnostic", object (tokens ++ [
    ("identifier", optional text),
    ("previousResultIds", list (record [("uri", uri), ("value", text)]))])),
  ("textDocument/signatureHelp", object (place ++ [
    workToken,
    ("context", optional (record [
      ("triggerKind", integer), ("triggerCharacter", optional text), ("isRetrigger", flag),
      ("activeSignatureHelp", optional signatureHelp)]))])),
  ("textDocument/codeAction", object (inDocument ++ tokens ++ [
    ("range", range),
    ("context", record [
      ("diagnostics", list diagnostic), ("only", optional (list text)),
      ("triggerKind", optional integer)])])),
  ("codeAction/resolve", codeAction),
  ("textDocument/documentColor", object (inDocument ++ tokens)),
  ("textDocument/colorPresentation", object (inDocument ++ tokens ++ [
    ("range", range),
    ("color", record [("red", number), ("green", number), ("blue", number), ("alpha", number)])])),
  ("textDocument/formatting", object (inDocument ++ [workToken, ("options", formattingOptions)])),
  ("textDocument/rangeFormatting", object (inDocument ++ [
    workToken, ("range", range), ("options", formattingOptions)])),
  ("textDocument/onTypeFormatting",
    object (place ++ [("ch", text), ("options", formattingOptions)])),
  ("textDocument/rename", object (place ++ [workToken, ("newName", text)])),
  ("textDocument/prepareRename", record place),
  ("textDocument/linkedEditingRange", object (place ++ [workToken])),
  ("textDocument/willSaveWaitUntil", record (inDocument ++ [("reason", integer)])),
  ("workspace/symbol", object (tokens ++ [("query", text)])),
  ("workspaceSymbol/resolve", record [
    ("name", text), ("kind", integer), ("tags", optional (list integer)),
    ("containerName", optional text), ("location", either location document), ("data", any)]),
  ("workspace/willCreateFiles", files ["uri"]),
  ("workspace/willRenameFiles", files ["oldUri", "newUri"]),
  ("workspace/willDeleteFiles", files ["uri"]),
  ("workspace/executeCommand", object [
    workToken, ("command", text), ("arguments", optional (list any))])]

end PolicyLint.Protocol
