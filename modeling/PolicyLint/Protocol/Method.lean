import PolicyLint.Protocol.Unoffered
import PolicyLint.Workspace.Analyzer
/-!
# Methods

The methods a client may call, and how the parameters of each are read.
-/

namespace PolicyLint.Protocol

/-! ## Parameters of events -/

def opened? (v : Json) : Option Event := do
  let [document] ← recordFields? ["textDocument"] v | none
  let [uri, language, version, text] ←
    recordFields? ["uri", "languageId", "version", "text"] document | none
  let _ ← language.str?
  let _ ← integer? version
  return .opened (← uri? uri) (← text.str?)

/-- The text of one change. Changes hold the whole text, so that a range in one is not used. -/
def changedText? (v : Json) : Option String := do
  let [range, length, text] ← recordFields? ["range", "rangeLength", "text"] v | none
  let _ ← optional? range? range
  let _ ← optional? word? length
  text.str?

/-- A document is changed. Of several changes the last one counts. -/
def edited? (v : Json) : Option Event := do
  let [document, changes] ← recordFields? ["textDocument", "contentChanges"] v | none
  let [uri, version] ← recordFields? ["uri", "version"] document | none
  let _ ← integer? version
  let uri ← uri? uri
  let texts ← list? changedText? changes
  return .edited uri (← texts.getLast?)

def saved? (v : Json) : Option Event := do
  let [document, text] ← recordFields? ["textDocument", "text"] v | none
  return .saved (← document? document) (← optional? Json.str? text)

def closed? (v : Json) : Option Event := do
  let [document] ← recordFields? ["textDocument"] v | none
  return .closed (← document? document)

/-- The kind of change a number stands for. -/
def Change.ofCode (n : Int) : Change :=
  if n = 1 then .created else if n = 2 then .changed else if n = 3 then .deleted else .other

def change? (v : Json) : Option (Uri × Change) := do
  let [uri, kind] ← recordFields? ["uri", "type"] v | none
  return (← uri? uri, Change.ofCode (← integer? kind))

def filesChanged? (v : Json) : Option Event := do
  let [changes] ← recordFields? ["changes"] v | none
  return .filesChanged (← list? change? changes)

/-- The URI of a folder of the workspace. -/
def folder? (v : Json) : Option Uri := do
  let [uri, name] ← recordFields? ["uri", "name"] v | none
  let _ ← name.str?
  uri? uri

def foldersChanged? (v : Json) : Option Event := do
  let [event] ← recordFields? ["event"] v | none
  let [added, removed] ← recordFields? ["added", "removed"] event | none
  return .foldersChanged (← list? folder? added) (← list? folder? removed)

/-- The settings change. Settings that are `null` change nothing. -/
def configured? (v : Json) : Option Event := do
  let [settings] ← recordFields? ["settings"] v | none
  if settings.isNull then none else some (.configure (.ofValue (some settings)))

/-! ## Parameters of requests -/

def hovered? (v : Json) : Option (Uri × Position) := do
  let [document, position, token] ←
    objectFields? ["textDocument", "position", "workDoneToken"] v | none
  if Form.optional Form.token token then some (← document? document, ← position? position)
  else none

structure Start where
  folders : List Uri
  rootUri? : Option Uri
  rootPath? : Option String
  options : Json
deriving Repr, Inhabited

/-- The form of what a client says about itself. -/
def clientForm : List (String × Form) := [
  ("processId", .optional .word),
  ("capabilities", .object (["workspace", "textDocument", "notebookDocument", "window",
    "general"].map fun k => (k, .optional (.either (.object []) (.list .any))))),
  ("trace", .optional fun v =>
    [some "off", some "messages", some "verbose"].contains v.str?),
  ("clientInfo", .optional (.record [("name", .text), ("version", .optional .text)])),
  ("locale", .optional .text),
  Form.workToken]

def start? (v : Json) : Option Start := do
  let [folders, rootUri, rootPath, options] ←
    objectFields? ["workspaceFolders", "rootUri", "rootPath", "initializationOptions"] v | none
  let folders ← optional? (list? folder?) folders
  let rootUri? ← optional? uri? rootUri
  let rootPath? ← optional? Json.str? rootPath
  if Form.object clientForm v then
    some { folders := folders.getD [], rootUri?, rootPath?, options }
  else none

/-! ## The methods -/

inductive Method
  | start
  | started
  | shutdown
  | exit
  | hover
  | allDiagnostics
  /-- a notification that is an event -/
  | event (read? : Json → Option Event)
  /-- a notification that is of no interest -/
  | ignored
  /-- a request that is not offered -/
  | unoffered (form : Form)

namespace Method

/-- Notifications of no interest. -/
def ignoredNames : List String := [
  "textDocument/willSave", "notebookDocument/didOpen", "notebookDocument/didChange",
  "notebookDocument/didSave", "notebookDocument/didClose", "workspace/didCreateFiles",
  "workspace/didRenameFiles", "workspace/didDeleteFiles", "window/workDoneProgress/cancel"]

def ofName? (name : String) : Option Method :=
  match name with
  | "initialize" => some start
  | "initialized" => some started
  | "shutdown" => some shutdown
  | "exit" => some exit
  | "textDocument/hover" => some hover
  | "rego/allDiagnostics" => some allDiagnostics
  | "textDocument/didOpen" => some (event opened?)
  | "textDocument/didChange" => some (event edited?)
  | "textDocument/didSave" => some (event saved?)
  | "textDocument/didClose" => some (event closed?)
  | "workspace/didChangeWatchedFiles" => some (event filesChanged?)
  | "workspace/didChangeWorkspaceFolders" => some (event foldersChanged?)
  | "workspace/didChangeConfiguration" => some (event configured?)
  | name =>
    if ignoredNames.contains name then some ignored
    else (Protocol.unoffered.lookup name).map unoffered

end Method

end PolicyLint.Protocol
