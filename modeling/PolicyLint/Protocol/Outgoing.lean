import PolicyLint.Workspace.Analyzer
/-!
# What the server sends

Messages to the client that answer none of its own: diagnostics to show, log lines, and the request
to be told of changed policy files. Fields without a value are left out.
-/

namespace PolicyLint.Protocol

/-! ## Values -/

/-- The object of the fields that have a value. -/
def objectOf (fields : List (String × Option Json)) : Json :=
  .obj (fields.filterMap fun (key, value?) => value?.map fun value => (key, value))

def ofPosition (p : Position) : Json :=
  .obj [("line", .int p.line.toNat), ("character", .int p.character.toNat)]

def ofRange (r : Range) : Json :=
  .obj [("start", ofPosition r.start), ("end", ofPosition r.stop)]

def ofSeverity : Severity → Json
  | .error => .int 1
  | .warning => .int 2

def ofCode : DiagnosticCode → Json
  | .name s => .str s
  | .number n => .int n

def ofDiagnostic (d : Diagnostic) : Json :=
  objectOf [
    ("range", some (ofRange d.range)),
    ("severity", d.severity?.map ofSeverity),
    ("code", d.code?.map ofCode),
    ("codeDescription", d.href?.map fun href => .obj [("href", .str href)]),
    ("source", d.source?.map .str),
    ("message", some (.str d.message))]

def ofDiagnostics (ds : List Diagnostic) : Json :=
  .arr (ds.map ofDiagnostic)

/-- What is shown when hovering over a call. -/
def ofHover (b : Rego.Builtin) (r : Range) : Json :=
  .obj [
    ("contents", .obj [("kind", .str "markdown"), ("value", .str b.markdown)]),
    ("range", ofRange r)]

def ofPublications (ps : List Publication) : Json :=
  .obj (ps.map fun (uri, ds) => (uri.text, ofDiagnostics ds))

/-! ## Log lines -/

inductive LogLevel
  | error
  | warning
  | info
  | debug
  | trace
deriving DecidableEq, Repr, Inhabited

/-- The number of a level; the lowest two are not told apart. -/
def LogLevel.code : LogLevel → Int
  | .error => 1
  | .warning => 2
  | .info => 3
  | .debug | .trace => 4

/-- A log line, and the part of a program that writes it. -/
structure LogLine where
  level : LogLevel
  target : String
  text : String
deriving DecidableEq, Repr, Inhabited

namespace LogLine

/-- Parts whose names start like this write too much to be of use. -/
def silenced : List String :=
  ["ignore", "globset"]

def isSilenced (l : LogLine) : Bool :=
  silenced.any fun s => s.toList.isPrefixOf l.target.toList

/-- A line as the client shows it. -/
def message (l : LogLine) : String :=
  "[" ++ l.target ++ "] " ++ l.text

end LogLine

/-! ## Messages -/

inductive Outgoing
  /-- the diagnostics to show for a file -/
  | diagnostics (p : Publication)
  /-- asks to be told of changes of policy files -/
  | watch
  | log (l : LogLine)
deriving Repr, Inhabited

namespace Outgoing

def method : Outgoing → String
  | diagnostics _ => "textDocument/publishDiagnostics"
  | watch => "client/registerCapability"
  | log _ => "window/logMessage"

/-- The file a message is about. -/
def uri? : Outgoing → Option Uri
  | diagnostics p => some p.1
  | _ => none

/-- Watches every policy file. -/
def registration : Json :=
  .obj [
    ("id", .str "rego-file-watcher"),
    ("method", .str "workspace/didChangeWatchedFiles"),
    ("registerOptions", .obj [("watchers", .arr [.obj [("globPattern", .str "**/*.rego")]])])]

def params : Outgoing → Json
  | diagnostics (uri, ds) => .obj [("uri", .str uri.text), ("diagnostics", ofDiagnostics ds)]
  | watch => .obj [("registrations", .arr [registration])]
  | log l => .obj [("type", .int l.level.code), ("message", .str l.message)]

end Outgoing

end PolicyLint.Protocol
