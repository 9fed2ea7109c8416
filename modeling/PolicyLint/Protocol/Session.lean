import PolicyLint.Protocol.Message
import PolicyLint.Protocol.Method
import PolicyLint.Protocol.Outgoing
/-!
# Sessions

A session begins with the request `initialize`, after which everything else is answered, and ends
with the notification `exit`; between `shutdown` and `exit` requests are refused. Before the
beginning requests are refused and notifications dropped. What the protocol does not know is
refused in every phase, unless its name starts with `$/`: then it is dropped.
-/

namespace PolicyLint.Protocol

/-- How far a session has come. -/
inductive Phase
  | uninitialized
  | initialized
  | shutDown
  | exited
deriving DecidableEq, Repr, Inhabited

/-- Why requests are refused in a phase, if they are. -/
def Phase.fault? : Phase → Option Fault
  | uninitialized => some .notInitialized
  | initialized => none
  | shutDown | exited => some .invalidRequest

/-- A session with one client. -/
structure Session where
  phase : Phase := .uninitialized
  analyzer : Analyzer Unit := { host := () }

namespace Session

/-- What comes of a message: the reply, what is sent besides, and the session after it. -/
abbrev Turn := Reply × List Outgoing × Session

/-! ## The beginning -/

/-- The roots a session starts with: those folders of the workspace that have a path, or if there
are none the root given by its URI, or else by its path. -/
def rootsOf (d : Disk) (s : Start) : List Path :=
  match s.folders.filterMap fun u => (d.pathOfUri u).toOption with
  | [] =>
    let root? := s.rootUri?.or (s.rootPath?.bind fun p => (d.uriOfPath ⟨p⟩).toOption)
    (root?.bind fun u => (d.pathOfUri u).toOption).toList
  | roots => roots

/-- The analyzer after the beginning of a session. -/
def prepare (d : Disk) (a : Analyzer Unit) (s : Start) : Analyzer Unit :=
  let a := (a.addRoots (rootsOf d s)).2
  (a.configure .standard d (.ofValue (some s.options))).2

/-- What the server offers. -/
def serverInfo : Json :=
  .obj [
    ("capabilities", .obj [
      ("textDocumentSync", .obj [
        ("openClose", .bool true),
        ("change", .int 1),
        ("willSave", .bool false),
        ("willSaveWaitUntil", .bool false),
        ("save", .obj [("includeText", .bool true)])]),
      ("hoverProvider", .bool true),
      ("workspace", .obj [
        ("workspaceFolders", .obj [
          ("supported", .bool true),
          ("changeNotifications", .bool true)])])]),
    ("serverInfo", .obj [
      ("name", .str "rego-language-server"),
      ("version", .str "0.0.1")])]

/-! ## The phases -/

/-- The request `initialize`. With malformed parameters the session does not begin. -/
def start (d : Disk) (s : Session) (m : Message) : Turn :=
  if s.phase ≠ .uninitialized then (m.refuse .invalidRequest, [], s)
  else if m.isRequest then
    match m.params?.bind start? with
    | some options =>
      (.result serverInfo, [],
        { phase := .initialized, analyzer := prepare d s.analyzer options })
    | none => (.fault .invalidParams, [], s)
  else (.silent, [], s)

/-- The request `shutdown`. It ends the service even when it is malformed. -/
def shutdown (s : Session) (m : Message) : Turn :=
  match s.phase.fault? with
  | some f => (m.refuse f, [], s)
  | none =>
    let s := { s with phase := .shutDown }
    if !m.isRequest then (.silent, [], s)
    else if m.params?.isSome then (.fault .invalidParams, [], s)
    else (.result .null, [], s)

/-- Handles an event and sends the diagnostics that changed. -/
def handle (d : Disk) (s : Session) (e : Event) : List Outgoing × Session :=
  let (ps, analyzer) := s.analyzer.handle .standard d e
  (ps.map .diagnostics, { s with analyzer })

/-- A notification while the service is up. -/
def notified (d : Disk) (s : Session) (method : Method) (params : Json) :
    List Outgoing × Session :=
  match method with
  | .started =>
    if Form.record [] params then
      let (out, s) := s.handle d .scan
      (.watch :: out, s)
    else ([], s)
  | .event read? =>
    match read? params with
    | some e => s.handle d e
    | none => ([], s)
  | _ => ([], s)

/-- A request while the service is up. -/
def answer (d : Disk) (s : Session) (method : Method) (params? : Option Json) : Reply :=
  match method with
  | .hover =>
    match params?.bind hovered? with
    | some (uri, p) =>
      match s.analyzer.builtinAt? d uri p with
      | some (builtin, range) => .result (ofHover builtin range)
      | none => .result .null
    | none => .fault .invalidParams
  | .allDiagnostics =>
    if params?.isSome then .fault .invalidParams
    else .result (ofPublications (s.analyzer.allDiagnostics d))
  | .unoffered form => .fault (if params?.any form then .methodNotFound else .invalidParams)
  | _ => .silent

/-- A message while the service is up. -/
def serve (d : Disk) (s : Session) (method : Method) (m : Message) : Turn :=
  if m.isRequest then (s.answer d method m.params?, [], s)
  else match m.params? with
    | some params =>
      let (out, s) := s.notified d method params
      (.silent, out, s)
    | none => (.silent, [], s)

/-- A message of a method that the protocol does not know. -/
def unknown (m : Message) : Reply :=
  if "$/".toList.isPrefixOf m.method.toList then .silent else m.refuse .methodNotFound

def receive (d : Disk) (s : Session) (m : Message) : Turn :=
  if s.phase = .exited then (.exited, [], s)
  else match Method.ofName? m.method with
    | none => (unknown m, [], s)
    | some .exit => (.silent, [], { s with phase := .exited })
    | some .start => s.start d m
    | some .shutdown => s.shutdown m
    | some method =>
      match s.phase.fault? with
      | some f => (m.refuse f, [], s)
      | none => s.serve d method m

/-- Sends a log line to the client, in every phase but the last. -/
def log (s : Session) (l : LogLine) : List Outgoing :=
  if s.phase = .exited || l.isSilenced then [] else [.log l]

end Session

end PolicyLint.Protocol
