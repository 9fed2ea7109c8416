import PolicyLint.Workspace.Capabilities
import PolicyLint.Workspace.Layout
import PolicyLint.Workspace.Published
import PolicyLint.Workspace.Store
/-!
# The analyzer

The analyzer turns events from the editor, the disk and the workspace into changes of the store and
into publications: for each file whose diagnostics changed, the diagnostics the client is to show.

Files that are open in the editor have the editor's text, all others that of the disk. Each event
ends in one pass: what was deleted is forgotten, what changed is linted, the findings across files
are computed anew, and what the client does not show yet is published.
-/

namespace PolicyLint

/-- The diagnostics to show for a file, by its URI. -/
abbrev Publication := Uri × List Diagnostic

inductive Change
  | created
  | changed
  | deleted
  /-- a kind of change that is of no interest -/
  | other
deriving DecidableEq, Repr, Inhabited

/-- The state of an analyzer whose capabilities have a state in `σ`. -/
structure Analyzer (σ : Type) where
  store : Store := {}
  settings : Settings := {}
  layout : Layout := {}
  /-- the files that have the editor's text -/
  openFiles : PathSet := .empty
  published : Published := .empty
  host : σ

namespace Analyzer

variable {σ : Type}

/-! ## Linting one file -/

/-- Lets the store take the edits that happened during a call. -/
def takeEdits (a : Analyzer σ) (p : Path) (edits : List String) (host : σ) : Analyzer σ :=
  { a with store := edits.foldl (fun s text => s.updateText p text) a.store, host }

/-- The module of a file with the given text: the stored one, or the one the parser makes. -/
def moduleOf (cap : Capabilities σ) (a : Analyzer σ) (p : Path) (text : String) :
    Except (List Rego.ParseError) Rego.Module × Analyzer σ :=
  match a.store.modules.get? p with
  | some m => (.ok m, a)
  | none =>
    let out := cap.parse a.host p text
    (out.value, a.takeEdits p out.edits out.host)

/-- Notes that a file does not parse. What it contributed and where it called built-in functions
before stays in place. -/
def noteErrors (a : Analyzer σ) (p : Path) (errors : List Rego.ParseError) : Analyzer σ :=
  { a with store := { a.store with
      parseErrors := a.store.parseErrors.insert p (errors.map .ofParseError) } }

/-- Notes the module of a file and the report on it. -/
def noteReport (a : Analyzer σ) (p : Path) (m : Rego.Module) (r : Report) : Analyzer σ :=
  { a with store := { a.store with
      modules := a.store.modules.insert p m
      parseErrors := a.store.parseErrors.insert p []
      fileFindings := a.store.fileFindings.insert p r.diagnostics
      calls := a.store.calls.insert p (.ofModule m)
      contributions := a.store.contributions.insert p (.ofList r.contributions) } }

/-- Lints a file from its stored text. Nothing is noted when the linter fails, or when the text
changed meanwhile. -/
def lintFile (cap : Capabilities σ) (a : Analyzer σ) (p : Path) : Analyzer σ :=
  match a.store.documents.get? p with
  | none => a
  | some text =>
    match a.moduleOf cap p text with
    | (.error errors, a) => if a.store.holds p text then a.noteErrors p errors else a
    | (.ok m, a) =>
      let out := cap.lint a.host p m text a.settings
      let a := a.takeEdits p out.edits out.host
      match out.value with
      | .error _ => a
      | .ok report => if a.store.holds p text then a.noteReport p m report else a

/-- Whether the text of a file has been neither parsed nor found not to parse. -/
def needsLint (a : Analyzer σ) (p : Path) : Bool :=
  !a.store.modules.contains p && ((a.store.parseErrors.get? p).getD []).isEmpty

/-! ## Findings across files -/

/-- Findings by file. -/
abbrev ByFile := PathMap (List Diagnostic)

/-- Adds findings at the end of those of a file. -/
def appendTo (m : ByFile) (p : Path) (ds : List Diagnostic) : ByFile :=
  m.insert p ((m.get? p).getD [] ++ ds)

/-- Adds the findings of a category. A category whose evaluation fails keeps the findings it had. -/
def addCategory (cap : Capabilities σ) (a : Analyzer σ) (acc : ByFile × σ) (c : Category) :
    ByFile × σ :=
  if a.settings.isEnabled c.code then
    match cap.findings acc.2 c (a.store.state c) with
    | (.ok findings, host) => (findings.foldl (fun m f => appendTo m f.1 [f.2]) acc.1, host)
    | (.error _, host) =>
      (a.store.crossFindings.entries.foldl (fun m e =>
        appendTo m e.1 (e.2.filter fun d => d.knownCode? = some c.code)) acc.1, host)
  else acc

/-- Computes the findings across files anew. Every file that contributes has an entry. -/
def recompute (cap : Capabilities σ) (a : Analyzer σ) : Analyzer σ :=
  let start : ByFile := a.store.contributions.filterMap fun _ => some []
  let (byFile, host) := cap.categories.foldl (addCategory cap a) (start, a.host)
  { a with store := { a.store with crossFindings := byFile }, host }

/-! ## Publishing -/

/-- Tells the client that a forgotten file has no diagnostics, if it was ever sent any. -/
def retract (d : Disk) (acc : List Publication × Published) (p : Path) :
    List Publication × Published :=
  let (sent, published) := acc.2.remove p
  match sent, d.uriOfPath p with
  | true, .ok uri => (acc.1 ++ [(uri, [])], published)
  | _, _ => (acc.1, published)

/-- Tells the client the diagnostics of a file, if it does not show them. -/
def publishFile (d : Disk) (s : Store) (acc : List Publication × Published) (p : Path) :
    List Publication × Published :=
  let (changed, published) := acc.2.update p (s.merged p)
  match changed, d.uriOfPath p with
  | true, .ok uri => (acc.1 ++ [(uri, s.merged p)], published)
  | _, _ => (acc.1, published)

/-- Publishes what the client does not show yet: first the deleted files, then all known files. -/
def publish (d : Disk) (a : Analyzer σ) (deleted : List Path) : List Publication × Analyzer σ :=
  let retracted := deleted.foldl (retract d) ([], a.published)
  let (publications, published) :=
    a.store.documents.keys.foldl (publishFile d a.store) retracted
  (publications, { a with published })

/-! ## A pass -/

def forget (a : Analyzer σ) (p : Path) : Analyzer σ :=
  { a with layout := (a.layout.removeFile p).2, store := a.store.delete p }

/-- One pass: forgets `deleted`, lints `toLint`, computes the findings across files, and publishes.
With nothing to forget and nothing to lint, nothing is done. -/
def pass (cap : Capabilities σ) (d : Disk) (a : Analyzer σ) (toLint deleted : List Path) :
    List Publication × Analyzer σ :=
  if toLint.isEmpty && deleted.isEmpty then ([], a)
  else
    let a := deleted.foldl forget a
    let a := toLint.foldl (lintFile cap) a
    (a.recompute cap).publish d deleted

/-! ## Events from the editor -/

/-- Gives a file a new text and lints it, if there is need. -/
def setText (cap : Capabilities σ) (d : Disk) (a : Analyzer σ) (p : Path) (text : String) :
    List Publication × Analyzer σ :=
  let changed := !a.store.holds p text
  let a := { a with store := a.store.updateText p text }
  if changed || a.needsLint p then a.pass cap d [p] [] else ([], a)

def markOpen (a : Analyzer σ) (p : Path) : Analyzer σ :=
  { a with openFiles := a.openFiles.add p }

def addKnown (a : Analyzer σ) (p : Path) : Analyzer σ :=
  { a with layout := (a.layout.addFile p).2 }

def opened (cap : Capabilities σ) (d : Disk) (a : Analyzer σ) (uri : Uri) (text : String) :
    List Publication × Analyzer σ :=
  match d.policyPath? uri with
  | some p => ((a.markOpen p).addKnown p).setText cap d p text
  | none => ([], a)

def edited (cap : Capabilities σ) (d : Disk) (a : Analyzer σ) (uri : Uri) (text : String) :
    List Publication × Analyzer σ :=
  match d.policyPath? uri with
  | some p => (a.markOpen p).setText cap d p text
  | none => ([], a)

/-- The editor saves a file. Only the text it may send along is of interest. -/
def saved (cap : Capabilities σ) (d : Disk) (a : Analyzer σ) (uri : Uri) (text? : Option String) :
    List Publication × Analyzer σ :=
  match d.policyPath? uri, text? with
  | some p, some text => a.setText cap d p text
  | _, _ => ([], a)

/-- Reads a file from the disk. Answers whether it was read and is in need of linting. -/
def reload (d : Disk) (a : Analyzer σ) (p : Path) : Except FileError Bool × Analyzer σ :=
  match a.store.load d p with
  | (.ok (_, changed), store) =>
    let a := { a with store }
    (.ok (changed || a.needsLint p), a)
  | (.error e, store) => (.error e, { a with store })

/-- The editor closes a file. It has the text of the disk from then on, and is forgotten when the
disk has no such file. -/
def closed (cap : Capabilities σ) (d : Disk) (a : Analyzer σ) (uri : Uri) :
    List Publication × Analyzer σ :=
  match d.policyPath? uri with
  | none => ([], a)
  | some p =>
    let a := { a with openFiles := a.openFiles.erase p }
    if d.pathExists p then
      match a.reload d p with
      | (.ok true, a) => a.pass cap d [p] []
      | (_, a) => ([], a)
    else a.pass cap d [] [p]

/-! ## Events from the disk -/

/-- What a batch of changes asks for so far. -/
structure Batch (σ : Type) where
  analyzer : Analyzer σ
  toLint : List Path := []
  deleted : List Path := []

/-- A file was created or changed on the disk. -/
def Batch.load (d : Disk) (b : Batch σ) (p : Path) : Batch σ :=
  if !p.isPolicy || b.analyzer.openFiles.contains p then b
  else match b.analyzer.reload d p with
    | (.ok needs, a) =>
      { b with analyzer := a.addKnown p, toLint := if needs then b.toLint ++ [p] else b.toLint }
    | (.error _, a) => { b with analyzer := a }

/-- A file or folder was deleted from the disk: all known files and documents there, or below. -/
def Batch.delete (b : Batch σ) (p : Path) : Batch σ :=
  let files := b.analyzer.layout.matching p ++
    b.analyzer.store.documents.keys.filter (·.isWithin p)
  { b with deleted := b.deleted ++ files.filter fun f => !b.analyzer.openFiles.contains f }

/-- Takes one change into a batch. Names with an extension other than that of policy files are of
no interest. -/
def Batch.add (d : Disk) (b : Batch σ) (change : Uri × Change) : Batch σ :=
  match d.pathOfUri change.1 with
  | .error _ => b
  | .ok p =>
    if p.extension?.isSome && !p.isPolicy then b
    else match change.2 with
      | .created | .changed => b.load d p
      | .deleted => b.delete p
      | .other => b

def filesChanged (cap : Capabilities σ) (d : Disk) (a : Analyzer σ)
    (changes : List (Uri × Change)) : List Publication × Analyzer σ :=
  let b := changes.foldl (Batch.add d) { analyzer := a }
  b.analyzer.pass cap d b.toLint (PathSet.ofList b.deleted).keys

/-! ## Events from the workspace -/

/-- Reads a discovered file that is not open. -/
def Batch.scan (d : Disk) (b : Batch σ) (p : Path) : Batch σ :=
  if b.analyzer.openFiles.contains p then b
  else match b.analyzer.reload d p with
    | (.ok needs, a) =>
      { b with analyzer := a, toLint := if needs then b.toLint ++ [p] else b.toLint }
    | (.error _, a) => { b with analyzer := a }

/-- Brings the store up to date with the files below the roots. Files that are neither found nor
open are forgotten. -/
def scan (cap : Capabilities σ) (d : Disk) (a : Analyzer σ) : List Publication × Analyzer σ :=
  let (files, layout) := a.layout.discover d
  let a := { a with layout }
  let stale := a.store.documents.keys.filter fun p =>
    !a.openFiles.contains p && !files.any (p == ·)
  let b := files.foldl (Batch.scan d) { analyzer := a }
  b.analyzer.pass cap d b.toLint stale

/-- Adds roots. Answers whether any was new. -/
def addRoots (a : Analyzer σ) (roots : List Path) : Bool × Analyzer σ :=
  (roots.any fun r => !a.layout.roots.contains r,
    { a with layout := a.layout.addRoots roots })

/-- Removes a root and collects the files that lie below no root any more. -/
def dropRoot (acc : List Path × Layout) (root : Path) : List Path × Layout :=
  let (removed, layout) := acc.2.removeRoot root
  (acc.1 ++ removed, layout)

/-- Removes roots. The files below them that no other root covers are forgotten, unless they are
open. -/
def rootsRemoved (cap : Capabilities σ) (d : Disk) (a : Analyzer σ) (roots : List Path) :
    List Publication × Analyzer σ :=
  let (dropped, layout) := roots.foldl dropRoot ([], a.layout)
  { a with layout }.pass cap d [] (dropped.filter fun p => !a.openFiles.contains p)

/-- Adds roots, and scans the workspace if any of them is new. -/
def rootsAdded (cap : Capabilities σ) (d : Disk) (a : Analyzer σ) (roots : List Path) :
    List Publication × Analyzer σ :=
  match a.addRoots roots with
  | (true, a) => a.scan cap d
  | (false, a) => ([], a)

def foldersChanged (cap : Capabilities σ) (d : Disk) (a : Analyzer σ) (added removed : List Uri) :
    List Publication × Analyzer σ :=
  let (retracted, a) := a.rootsRemoved cap d (d.pathsOfUris removed)
  let (found, a) := a.rootsAdded cap d (d.pathsOfUris added)
  (retracted ++ found, a)

/-- Lints files from their stored texts. -/
def lint (cap : Capabilities σ) (d : Disk) (a : Analyzer σ) (paths : List Path) :
    List Publication × Analyzer σ :=
  a.pass cap d paths []

/-- Drops all findings and lints every known file again. -/
def relint (cap : Capabilities σ) (d : Disk) (a : Analyzer σ) : List Publication × Analyzer σ :=
  let store := { a.store with fileFindings := .empty, crossFindings := .empty }
  { a with store }.pass cap d store.documents.keys []

/-- Changes the settings; everything is linted again when they differ. -/
def configure (cap : Capabilities σ) (d : Disk) (a : Analyzer σ) (settings : Settings) :
    List Publication × Analyzer σ :=
  if a.settings = settings then ([], a) else { a with settings }.relint cap d

/-- Forgets a file, whether it is open or not. -/
def delete (cap : Capabilities σ) (d : Disk) (a : Analyzer σ) (p : Path) :
    List Publication × Analyzer σ :=
  { a with openFiles := a.openFiles.erase p }.pass cap d [] [p]

/-! ## Questions -/

/-- The diagnostics of every known file that has a URI. -/
def allDiagnostics (d : Disk) (a : Analyzer σ) : List Publication :=
  a.store.documents.keys.filterMap fun p =>
    (d.uriOfPath p).toOption.map fun uri => (uri, a.store.merged p)

/-- The built-in function called at a position, and the range of its name there. -/
def builtinAt? (d : Disk) (a : Analyzer σ) (uri : Uri) (p : Position) :
    Option (Rego.Builtin × Range) := do
  let path ← d.policyPath? uri
  let call ← a.store.callAt? path p
  let builtin ← Rego.Builtin.lookup call.name
  return (builtin, call.range)

end Analyzer

/-! ## Runs -/

inductive Event
  | opened (uri : Uri) (text : String)
  | edited (uri : Uri) (text : String)
  | saved (uri : Uri) (text? : Option String)
  | closed (uri : Uri)
  | filesChanged (changes : List (Uri × Change))
  | foldersChanged (added removed : List Uri)
  /-- roots are added, and nothing is scanned yet -/
  | rootsGiven (roots : List Path)
  | scan
  | lint (paths : List Path)
  | relint
  | configure (settings : Settings)
  | delete (path : Path)
deriving Repr, Inhabited

/-- Handles an event: what to publish, and the analyzer after it. -/
def Analyzer.handle {σ : Type} (cap : Capabilities σ) (d : Disk) (a : Analyzer σ) :
    Event → List Publication × Analyzer σ
  | .opened uri text => a.opened cap d uri text
  | .edited uri text => a.edited cap d uri text
  | .saved uri text? => a.saved cap d uri text?
  | .closed uri => a.closed cap d uri
  | .filesChanged changes => a.filesChanged cap d changes
  | .foldersChanged added removed => a.foldersChanged cap d added removed
  | .rootsGiven roots => ([], (a.addRoots roots).2)
  | .scan => a.scan cap d
  | .lint paths => a.lint cap d paths
  | .relint => a.relint cap d
  | .configure settings => a.configure cap d settings
  | .delete path => a.delete cap d path

end PolicyLint
