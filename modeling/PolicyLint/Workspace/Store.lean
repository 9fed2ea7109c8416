import PolicyLint.CrossFile.Findings
import PolicyLint.Rego.CallIndex
import PolicyLint.Uri.FilePath
/-!
# The store

What is known about each file of a workspace: its text, its module, the diagnostics found in it,
where it calls built-in functions, and what it contributes to the rules across files. The parts are
kept apart, so that a file may have an entry in one and none in another.
-/

namespace PolicyLint

/-- What one file contributes, at most once to each category. -/
structure Contributed where
  metadata? : Option MetadataFacts := none
  imports? : Option ImportFacts := none
deriving DecidableEq, Repr, Inhabited

namespace Contributed

def get? (c : Contributed) : Category → Option Contribution
  | .missingMetadata => c.metadata?.map .missingMetadata
  | .unresolvedImport => c.imports?.map .unresolvedImport

def set (c : Contributed) : Contribution → Contributed
  | .missingMetadata f => { c with metadata? := some f }
  | .unresolvedImport f => { c with imports? := some f }

/-- Takes back the contribution to a category. -/
def clear (c : Contributed) : Category → Contributed
  | .missingMetadata => { c with metadata? := none }
  | .unresolvedImport => { c with imports? := none }

/-- The contributions of a list; a later one replaces an earlier one to its category. -/
def ofList (cs : List Contribution) : Contributed :=
  cs.foldl set {}

def count (c : Contributed) : Nat :=
  (Category.all.filter fun k => (c.get? k).isSome).length

end Contributed

/-- What is known about the files of a workspace. -/
structure Store where
  /-- the text of each file: the editor's while it is open there, otherwise the disk's -/
  documents : PathMap String := .empty
  /-- the module of each file whose text has been linted -/
  modules : PathMap Rego.Module := .empty
  /-- what the last parse found wrong -/
  parseErrors : PathMap (List Diagnostic) := .empty
  /-- findings of the rules that look at one file -/
  fileFindings : PathMap (List Diagnostic) := .empty
  /-- findings of the rules across files, by the file they are shown in -/
  crossFindings : PathMap (List Diagnostic) := .empty
  calls : PathMap Rego.CallIndex := .empty
  contributions : PathMap Contributed := .empty
deriving Inhabited

namespace Store

/-! ## Texts -/

/-- Whether the stored text of a file is `text`. -/
def holds (s : Store) (p : Path) (text : String) : Bool :=
  s.documents.get? p == some text

/-- Sets the text of a file and drops its module, unless the text is the same as before. -/
def updateText (s : Store) (p : Path) (text : String) : Store :=
  if s.holds p text then s
  else { s with documents := s.documents.insert p text, modules := s.modules.erase p }

/-- Sets the text of a file and nothing else. Answers whether the text was new. -/
def putText (s : Store) (p : Path) (text : String) : Bool × Store :=
  if s.holds p text then (false, s) else (true, { s with documents := s.documents.insert p text })

/-- Drops the text of a file and nothing else. Answers whether there was one. -/
def dropText (s : Store) (p : Path) : Bool × Store :=
  (s.documents.contains p, { s with documents := s.documents.erase p })

/-- Sets the module of a file, and with it where the file calls built-in functions. -/
def putModule (s : Store) (p : Path) (m : Rego.Module) : Store :=
  { s with modules := s.modules.insert p m, calls := s.calls.insert p (.ofModule m) }

/-- Reads a file into the store: its text, and whether that was new. -/
def load (s : Store) (d : Disk) (p : Path) : Except FileError (String × Bool) × Store :=
  match d.readText p with
  | .ok text => (.ok (text, !s.holds p text), s.updateText p text)
  | .error fault => (.error (.read p fault), s)

/-! ## Contributions -/

def contribute (s : Store) (p : Path) (c : Contribution) : Store :=
  { s with contributions := s.contributions.insert p (((s.contributions.get? p).getD {}).set c) }

def replaceContributions (s : Store) (p : Path) (cs : List Contribution) : Store :=
  { s with contributions := s.contributions.insert p (.ofList cs) }

/-- Takes back what a file contributes to one category; its entry stays. -/
def withdraw (s : Store) (p : Path) (c : Category) : Store :=
  match s.contributions.get? p with
  | some contributed => { s with contributions := s.contributions.insert p (contributed.clear c) }
  | none => s

def contribution? (s : Store) (p : Path) (c : Category) : Option Contribution :=
  (s.contributions.get? p).bind (·.get? c)

/-- What all files contribute to a category. -/
def state (s : Store) (c : Category) : PathMap Contribution :=
  s.contributions.filterMap (·.get? c)

/-! ## Diagnostics -/

/-- The diagnostics to show for a file: its parse errors if there are any, otherwise the findings
across files followed by those of the file. -/
def merged (s : Store) (p : Path) : List Diagnostic :=
  match s.parseErrors.get? p with
  | some (e :: es) => e :: es
  | _ => (s.crossFindings.get? p).getD [] ++ (s.fileFindings.get? p).getD []

def callAt? (s : Store) (p : Path) (place : Position) : Option Rego.Call :=
  (s.calls.get? p).bind (·.find? place)

/-! ## Forgetting -/

def delete (s : Store) (p : Path) : Store :=
  { documents := s.documents.erase p
    modules := s.modules.erase p
    parseErrors := s.parseErrors.erase p
    fileFindings := s.fileFindings.erase p
    crossFindings := s.crossFindings.erase p
    calls := s.calls.erase p
    contributions := s.contributions.erase p }

end Store

end PolicyLint
