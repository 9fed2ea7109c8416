import PolicyLint.CrossFile.Facts
import PolicyLint.Diagnostic.Basic
import PolicyLint.FileSystem.PathMap
/-!
# The rule on missing metadata

A package is documented when any of the files that declare it annotates it, and a rule when any of
its definitions in its package is annotated; whether the package is documented does not matter for
its rules. What is not documented is reported once, at the definition that comes first by file and
position.
-/

namespace PolicyLint.MissingMetadata

/-- What can be documented: a package, or a rule of a package. -/
inductive Subject
  | package (package : String)
  | rule (package rule : String)
deriving DecidableEq, Repr, Inhabited

/-- What is said about a subject that is not documented. -/
def Subject.message : Subject → String
  | package p => "Package `" ++ p ++ "` is missing metadata"
  | rule _ r => "Rule `" ++ r ++ "` is missing metadata"

/-- Packages come first; subjects of a kind are ordered by their names. -/
def Subject.order : Subject → Subject → Ordering
  | package p, package q => compare p q
  | package _, rule _ _ => .lt
  | rule _ _, package _ => .gt
  | rule p r, rule q s => (compare p q).then (compare r s)

/-- A place where a subject is declared. -/
structure Declaration where
  subject : Subject
  annotated : Bool
  path : Path
  location : Range
deriving Repr, Inhabited

def declarationsIn (path : Path) (f : MetadataFacts) : List Declaration :=
  ⟨.package f.package, f.annotated, path, f.location⟩ ::
    f.rules.map fun r => ⟨.rule f.package r.name, r.annotated, path, r.location⟩

def declarations (state : PathMap Contribution) : List Declaration :=
  state.entries.flatMap fun (path, c) =>
    match c with
    | .missingMetadata f => declarationsIn path f
    | .unresolvedImport _ => []

/-- Whether a declaration comes before another by file and position. -/
def Declaration.isBefore (a b : Declaration) : Bool :=
  match a.path.order b.path with
  | .lt => true
  | .eq => decide (a.location.start < b.location.start)
  | .gt => false

/-- Of the declarations of a list that begins with `first`, the one that comes first; of several,
the one listed first. -/
def earliest (first : Declaration) (others : List Declaration) : Declaration :=
  others.foldl (fun best d => if d.isBefore best then d else best) first

/-- Adds a subject to an ascending list of subjects without repetition. -/
def insertSubject (s : Subject) : List Subject → List Subject
  | [] => [s]
  | t :: ts =>
    match s.order t with
    | .lt => s :: t :: ts
    | .eq => t :: ts
    | .gt => t :: insertSubject s ts

/-- The subjects of a list of declarations, ascending and each once. -/
def subjects (ds : List Declaration) : List Subject :=
  ds.foldr (fun d => insertSubject d.subject) []

/-- The finding about a subject, if no declaration documents it. -/
def finding? (ds : List Declaration) (s : Subject) : Option (Path × Diagnostic) :=
  match ds.filter (·.subject = s) with
  | [] => none
  | d :: rest =>
    if (d :: rest).any (·.annotated) then none
    else
      let first := earliest d rest
      some (first.path, .ofCode .missingMetadata first.location s.message)

def evaluate (state : PathMap Contribution) : List (Path × Diagnostic) :=
  let ds := declarations state
  (subjects ds).filterMap (finding? ds)

end PolicyLint.MissingMetadata
