import PolicyLint.CrossFile.Facts
import PolicyLint.Diagnostic.Basic
import PolicyLint.FileSystem.PathMap
/-!
# The rule on unresolved imports

An import of `data` resolves when it names a package, a rule of a package, something that packages
lie below, or something inside a rule. All other imports are reported, each where it stands.
-/

namespace PolicyLint.UnresolvedImport

/-- Whether a dotted name lies strictly below another one. -/
def isNestedIn (name outer : String) : Bool :=
  (outer.toList ++ ['.']).isPrefixOf name.toList

def factsOf (state : PathMap Contribution) : List (Path × ImportFacts) :=
  state.entries.filterMap fun (path, c) =>
    match c with
    | .unresolvedImport f => some (path, f)
    | .missingMetadata _ => none

def packages (facts : List (Path × ImportFacts)) : List String :=
  facts.map fun x => x.2.package

/-- The rules of every file, each with its package in front. -/
def rules (facts : List (Path × ImportFacts)) : List String :=
  facts.flatMap fun x => x.2.rules.map fun r => x.2.package ++ "." ++ r

def resolves (facts : List (Path × ImportFacts)) (target : String) : Bool :=
  (packages facts).contains target || (rules facts).contains target ||
    (packages facts).any (fun p => isNestedIn p target) ||
    (rules facts).any fun r => isNestedIn target r

/-- The finding about an import that does not resolve. -/
def finding (path : Path) (i : ImportFact) : Path × Diagnostic :=
  (path, .ofCode .unresolvedImport i.location ("Unresolved import `data." ++ i.target ++ "`"))

def evaluate (state : PathMap Contribution) : List (Path × Diagnostic) :=
  let facts := factsOf state
  facts.flatMap fun (path, f) =>
    (f.imports.filter fun i => !resolves facts i.target).map (finding path)

end PolicyLint.UnresolvedImport
