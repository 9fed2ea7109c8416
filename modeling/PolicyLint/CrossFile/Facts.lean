import PolicyLint.Rego.Module
import PolicyLint.Settings
/-!
# Facts for rules across files

Some rules can only be decided by looking at every file at once. Each file contributes facts to
each such rule: which packages and rules it documents, and what it defines and imports.
-/

namespace PolicyLint

/-- The rules that look at every file, in their order. -/
inductive Category
  | missingMetadata
  | unresolvedImport
deriving DecidableEq, Repr, Inhabited

namespace Category

def all : List Category :=
  [missingMetadata, unresolvedImport]

def code : Category → Code
  | missingMetadata => .missingMetadata
  | unresolvedImport => .unresolvedImport

/-- The name of a category is that of its code. -/
def name (c : Category) : String :=
  c.code.name

def ofName? (name : String) : Option Category :=
  all.find? (·.name == name)

theorem code_inj {a b : Category} (h : a.code = b.code) : a = b := by
  cases a <;> cases b <;> simp_all [code]

end Category

/-- One definition of a public rule. -/
structure RuleFact where
  name : String
  annotated : Bool
  location : Range
deriving DecidableEq, Repr, Inhabited

/-- Whether a file's package and public rules are annotated. -/
structure MetadataFacts where
  package : String
  annotated : Bool
  location : Range
  rules : List RuleFact
deriving DecidableEq, Repr, Inhabited

def MetadataFacts.ofModule (m : Rego.Module) : MetadataFacts :=
  { package := m.package.name
    annotated := m.package.annotated
    location := m.package.keyword
    rules := (m.rules.filter fun r => !r.isPrivate).map fun r => ⟨r.name, r.annotated, r.head⟩ }

/-- One import; the target is without the leading `data`. -/
structure ImportFact where
  target : String
  location : Range
deriving DecidableEq, Repr, Inhabited

/-- What a file defines, and what it imports from `data`. -/
structure ImportFacts where
  package : String
  /-- the names of the rules, ascending and each once -/
  rules : List String
  imports : List ImportFact
deriving DecidableEq, Repr, Inhabited

/-- What an import takes from `data`, if it does. -/
def ImportFact.ofImport? (i : Rego.Import) : Option ImportFact :=
  match i.path with
  | "data" :: part :: parts => some ⟨Rego.dotted (part :: parts), i.range⟩
  | _ => none

def ImportFacts.ofModule (m : Rego.Module) : ImportFacts :=
  { package := m.package.name
    rules := sortedSet (m.rules.map (·.name))
    imports := m.imports.filterMap ImportFact.ofImport? }

/-- What one file contributes to one category. -/
inductive Contribution
  | missingMetadata (facts : MetadataFacts)
  | unresolvedImport (facts : ImportFacts)
deriving DecidableEq, Repr, Inhabited

namespace Contribution

def category : Contribution → Category
  | missingMetadata _ => .missingMetadata
  | unresolvedImport _ => .unresolvedImport

def ofModule (c : Category) (m : Rego.Module) : Contribution :=
  match c with
  | .missingMetadata => missingMetadata (.ofModule m)
  | .unresolvedImport => unresolvedImport (.ofModule m)

end Contribution

end PolicyLint
