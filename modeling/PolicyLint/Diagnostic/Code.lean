/-!
# Codes of findings

Every finding of this linter carries a code. A code belongs to a category, has a severity, and all
but parse errors are documented on the web.
-/

namespace PolicyLint

inductive Severity
  | error
  | warning
deriving DecidableEq, Repr, Inhabited

/-- The kinds of findings, in their order. -/
inductive Code
  | parseError
  | todoComment
  | lineLength
  | preferSnakeCase
  | missingMetadata
  | unresolvedImport
deriving DecidableEq, Repr, Inhabited

namespace Code

def all : List Code :=
  [parseError, todoComment, lineLength, preferSnakeCase, missingMetadata, unresolvedImport]

def name : Code → String
  | parseError => "rego-parse-error"
  | todoComment => "todo-comment"
  | lineLength => "line-length"
  | preferSnakeCase => "prefer-snake-case"
  | missingMetadata => "missing-metadata"
  | unresolvedImport => "unresolved-import"

def category : Code → String
  | parseError => "parse"
  | todoComment | lineLength | preferSnakeCase => "style"
  | missingMetadata => "custom"
  | unresolvedImport => "imports"

/-- Parse errors are errors, every other finding is a warning. -/
def severity : Code → Severity
  | parseError => .error
  | _ => .warning

/-- Where a rule is documented; parse errors have no rule. -/
def documentation? (c : Code) : Option String :=
  if c = parseError then none
  else some ("https://docs.styra.com/regal/rules/" ++ c.category ++ "/" ++ c.name)

def ofName? (name : String) : Option Code :=
  all.find? (·.name == name)

theorem ofName?_name (c : Code) : ofName? c.name = some c := by
  cases c <;> decide

def rank : Code → Nat
  | parseError => 0
  | todoComment => 1
  | lineLength => 2
  | preferSnakeCase => 3
  | missingMetadata => 4
  | unresolvedImport => 5

end Code

end PolicyLint
