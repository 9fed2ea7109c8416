import PolicyLint.CrossFile.Facts
import PolicyLint.Rule.LineLength
import PolicyLint.Rule.SnakeCaseName
import PolicyLint.Rule.TodoComment
/-!
# The report on one file

The rules that look at one file at a time, and all that linting a file yields: the findings of the
rules that are on, ordered by where they start, and what the file contributes to the rules across
files.
-/

namespace PolicyLint

/-- The rules that look at one file at a time. -/
inductive FileRule
  | todoComment
  | lineLength
  | preferSnakeCase
deriving DecidableEq, Repr, Inhabited

namespace FileRule

/-- The rules a file is checked by, in order. -/
def standard : List FileRule :=
  [todoComment, lineLength, preferSnakeCase]

def code : FileRule → Code
  | todoComment => .todoComment
  | lineLength => .lineLength
  | preferSnakeCase => .preferSnakeCase

def ofName? (name : String) : Option FileRule :=
  standard.find? (·.code.name == name)

def check (m : Rego.Module) (text : String) (s : Settings) : FileRule → List Diagnostic
  | todoComment => TodoComment.check m
  | lineLength => LineLength.check s.maxLineLength text
  | preferSnakeCase => SnakeCaseName.check m

end FileRule

/-- What linting one file yields. -/
structure Report where
  diagnostics : List Diagnostic := []
  contributions : List Contribution := []
deriving DecidableEq, Repr, Inhabited

/-- Orders findings by where they start; findings that start together keep their order. -/
def sortByStart (diagnostics : List Diagnostic) : List Diagnostic :=
  diagnostics.mergeSort fun a b => decide (a.range.start ≤ b.range.start)

/-- Lints one file by the given rules. -/
def Report.of (rules : List FileRule) (m : Rego.Module) (text : String) (s : Settings) : Report :=
  { diagnostics := sortByStart
      ((rules.filter fun r => s.isEnabled r.code).flatMap fun r => r.check m text s)
    contributions := Category.all.map fun c => .ofModule c m }

end PolicyLint
