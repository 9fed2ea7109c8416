import PolicyLint.CrossFile.MissingMetadata
import PolicyLint.CrossFile.UnresolvedImport
/-!
# Findings across files

The findings of a category over the contributions of all files, ordered by file, start, code and
message.
-/

namespace PolicyLint

/-- The findings of a category, in the order in which its rule makes them. -/
def Category.evaluate : Category → PathMap Contribution → List (Path × Diagnostic)
  | .missingMetadata => MissingMetadata.evaluate
  | .unresolvedImport => UnresolvedImport.evaluate

/-- The place of a diagnostic's code in the order; one that is not this linter's comes first. -/
def codeRank (d : Diagnostic) : Nat :=
  (d.knownCode?.map (·.rank + 1)).getD 0

/-- The order of findings: by file, start, code and message. -/
def orderFindings (a b : Path × Diagnostic) : Ordering :=
  (a.1.order b.1).then <| (a.2.range.start.order b.2.range.start).then <|
    (compare (codeRank a.2) (codeRank b.2)).then (compare a.2.message b.2.message)

/-- Puts findings in order; findings that tie keep their order. -/
def sortFindings (findings : List (Path × Diagnostic)) : List (Path × Diagnostic) :=
  findings.mergeSort fun a b => (orderFindings a b).isLE

/-- The ordered findings of a category. -/
def Category.findings (c : Category) (state : PathMap Contribution) : List (Path × Diagnostic) :=
  sortFindings (c.evaluate state)

/-- An evaluation that failed: the rule, and why. -/
structure EvaluationFailure where
  rule : String
  reason : String
deriving DecidableEq, Repr, Inhabited

def EvaluationFailure.message (f : EvaluationFailure) : String :=
  f.rule ++ " failed: " ++ f.reason

end PolicyLint
