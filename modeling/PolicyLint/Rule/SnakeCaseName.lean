import PolicyLint.Diagnostic.Basic
import PolicyLint.Rego.Module
import PolicyLint.Text.SnakeCase
/-!
# The rule on rule names

The name of a rule is flagged unless it is in snake case, leading underscores aside. The finding
suggests the snake case of the name.
-/

namespace PolicyLint.SnakeCaseName

def flags (name : String) : Bool :=
  !SnakeCase.accepts name.toList

/-- The name suggested instead. -/
def suggestion (name : String) : String :=
  .ofList (SnakeCase.ofIdent name.toList)

def check (m : Rego.Module) : List Diagnostic :=
  (m.rules.filter fun r => flags r.name).map fun r =>
    .ofCode .preferSnakeCase r.head
      ("Rule `" ++ r.name ++ "` should be snake_case, e.g. `" ++ suggestion r.name ++ "`")

end PolicyLint.SnakeCaseName
