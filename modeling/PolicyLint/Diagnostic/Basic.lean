import PolicyLint.Diagnostic.Code
import PolicyLint.Rego.Token
/-!
# Diagnostics

What is shown to the user at a range of a text.
-/

namespace PolicyLint

/-- The code of a diagnostic: a name, or a number as other tools use. -/
inductive DiagnosticCode
  | name (name : String)
  | number (n : Int)
deriving DecidableEq, Repr, Inhabited

/-- A finding as it is shown. -/
structure Diagnostic where
  range : Range := {}
  severity? : Option Severity := none
  code? : Option DiagnosticCode := none
  /-- the documentation of the rule -/
  href? : Option String := none
  source? : Option String := none
  message : String
deriving DecidableEq, Repr, Inhabited

namespace Diagnostic

def ofCode (code : Code) (range : Range) (message : String) : Diagnostic :=
  { range, message
    severity? := some code.severity
    code? := some (.name code.name)
    href? := code.documentation?
    source? := some ("regal/" ++ code.category) }

def ofParseError (e : Rego.ParseError) : Diagnostic :=
  ofCode .parseError e.range e.message

/-- The code of a diagnostic, if it is one of this linter's. -/
def knownCode? (d : Diagnostic) : Option Code :=
  match d.code? with
  | some (.name name) => Code.ofName? name
  | _ => none

@[simp] theorem knownCode?_ofCode (code : Code) (range : Range) (message : String) :
    (ofCode code range message).knownCode? = some code := by
  simp [knownCode?, ofCode, Code.ofName?_name]

end Diagnostic

end PolicyLint
