import PolicyLint.CrossFile.Findings
import PolicyLint.Rego.Parse
import PolicyLint.Rule.Report
/-!
# Capabilities

What an analyzer works with: a parser, a linter, and an evaluator for some of the categories. They
may keep a state of their own, a linter or evaluator may fail, and while a parser or linter is at
work on a file, another party may give that file new texts.
-/

namespace PolicyLint

/-- What comes of a call to a parser or linter. -/
structure Outcome (σ α : Type) where
  value : α
  /-- the texts that the file was given during the call, in order -/
  edits : List String := []
  /-- the state after the call -/
  host : σ

/-- A parser, a linter, and evaluators, with a state in `σ`. -/
structure Capabilities (σ : Type) where
  parse : σ → Path → String → Outcome σ (Except (List Rego.ParseError) Rego.Module)
  lint : σ → Path → Rego.Module → String → Settings → Outcome σ (Except EvaluationFailure Report)
  /-- the categories with an evaluator, in order -/
  categories : List Category
  evaluate : σ → Category → PathMap Contribution →
    Except EvaluationFailure (List (Path × Diagnostic)) × σ

namespace Capabilities

/-- The capabilities of this linter, which have no state and never fail. -/
def standard : Capabilities Unit where
  parse _ _ text := { value := Rego.parse text, host := () }
  lint _ _ m text settings := { value := .ok (.of FileRule.standard m text settings), host := () }
  categories := Category.all
  evaluate _ c state := (.ok (c.evaluate state), ())

/-- The ordered findings of a category over the contributions of all files. A category without an
evaluator has none. -/
def findings {σ : Type} (cap : Capabilities σ) (host : σ) (c : Category)
    (state : PathMap Contribution) :
    Except EvaluationFailure (List (Path × Diagnostic)) × σ :=
  if cap.categories.contains c then
    let (result, host) := cap.evaluate host c state
    (result.map sortFindings, host)
  else (.ok [], host)

@[simp] theorem findings_standard (c : Category) (state : PathMap Contribution) :
    standard.findings () c state = (.ok (c.findings state), ()) := by
  cases c <;> rfl

end Capabilities

/-! ## Disturbances -/

/-- The calls during which a file may be given a new text. -/
inductive Stage
  | parse
  | lint
deriving DecidableEq, Repr, Inhabited

/-- A new text for a file, given during the next call of a stage for it. -/
structure PendingEdit where
  stage : Stage
  path : Path
  text : String
deriving Repr, Inhabited

/-- What is to go wrong: whether the linter fails, which evaluators fail, and the edits that happen
during calls, the oldest first. -/
structure Disturbances where
  lintFails : Bool := false
  failing : List Category := []
  edits : List PendingEdit := []
deriving Repr, Inhabited

namespace Disturbances

/-- Whether a pending edit waits for a call of a stage for a file. -/
def isFor (stage : Stage) (p : Path) (e : PendingEdit) : Bool :=
  e.stage == stage && e.path == p

/-- Takes the oldest edit that waits for a call. -/
def take (d : Disturbances) (stage : Stage) (p : Path) : Option String × Disturbances :=
  ((d.edits.find? (isFor stage p)).map (·.text),
    { d with edits := d.edits.eraseP (isFor stage p) })

/-- The failure of a linter or an evaluator that is made to fail. -/
def failure (rule : String) : EvaluationFailure :=
  { rule, reason := "engine unavailable" }

end Disturbances

/-- The standard capabilities, disturbed, with evaluators for the given categories only. -/
def Capabilities.disturbed (categories : List Category) : Capabilities Disturbances where
  parse host p text :=
    let (edit?, host) := host.take .parse p
    { value := Rego.parse text, edits := edit?.toList, host }
  lint host p m text settings :=
    let (edit?, host) := host.take .lint p
    { value :=
        if host.lintFails then .error (Disturbances.failure "lint")
        else .ok (.of FileRule.standard m text settings)
      edits := edit?.toList, host }
  categories := Category.all.filter categories.contains
  evaluate host c state :=
    (if host.failing.contains c then .error (Disturbances.failure c.name)
      else .ok (c.evaluate state), host)

end PolicyLint
