import PolicyLint.Rego.Builtin
import PolicyLint.Rego.Module
/-!
# The index of built-in calls

For each line on which a call to a known built-in function starts, those calls ordered by column.
Lines are ascending and a line without such a call has no entry.
-/

namespace PolicyLint.Rego

/-- Calls to known built-in functions, by line. -/
abbrev CallIndex := List (UInt32 × List Call)

namespace CallIndex

/-- Adds a call at the end of the calls of its line. -/
def insert (call : Call) : CallIndex → CallIndex
  | [] => [(call.range.start.line, [call])]
  | (line, calls) :: rest =>
    if call.range.start.line = line then (line, calls ++ [call]) :: rest
    else if call.range.start.line < line then
      (call.range.start.line, [call]) :: (line, calls) :: rest
    else (line, calls) :: insert call rest

/-- Orders the calls of a line by column; calls at one column keep their order. -/
def sortLine (calls : List Call) : List Call :=
  calls.mergeSort fun a b => a.range.start.character ≤ b.range.start.character

def ofModule (m : Module) : CallIndex :=
  let known := m.calls.filter fun call => (Builtin.lookup call.name).isSome
  (known.foldl (fun index call => CallIndex.insert call index) []).map fun (line, calls) =>
    (line, sortLine calls)

/-- The first call of the position's line whose range holds the position. -/
def find? (index : CallIndex) (p : Position) : Option Call := do
  let calls ← index.lookup p.line
  calls.find? (·.range.contains p)

end CallIndex

end PolicyLint.Rego
