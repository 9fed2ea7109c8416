import PolicyLint.Diagnostic.Basic
import PolicyLint.Text.Lines
/-!
# The rule on the length of lines

A line with more characters than the maximum is flagged. The range of the finding holds the
characters beyond the maximum.
-/

namespace PolicyLint.LineLength

def finding (max : Nat) (line : List Char) (number : Nat) : Diagnostic :=
  let column (n : Nat) : Position := ⟨.ofNat number, .ofNat n⟩
  .ofCode .lineLength ⟨column (utf16Length (line.take max)), column (utf16Length line)⟩
    ("Line is " ++ toString line.length ++ " characters long, the maximum is " ++ toString max)

/-- The findings of the rule, in the order of the lines. -/
def check (max : Nat) (text : String) : List Diagnostic :=
  (lines text.toList).zipIdx.filterMap fun (line, number) =>
    if max < line.length then some (finding max line number) else none

end PolicyLint.LineLength
