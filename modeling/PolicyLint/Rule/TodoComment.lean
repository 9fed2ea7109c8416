import PolicyLint.Diagnostic.Basic
import PolicyLint.Rego.Module
import PolicyLint.Text.Blank
import PolicyLint.Text.WordChar
/-!
# The rule against TODO comments

A comment is flagged when its first word is TODO or FIXME, in any mixture of cases.
-/

namespace PolicyLint.TodoComment

/-- The words that are flagged, in lower case. -/
def flagged : List (List Char) :=
  ["todo".toList, "fixme".toList]

/-- Whether a text starts with `word`, which is in lower case, as a word of its own. -/
def startsWithWord (word cs : List Char) : Bool :=
  word.isPrefixOf (cs.map Char.toLower) && !(cs.drop word.length).head?.any isWordChar

def flags (c : Rego.Comment) : Bool :=
  flagged.any fun word => startsWithWord word (trimLeft c.text.toList)

def check (m : Rego.Module) : List Diagnostic :=
  (m.comments.filter flags).map fun c => .ofCode .todoComment c.range "Avoid TODO comments"

end PolicyLint.TodoComment
