import PolicyLint.Text.Pieces
/-!
# Lines of a text

A line ends at a line feed, and one carriage return directly before that line feed belongs to the
line's end. A text that ends in a line feed has no further empty line.
-/

namespace PolicyLint

/-- Drops one carriage return at the end of a line. -/
def dropCarriageReturn (cs : List Char) : List Char :=
  if cs.getLast? = some '\r' then cs.dropLast else cs

/-- The lines of a text, without their ends. -/
def lines (cs : List Char) : List (List Char) :=
  let all := pieces '\n' cs
  all.dropLast.map dropCarriageReturn ++ all.getLast?.toList.filter (· ≠ [])

end PolicyLint
