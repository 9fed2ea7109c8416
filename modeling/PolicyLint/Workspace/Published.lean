import PolicyLint.Diagnostic.Basic
import PolicyLint.FileSystem.PathMap
/-!
# What the client has been sent

The diagnostics last sent for each file. A file for which nothing was ever sent counts as having
none, so that only changes are sent.
-/

namespace PolicyLint

/-- The diagnostics last sent, by file. -/
abbrev Published := PathMap (List Diagnostic)

namespace Published

/-- Whether the client already shows exactly these diagnostics for a file. -/
def shows (sent : Published) (p : Path) (diagnostics : List Diagnostic) : Bool :=
  match sent.get? p with
  | some old => old == diagnostics
  | none => diagnostics.isEmpty

/-- Notes the diagnostics sent for a file, if they change what the client shows. Answers whether
they do. -/
def update (sent : Published) (p : Path) (diagnostics : List Diagnostic) : Bool × Published :=
  if sent.shows p diagnostics then (false, sent) else (true, sent.insert p diagnostics)

/-- Forgets a file. Answers whether anything was ever sent for it. -/
def remove (sent : Published) (p : Path) : Bool × Published :=
  (sent.contains p, sent.erase p)

end Published

end PolicyLint
