import PolicyLint.Workspace.Discovery
/-!
# The layout of a workspace

The roots of a workspace and the policy files known below them.
-/

namespace PolicyLint

/-- The roots and the known files of a workspace. -/
structure Layout where
  roots : PathSet := .empty
  /-- the known policy files -/
  known : PathSet := .empty
deriving Inhabited

namespace Layout

def addRoot (l : Layout) (root : Path) : Layout :=
  { l with roots := l.roots.add root }

def addRoots (l : Layout) (roots : List Path) : Layout :=
  roots.foldl addRoot l

/-- Whether a file lies below a root. -/
def covers (l : Layout) (file : Path) : Bool :=
  l.roots.keys.any file.isWithin

/-- The known files that a removed root leaves without a root. -/
def uncovered (l : Layout) (root : Path) : List Path :=
  let rest : Layout := { l with roots := l.roots.erase root }
  l.known.keys.filter fun f => f.isWithin root && !rest.covers f

/-- Forgets a root. Answers the known files below it that no other root covers; they are forgotten
too. -/
def removeRoot (l : Layout) (root : Path) : List Path × Layout :=
  let removed := l.uncovered root
  (removed, { roots := l.roots.erase root
              known := l.known.filter fun f _ => !removed.any (f == ·) })

/-- Replaces the known files by those that discovery finds, and answers them in order. -/
def discover (l : Layout) (d : Disk) : List Path × Layout :=
  let files := Discovery.discover d l.roots.keys
  (files, { l with known := .ofList files })

/-- Adds a file, unless it is no policy file. Answers whether it was new. -/
def addFile (l : Layout) (file : Path) : Bool × Layout :=
  if file.isPolicy then (!l.known.contains file, { l with known := l.known.add file })
  else (false, l)

/-- Forgets a file. Answers whether it was known. -/
def removeFile (l : Layout) (file : Path) : Bool × Layout :=
  (l.known.contains file, { l with known := l.known.erase file })

/-- The known files that are `folder` or lie below it. -/
def matching (l : Layout) (folder : Path) : List Path :=
  l.known.keys.filter (·.isWithin folder)

end Layout

end PolicyLint
