import PolicyLint.Text.Position
/-!
# Modules

What a linter needs to know about one policy file: its package declaration, imports, rule heads,
metadata annotations, comments, and the calls made in its bodies.
-/

namespace PolicyLint.Rego

/-- The package declaration; `keyword` is the range of the word `package`. -/
structure Package where
  path : List String := []
  keyword : Range := {}
  annotated : Bool := false
deriving DecidableEq, Repr, Inhabited

/-- The parts of a path joined by points. -/
def dotted (path : List String) : String :=
  ".".intercalate path

def Package.name (p : Package) : String :=
  dotted p.path

/-- An import; its path is the full reference, such as `data`, `lib`, `util`. -/
structure Import where
  path : List String
  alias? : Option String
  range : Range
deriving DecidableEq, Repr, Inhabited

def Import.reference (i : Import) : String :=
  dotted i.path

/-- A rule; `head` is the range of its name. -/
structure Rule where
  name : String
  head : Range
  isDefault : Bool
  annotated : Bool
deriving DecidableEq, Repr, Inhabited

/-- A rule is private when its name starts with an underscore. -/
def Rule.isPrivate (r : Rule) : Bool :=
  r.name.toList.head? == some '_'

/-- A metadata block: a run of comments of which the first says `METADATA`. -/
structure Annotation where
  scope? : Option String
  range : Range
deriving DecidableEq, Repr, Inhabited

namespace Annotation

/-- Without a scope of its own a block takes that of what it stands above. -/
def appliesToPackage (a : Annotation) : Bool :=
  a.scope?.all fun s => s == "package" || s == "subpackages"

/-- Without a scope of its own a block takes that of what it stands above. -/
def appliesToRule (a : Annotation) : Bool :=
  a.scope?.all fun s => s == "rule" || s == "document"

/-- Whether the block ends on the line directly above `line`. -/
def endsAbove (a : Annotation) (line : UInt32) : Bool :=
  a.range.stop.line + 1 == line

end Annotation

/-- A comment, without its `#`. -/
structure Comment where
  text : String
  range : Range
deriving DecidableEq, Repr, Inhabited

/-- A call: a reference directly followed by an opening parenthesis, other than a rule head. -/
structure Call where
  name : String
  range : Range
deriving DecidableEq, Repr, Inhabited

/-- The structure of one policy file. -/
structure Module where
  package : Package := {}
  imports : List Import := []
  rules : List Rule := []
  annotations : List Annotation := []
  comments : List Comment := []
  calls : List Call := []
deriving DecidableEq, Repr, Inhabited

end PolicyLint.Rego
