import PolicyLint.FileSystem.PathMap
import PolicyLint.Ignore.Rules
import PolicyLint.FileSystem.Disk
/-!
# Discovery of policy files

Discovery lists the policy files below the roots of a workspace. It goes through folders and not
through links, except that a root may be a link. Hidden names are skipped, and so is what ignore
files say: `.ignore` files everywhere, and inside a repository, which is a folder with an entry
`.git` and all that is below it, also `.gitignore` files and the repository's `exclude` file. The
ignore files of the folders above a root count too; a root itself is always listed.

The nearest file of a kind that says anything decides, and `.ignore` files go before `.gitignore`
files and these before the `exclude` file. Files of a repository say nothing about what is inside
another repository below.
-/

namespace PolicyLint.Discovery

/-- The folders above a location, the nearest first, each with the names that lead from it to the
location. -/
def above (l : Location) : List (Location × List String) :=
  (List.range l.length).reverse.map fun n => (l.take n, l.drop n)

/-- The rules of an ignore file, given by its location. -/
def rulesAt (d : Disk) (l : Location) : List Ignore.Rule :=
  match d.resolve (Path.ofNames l) with
  | .ok real =>
    match d.textAt real with
    | .ok text => Ignore.rulesOf text
    | .error _ => []
  | .error _ => []

def isRepository (d : Disk) (folder : Location) : Bool :=
  d.pathExists (Path.ofNames (folder ++ [".git"]))

/-- The folders above a location up to the top of the nearest repository; none if the location is
in no repository. -/
def insideRepository (d : Disk) (l : Location) : List (Location × List String) :=
  let folders := above l
  if folders.any fun x => isRepository d x.1 then
    folders.takeWhile (fun x => !isRepository d x.1) ++
      (folders.find? fun x => isRepository d x.1).toList
  else []

/-- What the files named `file` in the given folders say about an entry; the first that says
anything decides. -/
def verdictBy? (d : Disk) (file : Location) (isFolder : Bool)
    (folders : List (Location × List String)) : Option Ignore.Verdict :=
  folders.findSome? fun (folder, names) =>
    Ignore.verdict? (rulesAt d (folder ++ file)) isFolder
      (Utf8.encode ("/".intercalate names).toList)

/-- What all ignore files say about the entry at a location. -/
def verdict? (d : Disk) (l : Location) (isFolder : Bool) : Option Ignore.Verdict :=
  let inside := insideRepository d l
  (verdictBy? d [".ignore"] isFolder (above l)).or <|
    (verdictBy? d [".gitignore"] isFolder inside).or <|
      verdictBy? d [".git", "info", "exclude"] isFolder inside

def isHidden (name : String) : Bool :=
  name.toList.head? == some '.'

def skips (d : Disk) (l : Location) : Bool :=
  match verdict? d l (d.isFolder l) with
  | some .skip => true
  | some .keep => false
  | none => l.getLast?.any isHidden

/-- Whether discovery, started in the folder `top`, comes to the entry at a location below it. -/
def reaches (d : Disk) (top l : Location) : Bool :=
  top.isPrefixOf l && top.length < l.length &&
    ((List.range l.length).filter (top.length < ·)).all (fun n => d.isFolder (l.take n)) &&
    ((List.range (l.length + 1)).filter (top.length < ·)).all fun n => !skips d (l.take n)

/-- The real path of an entry with the name of a policy file. -/
def policyFileAt? (d : Disk) (l : Location) : Option Path :=
  let p := Path.ofNames l
  if p.isPolicy then d.realPath? p else none

/-- The policy files below one root. -/
def below (d : Disk) (root : Path) : List Path :=
  match d.resolve root with
  | .error _ => []
  | .ok top =>
    let self := if root.isPolicy then [Path.ofNames top] else []
    if d.isFolder top then
      self ++ ((d.entries.map (·.1)).filter (reaches d top)).filterMap (policyFileAt? d)
    else self

/-- The policy files below all roots, each once and in order. -/
def discover (d : Disk) (roots : List Path) : List Path :=
  (PathSet.ofList (roots.flatMap (below d))).keys

end PolicyLint.Discovery
