import PolicyLint.FileSystem.Path
/-!
# The disk

A disk maps absolute locations, given as lists of names, to files, folders and symbolic links. The
root is always a folder. A path is resolved name by name: every step but the first starts from a
folder, a `..` goes up from where the links so far have led, and a link is replaced by its target.
After forty links the resolution gives up, so that it ends on links that lead in a circle.
-/

namespace PolicyLint

/-- What there is at a location. -/
inductive Entry
  | file (bytes : ByteArray)
  | folder
  | link (target : Path)
deriving Inhabited

/-- Why a path cannot be used. -/
inductive DiskFault
  | notFound
  | notDirectory
  | isDirectory
  | tooManyLinks
  | notUtf8
deriving DecidableEq, Repr, Inhabited

def DiskFault.message : DiskFault → String
  | .notFound => "No such file or directory (os error 2)"
  | .notDirectory => "Not a directory (os error 20)"
  | .isDirectory => "Is a directory (os error 21)"
  | .tooManyLinks => "Too many levels of symbolic links (os error 40)"
  | .notUtf8 => "stream did not contain valid UTF-8"

abbrev Location := List String

/-- What there is at every location but the root. -/
structure Disk where
  entries : List (Location × Entry) := []
deriving Inhabited

/-- One step of the resolution of a path. -/
inductive Step
  /-- go to the entry of that name -/
  | name (s : String)
  /-- go to the folder above -/
  | up
  /-- stay, in what has to be a folder -/
  | stay
deriving DecidableEq, Repr, Inhabited

/-- The step a part of a path asks for; the root and a leading `.` ask for none. -/
def Step.ofPart? : Part → Option Step
  | .root | .current => none
  | .parent => some .up
  | .name s => some (.name s)

def Path.steps (p : Path) : List Step :=
  p.parts.filterMap Step.ofPart? ++ if p.asksForFolder then [.stay] else []

namespace Disk

def entry? (d : Disk) (l : Location) : Option Entry :=
  if l = [] then some .folder else d.entries.lookup l

def isFolder (d : Disk) (l : Location) : Bool :=
  match d.entry? l with
  | some .folder => true
  | _ => false

/-- How many links the resolution of a path may follow. -/
def maxLinks : Nat := 40

/-- Resolves steps from a location that holds no link. At a link, `follow` goes on from where the
link starts, with the steps of its target before those that are left. -/
def walk (d : Disk) (follow : Location → List Step → Except DiskFault Location)
    (here : Location) : List Step → Except DiskFault Location
  | [] => .ok here
  | step :: rest =>
    if d.isFolder here then
      match step with
      | .stay => walk d follow here rest
      | .up => walk d follow here.dropLast rest
      | .name s =>
        match d.entry? (here ++ [s]) with
        | none => .error .notFound
        | some (.link target) => follow (if target.isAbsolute then [] else here) (target.steps ++ rest)
        | some _ => walk d follow (here ++ [s]) rest
    else .error .notDirectory

/-- Resolves steps from a location that holds no link, following at most the given number of
links. -/
def resolveFrom (d : Disk) : Nat → Location → List Step → Except DiskFault Location
  | 0 => d.walk fun _ _ => .error .tooManyLinks
  | links + 1 => d.walk (d.resolveFrom links)

/-- The location a path leads to, through all links. Only absolute paths lead anywhere. -/
def resolve (d : Disk) (p : Path) : Except DiskFault Location :=
  if p.isAbsolute then d.resolveFrom maxLinks [] p.steps else .error .notFound

def pathExists (d : Disk) (p : Path) : Bool :=
  (d.resolve p).isOk

/-- The path without links, `.` and `..` that a path leads to. -/
def realPath? (d : Disk) (p : Path) : Option Path :=
  (d.resolve p).toOption.map Path.ofNames

def textAt (d : Disk) (l : Location) : Except DiskFault String :=
  match d.entry? l with
  | some (.file bytes) =>
    match String.fromUTF8? bytes with
    | some text => .ok text
    | none => .error .notUtf8
  | some .folder => .error .isDirectory
  | some (.link _) => .error .tooManyLinks
  | none => .error .notFound

def readText (d : Disk) (p : Path) : Except DiskFault String :=
  (d.resolve p).bind d.textAt

/-- The real path of the folder that holds the last part of a path. -/
def realParent? (d : Disk) (p : Path) : Option Location :=
  if p.isAbsolute then
    (d.resolveFrom maxLinks [] (p.parts.dropLast.filterMap Step.ofPart?)).toOption
  else none

/-- The name under which a file is known. A path that leads nowhere keeps its last part in the real
path of its folder, so that a file that was removed goes by the same name as before. A path whose
folder is gone too stays as it is. -/
def canonical (d : Disk) (p : Path) : Path :=
  match d.realPath? p with
  | some real => real
  | none =>
    match p.fileName?, d.realParent? p with
    | some name, some folder => Path.ofNames (folder ++ [name])
    | _, _ => p

end Disk

end PolicyLint
