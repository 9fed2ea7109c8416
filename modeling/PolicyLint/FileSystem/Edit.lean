import PolicyLint.FileSystem.Disk
/-!
# Changing the disk

Writing files and making folders with the folders above them, making links, and removing. A change
that cannot be made leaves the disk as it is, except that folders made on the way stay.
-/

namespace PolicyLint.Disk

def put (d : Disk) (l : Location) (e : Entry) : Disk :=
  if l = [] then d else ⟨(l, e) :: d.entries.filter fun x => x.1 != l⟩

/-- Removes the entry at a location and all entries below it. -/
def removeAt (d : Disk) (l : Location) : Disk :=
  ⟨d.entries.filter fun x => !l.isPrefixOf x.1⟩

theorem lookup_filter (keep : Location → Bool) (entries : List (Location × Entry)) (m : Location) :
    (entries.filter fun x => keep x.1).lookup m =
      if keep m = true then entries.lookup m else none := by
  induction entries with
  | nil => exact (ite_self _).symm
  | cons x entries ih =>
    by_cases hx : keep x.1 = true
    · rw [List.filter_cons_of_pos (by exact hx), List.lookup_cons, List.lookup_cons, ih]
      cases hm : m == x.1 with
      | true =>
        have hkeep : keep m = true := by rwa [beq_iff_eq.1 hm]
        rw [if_pos hkeep, if_pos hkeep]
      | false => rfl
    · rw [List.filter_cons_of_neg (by exact hx), List.lookup_cons, ih]
      cases hm : m == x.1 with
      | true =>
        have hkeep : ¬keep m = true := by rwa [beq_iff_eq.1 hm]
        rw [if_neg hkeep, if_neg hkeep]
      | false => rfl

theorem entry?_put (d : Disk) {l : Location} (hl : l ≠ []) (e : Entry) (m : Location) :
    entry? (d.put l e) m = if m = l then some e else d.entry? m := by
  unfold put entry?
  rw [if_neg hl]
  by_cases hm : m = l
  · rw [if_pos hm, hm, if_neg hl, List.lookup_cons_self]
  · have hne : (m == l) = false := beq_eq_false_iff_ne.2 hm
    rw [if_neg hm, List.lookup_cons, hne]
    dsimp only
    rw [lookup_filter (fun k => k != l), if_pos (bne_iff_ne.2 hm)]

theorem entry?_removeAt (d : Disk) {l : Location} (hl : l ≠ []) (m : Location) :
    entry? (d.removeAt l) m = if l.isPrefixOf m = true then none else d.entry? m := by
  unfold removeAt entry?
  rw [lookup_filter fun k => !l.isPrefixOf k]
  by_cases hm : m = []
  · have hnot : ¬l.isPrefixOf m = true := by
      cases l with
      | nil => exact absurd rfl hl
      | cons s l => rw [hm]; simp
    rw [if_pos hm, if_neg hnot, if_pos hm]
  · rw [if_neg hm, if_neg hm]
    cases l.isPrefixOf m <;> rfl

/-- No name holds a character that ends names. -/
def isName (s : String) : Bool :=
  !s.toList.contains '\x00'

/-- Follows steps from a location and makes the folders that are missing. Answers the disk and the
location reached, if one was. -/
def makeFoldersFrom (d : Disk) (here : Location) : List Step → Disk × Option Location
  | [] => (d, if d.isFolder here then some here else none)
  | .stay :: rest => makeFoldersFrom d here rest
  | .up :: rest => makeFoldersFrom d here.dropLast rest
  | .name s :: rest =>
    match d.entry? (here ++ [s]) with
    | none =>
      if isName s then makeFoldersFrom (d.put (here ++ [s]) .folder) (here ++ [s]) rest
      else (d, none)
    | some .folder => makeFoldersFrom d (here ++ [s]) rest
    | some (.link _) =>
      match d.resolveFrom maxLinks here [.name s, .stay] with
      | .ok l => if d.isFolder l then makeFoldersFrom d l rest else (d, none)
      | .error _ => (d, none)
    | some (.file _) => (d, none)

/-- Makes a folder and those above it. -/
def makeFolders (d : Disk) (p : Path) : Disk × Option Location :=
  if p.isAbsolute then d.makeFoldersFrom [] p.steps else (d, none)

/-- Makes the folder that holds the last part of a path. -/
def makeParent (d : Disk) (p : Path) : Disk × Option Location :=
  if p.isAbsolute then d.makeFoldersFrom [] (p.parts.dropLast.filterMap Step.ofPart?)
  else (d, none)

/-- The location of the file that writing to `name` in the folder `here` sets: that of an existing
file, or a free one; a link is followed, also to a free location. -/
def writable? (d : Disk) (links : Nat) (here : Location) (name : String) : Option Location :=
  match d.entry? (here ++ [name]) with
  | none => if isName name then some (here ++ [name]) else none
  | some (.file _) => some (here ++ [name])
  | some .folder => none
  | some (.link target) =>
    match links with
    | 0 => none
    | links + 1 =>
      if target.asksForFolder then none
      else
        let base := if target.isAbsolute then [] else here
        match target.fileName?,
            d.resolveFrom links base (target.parts.dropLast.filterMap Step.ofPart?) with
        | some last, .ok folder => if d.isFolder folder then d.writable? links folder last else none
        | _, _ => none

/-- Writes a file; the folders above it are made, and links are followed. -/
def write (d : Disk) (p : Path) (bytes : ByteArray) : Disk :=
  match d.makeParent p with
  | (d, some folder) =>
    match p.fileName? with
    | some name =>
      if p.asksForFolder then d
      else match d.writable? maxLinks folder name with
        | some l => d.put l (.file bytes)
        | none => d
    | none => d
  | (d, none) => d

/-- Makes a symbolic link, if its folder exists and its name is free. -/
def link (d : Disk) (p target : Path) : Disk :=
  match p.fileName?, d.realParent? p with
  | some name, some folder =>
    if d.isFolder folder && (d.entry? (folder ++ [name])).isNone && !p.asksForFolder &&
        isName name && isName target.text && target.text != "" then
      d.put (folder ++ [name]) (.link target)
    else d
  | _, _ => d

/-- Removes a file, a link, or a folder with all that is in it. -/
def remove (d : Disk) (p : Path) : Disk :=
  match p.fileName?, d.realParent? p with
  | some name, some folder =>
    let l := folder ++ [name]
    match d.entry? l with
    | some .folder => d.removeAt l
    | some _ => if p.asksForFolder then d else d.removeAt l
    | none => d
  | _, _ => d

end PolicyLint.Disk
