import PolicyLint.Proofs.FileSystem.Growth
/-!
# What discovery lists

A file is listed for the sake of a root, so fewer roots list fewer files (`discover_mono`). While
policy files appear or change their texts, no listed file is lost (`discover_grown`), as long as the
ignore files stay what they are. They do so by themselves unless one of them is a link, which may
lead to a policy file (`sameRules_of_no_link`).
-/

namespace PolicyLint.Discovery

variable {d later : Disk} {roots : List Path} {root p : Path} {l top : Location}

theorem mem_discover : p ∈ discover d roots ↔ ∃ root ∈ roots, p ∈ below d root := by
  constructor
  · intro hp
    exact List.mem_flatMap.1 (PathSet.mem_of_mem_keys_ofList hp)
  · rintro ⟨root, hroot, hp⟩
    have hmem : p ∈ roots.flatMap (below d) := List.mem_flatMap.2 ⟨root, hroot, hp⟩
    have hcontains : (PathSet.ofList (roots.flatMap (below d))).contains p = true := by
      rw [PathSet.contains_ofList, List.any_eq_true]
      exact ⟨p, hmem, BEq.rfl⟩
    obtain ⟨k, hk, hkp⟩ := PathMap.contains_iff.1 hcontains
    obtain ⟨r, -, hkr⟩ := List.mem_flatMap.1 (PathSet.mem_of_mem_keys_ofList hk)
    rw [← Path.eq_of_isPlain (isPlain_below hkr) (isPlain_below hp) hkp]
    exact hk

theorem discover_mono {fewer : List Path} (h : ∀ root ∈ fewer, root ∈ roots)
    (hp : p ∈ discover d fewer) : p ∈ discover d roots := by
  obtain ⟨root, hroot, hbelow⟩ := mem_discover.1 hp
  exact mem_discover.2 ⟨root, h root hroot, hbelow⟩

/-! ## Rules that stay -/

/-- The ignore files, below the folders they are about, and the mark of a repository. -/
def ruleFiles : List Location :=
  [[".ignore"], [".gitignore"], [".git", "info", "exclude"], [".git"]]

/-- What the ignore files and the marks of repositories lead to is what was there before. -/
def SameRules (d later : Disk) : Prop :=
  ∀ (folder file l : Location), file ∈ ruleFiles →
    later.resolve (Path.ofNames (folder ++ file)) = .ok l → later.entry? l = d.entry? l

/-- `later` is `d` after policy files appeared or changed their texts, with the same ignore files. -/
structure Grows (d later : Disk) : Prop where
  gains : d.Gains later
  rules : SameRules d later

theorem rulesAt_grown (h : d.Gains later)
    (hsame : ∀ real, later.resolve (Path.ofNames l) = .ok real →
      later.entry? real = d.entry? real) : rulesAt later l = rulesAt d l := by
  unfold rulesAt
  cases hr : later.resolve (Path.ofNames l) with
  | ok real =>
    rw [(h.resolve_iff hsame).1 hr]
    dsimp only
    unfold Disk.textAt
    rw [hsame real hr]
  | error fault =>
    cases hold : d.resolve (Path.ofNames l) with
    | ok real =>
      rw [h.resolve hold] at hr
      cases hr
    | error fault => rfl

theorem isRepository_grown (h : d.Gains later) (hr : SameRules d later) (folder : Location) :
    isRepository later folder = isRepository d folder := by
  have hsame : ∀ l, later.resolve (Path.ofNames (folder ++ [".git"])) = .ok l →
      later.entry? l = d.entry? l := fun l => hr folder [".git"] l (by decide)
  unfold isRepository Disk.pathExists
  cases hl : later.resolve (Path.ofNames (folder ++ [".git"])) with
  | ok l =>
    rw [(h.resolve_iff hsame).1 hl]
  | error fault =>
    cases hold : d.resolve (Path.ofNames (folder ++ [".git"])) with
    | ok l =>
      rw [h.resolve hold] at hl
      cases hl
    | error fault => rfl

theorem insideRepository_grown (h : d.Gains later) (hr : SameRules d later) (l : Location) :
    insideRepository later l = insideRepository d l := by
  have hrepository : isRepository later = isRepository d := funext (isRepository_grown h hr)
  unfold insideRepository
  rw [hrepository]

theorem verdictBy?_grown (h : d.Gains later) (hr : SameRules d later) {file : Location}
    (hfile : file ∈ ruleFiles) (isFolder : Bool) (folders : List (Location × List String)) :
    verdictBy? later file isFolder folders = verdictBy? d file isFolder folders := by
  have hrules : ∀ folder, rulesAt later (folder ++ file) = rulesAt d (folder ++ file) :=
    fun folder => rulesAt_grown h fun real => hr folder file real hfile
  unfold verdictBy?
  simp only [hrules]

/-- What the ignore files say does not change. -/
theorem verdict?_grown (h : d.Gains later) (hr : SameRules d later) (l : Location)
    (isFolder : Bool) : verdict? later l isFolder = verdict? d l isFolder := by
  unfold verdict?
  dsimp only
  rw [insideRepository_grown h hr, verdictBy?_grown h hr (by decide),
    verdictBy?_grown h hr (by decide), verdictBy?_grown h hr (by decide)]

theorem skips_grown (h : d.Gains later) (hr : SameRules d later) (l : Location) :
    skips later l = skips d l := by
  unfold skips
  rw [verdict?_grown h hr, h.isFolder]

/-! ## Files that stay listed -/

theorem reaches_grown (h : d.Gains later) (hr : SameRules d later) :
    reaches later = reaches d := by
  funext top l
  unfold reaches
  simp only [skips_grown h hr, h.isFolder]

/-- There is an entry at a location if and only if the disk has one on record there. -/
theorem isSome_entry?_iff (hl : l ≠ []) :
    (d.entry? l).isSome = true ↔ l ∈ d.entries.map (·.1) := by
  unfold Disk.entry?
  rw [if_neg hl, List.lookup_isSome_iff, List.mem_map]
  constructor
  · rintro ⟨x, hx, hlx⟩
    exact ⟨x, hx, (beq_iff_eq.1 hlx).symm⟩
  · rintro ⟨x, hx, rfl⟩
    exact ⟨x, hx, BEq.rfl⟩

theorem VisitsFrom.grown (h : d.Gains later) (hr : SameRules d later) {q : Path}
    (hvisits : VisitsFrom d root q) : VisitsFrom later root q := by
  rcases hvisits with rfl | ⟨top, htop, hfolder, l, hmem, hreaches, rfl⟩
  · exact Or.inl rfl
  · have hne : l ≠ [] := by
      rintro rfl
      simp [reaches] at hreaches
    have hstays : l ∈ later.entries.map (·.1) :=
      (isSome_entry?_iff hne).1 (h.isSome ((isSome_entry?_iff hne).2 hmem))
    rw [← reaches_grown h hr] at hreaches
    exact Or.inr ⟨top, h.resolve htop, (h.isFolder top).trans hfolder, l, hstays, hreaches, rfl⟩

theorem below_grown (h : d.Gains later) (hr : SameRules d later) (hp : p ∈ below d root) :
    p ∈ below later root := by
  obtain ⟨q, hvisits, hnamed, hreal⟩ := mem_below_iff_visits.1 hp
  exact mem_below_iff_visits.2 ⟨q, hvisits.grown h hr, hnamed, h.realPath? hreal⟩

/-- No listed file is lost. -/
theorem discover_grown (h : d.Gains later) (hr : SameRules d later) (hp : p ∈ discover d roots) :
    p ∈ discover later roots := by
  obtain ⟨root, hroot, hbelow⟩ := mem_discover.1 hp
  exact mem_discover.2 ⟨root, hroot, below_grown h hr hbelow⟩

/-! ## When rules stay -/

def ruleNames : List String :=
  [".ignore", ".gitignore", "exclude", ".git"]

theorem exists_name_of_mem_ruleFiles {file : Location} (h : file ∈ ruleFiles) :
    ∃ folder, ∃ name ∈ ruleNames, file = folder ++ [name] := by
  have hall : ∀ file ∈ ruleFiles,
      file.dropLast ++ file.getLast?.toList = file ∧ file.getLast?.any ruleNames.contains = true := by
    decide
  obtain ⟨hsplit, hlast⟩ := hall file h
  obtain ⟨name, hname, hmem⟩ := (Option.any_eq_true ..).1 hlast
  rw [hname] at hsplit
  exact ⟨file.dropLast, name, List.contains_iff_mem.1 hmem, hsplit.symm⟩

/-- Unless an ignore file or the mark of a repository is a link, they stay what they are. -/
theorem sameRules_of_no_link (h : d.Gains later)
    (hlinks : ∀ x ∈ later.entries, x.2.isLink = true → ∀ name ∈ ruleNames, x.1.getLast? ≠ some name) :
    SameRules d later := by
  intro folder file l hfile hl
  obtain ⟨above, name, hname, rfl⟩ := exists_name_of_mem_ruleFiles hfile
  have hplain : ∀ name ∈ ruleNames, ('/' ∉ name.toList ∧
      Part.ofSegment? name.toList = some (.name name)) ∧ (Path.mk name).isPolicy = false := by
    decide
  obtain ⟨hentry, hpolicy⟩ := hplain name hname
  rw [← List.append_assoc] at hl
  rcases Disk.resolve_ofNames_cases hentry hl with hlast | ⟨x, target, hlink⟩
  · -- an entry of such a name is no policy file, so it did not change
    rcases h l with hsame | ⟨hnew, -⟩
    · exact hsame
    · unfold Location.isPolicy at hnew
      rw [hlast, Option.any_some, hpolicy] at hnew
      cases hnew
  · unfold Disk.entry? at hlink
    rw [if_neg (by simp)] at hlink
    obtain ⟨l₁, l₂, hentries, -⟩ := List.lookup_eq_some_iff.1 hlink
    have hmem : (x ++ [name], Entry.link target) ∈ later.entries := by
      rw [hentries]
      exact List.mem_append_right _ (List.mem_cons_self ..)
    exact absurd List.getLast?_concat (hlinks _ hmem rfl name hname)

end PolicyLint.Discovery
