import PolicyLint.Proofs.FileSystem.Walk
import PolicyLint.Workspace.Discovery
import PolicyLint.Uri.FilePath
/-!
# Spellings of paths

A path can be spelled in more than one way, and the same file in as many. Among the plain
spellings, with one slash before each segment and no `.`, each path has only one. The names under
which files are known are plain when the paths given are (`isPlain_canonical`), and so are the
paths that discovery lists (`isPlain_discover`).
-/

namespace PolicyLint

namespace Path

/-- Whether a path is absolute and spelled plainly: no empty segment, no `.` and no trailing
slash. -/
def isPlain (p : Path) : Bool :=
  p.isAbsolute &&
    (p.segments.tail == [[]] || p.segments.tail.all fun s => (Part.ofSegment? s).isSome)

end Path

theorem toOption_eq_some_iff {ε α : Type} {x : Except ε α} {a : α} :
    x.toOption = some a ↔ x = .ok a := by
  cases x <;> simp [Except.toOption]

/-! ## Segments and parts -/

def Part.segment : Part → List Char
  | root => []
  | current => ['.']
  | parent => ['.', '.']
  | name s => s.toList

theorem Part.segment_of_ofSegment? {s : List Char} {part : Part} (h : ofSegment? s = some part) :
    part.segment = s := by
  unfold ofSegment? at h
  split at h
  · cases h
  · split at h
    · next hs =>
      cases h
      exact hs.symm
    · cases h
      exact String.toList_ofList

theorem map_segment_filterMap {ss : List (List Char)}
    (h : ∀ s ∈ ss, (Part.ofSegment? s).isSome = true) :
    (ss.filterMap Part.ofSegment?).map Part.segment = ss := by
  induction ss with
  | nil => rfl
  | cons s ss ih =>
    obtain ⟨part, hp⟩ := Option.isSome_iff_exists.1 (h s (by simp))
    rw [List.filterMap_cons, hp, List.map_cons, Part.segment_of_ofSegment? hp,
      ih fun t ht => h t (by simp [ht])]

namespace Path

theorem segments_of_isAbsolute {p : Path} (h : p.isAbsolute = true) :
    ∃ cs, p.text.toList = '/' :: cs ∧ p.segments = [] :: pieces '/' cs := by
  unfold isAbsolute at h
  cases hc : p.text.toList with
  | nil => simp [hc] at h
  | cons c cs =>
    have : c = '/' := by simpa [hc] using h
    rw [this]
    exact ⟨cs, rfl, by simp [segments, hc, this, pieces]⟩

theorem parts_of_isAbsolute {p : Path} (h : p.isAbsolute = true) :
    p.parts = .root :: p.segments.tail.filterMap Part.ofSegment? := by
  obtain ⟨cs, -, hs⟩ := segments_of_isAbsolute h
  simp [parts, h, hs, Part.ofSegment?]

theorem isAbsolute_iff {p : Path} : p.isAbsolute = true ↔ Part.root ∈ p.parts := by
  constructor
  · intro h
    rw [parts_of_isAbsolute h]
    exact List.mem_cons_self ..
  · intro h
    cases habs : p.isAbsolute with
    | true => rfl
    | false =>
      -- only the slash in front stands for the root
      have hseg : Part.root ∉ p.segments.filterMap Part.ofSegment? := by
        intro hmem
        obtain ⟨segment, -, hs⟩ := List.mem_filterMap.1 hmem
        unfold Part.ofSegment? at hs
        split at hs
        · cases hs
        · split at hs <;> cases hs
      unfold parts at h
      rw [habs, if_neg Bool.false_ne_true] at h
      rcases List.mem_append.1 h with hlead | hmem
      · split at hlead
        · cases List.mem_singleton.1 hlead
        · cases hlead
      · exact absurd hmem hseg

theorem isAbsolute_congr {p q : Path} (h : (p == q) = true) : p.isAbsolute = q.isAbsolute := by
  rw [Bool.eq_iff_iff, isAbsolute_iff, isAbsolute_iff, beq_iff.1 h]

theorem text_eq_of_segments_eq {p q : Path} (h : p.segments = q.segments) : p = q := by
  have ht : p.text.toList = q.text.toList := by
    rw [← intercalate_pieces '/' p.text.toList, ← intercalate_pieces '/' q.text.toList]
    exact congrArg _ h
  cases p
  cases q
  exact congrArg Path.mk (String.toList_inj.1 ht)

/-- A path is told by its text. -/
theorem mem_of_text_mem {p : Path} {ps : List Path} (h : p.text ∈ ps.map (·.text)) : p ∈ ps := by
  obtain ⟨⟨text⟩, hq, rfl⟩ := List.mem_map.1 h
  exact hq

theorem isAbsolute_of_isPlain {p : Path} (h : p.isPlain = true) : p.isAbsolute = true := by
  unfold isPlain at h
  exact (Bool.and_eq_true_iff.1 h).1

/-- What is spelled plainly can be told from the parts: only the root has no part below it. -/
theorem tail_segments_of_isPlain {p : Path} (h : p.isPlain = true) :
    p.segments.tail =
      if p.parts.tail = [] then [[]] else p.parts.tail.map Part.segment := by
  have habs := isAbsolute_of_isPlain h
  obtain ⟨cs, -, hs⟩ := segments_of_isAbsolute habs
  have hne : p.segments.tail ≠ [] := by
    rw [hs]
    exact pieces_ne_nil '/' cs
  rw [parts_of_isAbsolute habs, List.tail_cons]
  unfold isPlain at h
  rcases Bool.or_eq_true_iff.1 (Bool.and_eq_true_iff.1 h).2 with h | h
  · have h : p.segments.tail = [[]] := by simpa using h
    rw [h]
    rfl
  · have hall : ∀ s ∈ p.segments.tail, (Part.ofSegment? s).isSome = true := by simpa using h
    have hmap := map_segment_filterMap hall
    rw [if_neg, hmap]
    intro hnil
    rw [hnil] at hmap
    exact hne hmap.symm

/-- A path has only one plain spelling. -/
theorem eq_of_isPlain {p q : Path} (hp : p.isPlain = true) (hq : q.isPlain = true)
    (h : (p == q) = true) : p = q := by
  obtain ⟨cs, -, hs⟩ := segments_of_isAbsolute (isAbsolute_of_isPlain hp)
  obtain ⟨ds, -, ht⟩ := segments_of_isAbsolute (isAbsolute_of_isPlain hq)
  have htail : p.segments.tail = q.segments.tail := by
    rw [tail_segments_of_isPlain hp, tail_segments_of_isPlain hq, beq_iff.1 h]
  apply text_eq_of_segments_eq
  rw [hs, ht] at htail ⊢
  exact congrArg _ htail

end Path

theorem Path.fileName?_eq_some_iff {p : Path} {name : String} :
    p.fileName? = some name ↔ p.parts.getLast? = some (.name name) := by
  unfold fileName?
  split
  · next s hs => simp [hs]
  · next hne => exact ⟨fun h => absurd h.symm (by simp), fun h => absurd h (hne name)⟩

/-! ## Names -/

/-- A text that can be the name of a file. -/
def IsName (n : String) : Prop :=
  '/' ∉ n.toList ∧ (Part.ofSegment? n.toList).isSome = true

/-- A text that names an entry of a folder: no slash is in it, and it is neither empty nor `.` nor
`..`. -/
def IsEntryName (n : String) : Prop :=
  '/' ∉ n.toList ∧ Part.ofSegment? n.toList = some (.name n)

theorem IsEntryName.isName {n : String} (h : IsEntryName n) : IsName n :=
  ⟨h.1, by rw [h.2]; rfl⟩

theorem isEntryName_of_mem_parts {p : Path} {n : String} (h : Part.name n ∈ p.parts) :
    IsEntryName n := by
  have hseg : ∃ s ∈ p.segments, Part.ofSegment? s = some (.name n) := by
    rcases List.mem_append.1 h with h | h
    · split at h
      · simp at h
      · split at h <;> simp at h
    · exact List.mem_filterMap.1 h
  obtain ⟨s, hs, hn⟩ := hseg
  have heq : n.toList = s := Part.segment_of_ofSegment? hn
  rw [IsEntryName, heq]
  exact ⟨notMem_of_mem_pieces hs, hn⟩

theorem segments_ofNames {names : List String} (h : ∀ n ∈ names, IsName n) (hne : names ≠ []) :
    (Path.ofNames names).segments = [] :: names.map String.toList := by
  have hcut : ∀ s ∈ names.map String.toList, '/' ∉ s := by
    intro s hs
    obtain ⟨n, hn, rfl⟩ := List.mem_map.1 hs
    exact (h n hn).1
  have hp := pieces_intercalate hcut (by simpa using hne)
  simp [Path.segments, Path.ofNames, pieces, hp]

theorem isAbsolute_ofNames (names : List String) : (Path.ofNames names).isAbsolute = true := by
  simp [Path.isAbsolute, Path.ofNames]

theorem isPlain_ofNames {names : List String} (h : ∀ n ∈ names, IsName n) :
    (Path.ofNames names).isPlain = true := by
  by_cases hne : names = []
  · rw [hne]
    rfl
  · rw [Path.isPlain, isAbsolute_ofNames, segments_ofNames h hne]
    have : ∀ n ∈ names, (Part.ofSegment? n.toList).isSome = true := fun n hn => (h n hn).2
    simp [List.all_map]
    exact Or.inr this

theorem name_mem_filterMap {parts : List Part} {n : String} :
    Step.name n ∈ parts.filterMap Step.ofPart? ↔ Part.name n ∈ parts := by
  rw [List.mem_filterMap]
  constructor
  · rintro ⟨part, hpart, hstep⟩
    cases part <;> cases hstep
    exact hpart
  · exact fun h => ⟨.name n, h, rfl⟩

theorem isEntryName_of_mem_steps {p : Path} {n : String} (h : Step.name n ∈ p.steps) :
    IsEntryName n := by
  rcases List.mem_append.1 h with h | h
  · exact isEntryName_of_mem_parts (name_mem_filterMap.1 h)
  · split at h
    · cases List.mem_singleton.1 h
    · cases h

namespace Disk

variable {d : Disk}

/-- A path leads to a location made of names. -/
theorem isEntryName_of_resolve {p : Path} {l : Location} (h : d.resolve p = .ok l) :
    ∀ n ∈ l, IsEntryName n :=
  (resolve_eq_ok_iff.1 h).2.forall_names (fun _ _ => isEntryName_of_mem_steps)
    (fun _ => isEntryName_of_mem_steps) (by simp)

theorem isPlain_of_resolve {p : Path} {l : Location} (h : d.resolve p = .ok l) :
    (Path.ofNames l).isPlain = true :=
  isPlain_ofNames fun n hn => (isEntryName_of_resolve h n hn).isName

theorem realPath?_eq_some_iff {p q : Path} :
    d.realPath? p = some q ↔ ∃ l, d.resolve p = .ok l ∧ Path.ofNames l = q := by
  unfold realPath?
  rw [Option.map_eq_some_iff]
  simp only [toOption_eq_some_iff]

theorem isPlain_realPath? {p q : Path} (h : d.realPath? p = some q) : q.isPlain = true := by
  obtain ⟨l, hl, rfl⟩ := realPath?_eq_some_iff.1 h
  exact isPlain_of_resolve hl

theorem realParent?_eq_some_iff {p : Path} {l : Location} :
    d.realParent? p = some l ↔ p.isAbsolute = true ∧
      Leads d maxLinks [] (p.parts.dropLast.filterMap Step.ofPart?) l := by
  unfold realParent?
  split
  · next habs => simp [habs, toOption_eq_some_iff, resolveFrom_eq_ok_iff]
  · next habs => simp [habs]

theorem isEntryName_of_realParent? {p : Path} {l : Location} (h : d.realParent? p = some l) :
    ∀ n ∈ l, IsEntryName n :=
  (realParent?_eq_some_iff.1 h).2.forall_names (fun _ _ => isEntryName_of_mem_steps)
    (fun _ hn => isEntryName_of_mem_parts (List.dropLast_subset _ (name_mem_filterMap.1 hn)))
    (by simp)

theorem isEntryName_of_fileName? {p : Path} {name : String} (h : p.fileName? = some name) :
    IsEntryName name :=
  isEntryName_of_mem_parts (List.mem_of_getLast? (Path.fileName?_eq_some_iff.1 h))

/-- What a path leads to is known under its real path. -/
theorem canonical_of_resolve {p : Path} {l : Location} (h : d.resolve p = .ok l) :
    d.canonical p = Path.ofNames l := by
  rw [canonical, realPath?_eq_some_iff.2 ⟨l, h, rfl⟩]

theorem canonical_of_parent {p : Path} {name : String} {folder : Location}
    (h : ∀ l, d.resolve p ≠ .ok l) (hn : p.fileName? = some name)
    (hf : d.realParent? p = some folder) : d.canonical p = Path.ofNames (folder ++ [name]) := by
  unfold canonical realPath?
  cases hr : d.resolve p with
  | ok l => exact absurd hr (h l)
  | error fault =>
    rw [hn, hf]
    rfl

theorem isEntryName_of_parent {p : Path} {name : String} {folder : Location}
    (hn : p.fileName? = some name) (hf : d.realParent? p = some folder) :
    ∀ n ∈ folder ++ [name], IsEntryName n := by
  intro n hm
  rcases List.mem_append.1 hm with hm | hm
  · exact isEntryName_of_realParent? hf n hm
  · rw [List.mem_singleton.1 hm]
    exact isEntryName_of_fileName? hn

/-- A path leads somewhere, or the folder of its last part can be found, or it keeps its name. -/
theorem canonical_cases (d : Disk) (p : Path) :
    (∃ l, d.resolve p = .ok l) ∨
      (∃ name folder, (∀ l, d.resolve p ≠ .ok l) ∧ p.fileName? = some name ∧
        d.realParent? p = some folder) ∨
      d.canonical p = p := by
  cases hr : d.resolve p with
  | ok l => exact Or.inl ⟨l, rfl⟩
  | error fault =>
    refine Or.inr ?_
    unfold canonical realPath?
    rw [hr]
    cases hn : p.fileName? with
    | none => exact Or.inr rfl
    | some name =>
      cases hf : d.realParent? p with
      | none => exact Or.inr rfl
      | some folder => exact Or.inl ⟨name, folder, nofun, rfl, rfl⟩

/-- A file whose folder can be found is known under a plain name. -/
theorem isPlain_canonical_of_parent {p : Path} {name : String} {folder : Location}
    (hn : p.fileName? = some name) (hf : d.realParent? p = some folder) :
    (d.canonical p).isPlain = true := by
  unfold canonical
  split
  · next real hr => exact isPlain_realPath? hr
  · rw [hn, hf]
    exact isPlain_ofNames fun n hm => (isEntryName_of_parent hn hf n hm).isName

/-- The name under which a file is known is plain, or it is the path as it was given. -/
theorem isPlain_canonical_or (d : Disk) (p : Path) :
    (d.canonical p).isPlain = true ∨ d.canonical p = p := by
  rcases d.canonical_cases p with ⟨l, hl⟩ | ⟨name, folder, -, hn, hf⟩ | hsame
  · rw [canonical_of_resolve hl]
    exact Or.inl (isPlain_of_resolve hl)
  · exact Or.inl (isPlain_canonical_of_parent hn hf)
  · exact Or.inr hsame

theorem isAbsolute_canonical (d : Disk) {p : Path} (h : p.isAbsolute = true) :
    (d.canonical p).isAbsolute = true := by
  rcases d.isPlain_canonical_or p with hp | hp
  · exact Path.isAbsolute_of_isPlain hp
  · rwa [hp]

theorem isPlain_canonical (d : Disk) {p : Path} (h : p.isPlain = true) :
    (d.canonical p).isPlain = true := by
  rcases d.isPlain_canonical_or p with hp | hp
  · exact hp
  · rwa [hp]

theorem pathOfUri_eq_ok_iff {u : Uri} {p : Path} :
    d.pathOfUri u = .ok p ↔ ∃ q, u.filePath? = some q ∧ d.canonical q = p := by
  unfold pathOfUri
  cases u.filePath? <;> simp

/-- A name under which a file is known, and can be read, is plain. -/
theorem isPlain_of_readText {p q : Path} {text : String} (hp : d.canonical q = p)
    (h : d.readText p = .ok text) : p.isPlain = true := by
  rcases d.isPlain_canonical_or q with hq | hq
  · rwa [← hp]
  · -- the path stayed as it was given only because it leads nowhere
    have hpq : p = q := hp.symm.trans hq
    rw [← hpq] at hp
    cases hr : d.resolve p with
    | error e => simp [readText, hr, Except.bind] at h
    | ok l =>
      rw [← hp, canonical_of_resolve hr]
      exact isPlain_of_resolve hr

end Disk

namespace Discovery

variable {d : Disk} {root p : Path}

/-- For the sake of a root, discovery comes to the root itself and to the entries that it reaches below
the folder the root leads to. -/
def VisitsFrom (d : Disk) (root q : Path) : Prop :=
  q = root ∨ ∃ top, d.resolve root = .ok top ∧ d.isFolder top = true ∧
    ∃ l ∈ d.entries.map (·.1), reaches d top l = true ∧ q = Path.ofNames l

theorem policyFileAt?_eq_some_iff {l : Location} : policyFileAt? d l = some p ↔
    (Path.ofNames l).isPolicy = true ∧ d.realPath? (Path.ofNames l) = some p := by
  unfold policyFileAt?
  dsimp only
  split
  · next h => simp [h]
  · next h => simp [h]

/-- Discovery lists the real path of what it visits under the name of a policy file. -/
theorem mem_below_iff_visits : p ∈ below d root ↔
    ∃ q, VisitsFrom d root q ∧ q.isPolicy = true ∧ d.realPath? q = some p := by
  unfold below
  cases htop : d.resolve root with
  | error fault =>
    -- a root that leads nowhere is visited, and has no real path
    simp only [List.not_mem_nil, false_iff]
    rintro ⟨q, rfl | ⟨top, hresolve, -⟩, -, hreal⟩
    · obtain ⟨l, hl, -⟩ := Disk.realPath?_eq_some_iff.1 hreal
      rw [hl] at htop
      cases htop
    · rw [htop] at hresolve
      cases hresolve
  | ok top =>
    have hroot : d.realPath? root = some (Path.ofNames top) :=
      Disk.realPath?_eq_some_iff.2 ⟨top, htop, rfl⟩
    have hself : p ∈ (if root.isPolicy then [Path.ofNames top] else []) ↔
        root.isPolicy = true ∧ d.realPath? root = some p := by
      rw [hroot]
      split
      · next h => simp [h, eq_comm]
      · next h => simp [h]
    dsimp only
    constructor
    · intro hp
      split at hp
      · next hfolder =>
        rcases List.mem_append.1 hp with hp | hp
        · exact ⟨root, Or.inl rfl, hself.1 hp⟩
        · obtain ⟨l, hl, hpl⟩ := List.mem_filterMap.1 hp
          obtain ⟨hmem, hreaches⟩ := List.mem_filter.1 hl
          exact ⟨Path.ofNames l, Or.inr ⟨top, htop, hfolder, l, hmem, hreaches, rfl⟩,
            policyFileAt?_eq_some_iff.1 hpl⟩
      · exact ⟨root, Or.inl rfl, hself.1 hp⟩
    · rintro ⟨q, rfl | ⟨m, hm, hfolder, l, hmem, hreaches, rfl⟩, hpq⟩
      · split
        · exact List.mem_append_left _ (hself.2 hpq)
        · exact hself.2 hpq
      · rw [htop] at hm
        cases hm
        rw [if_pos hfolder]
        exact List.mem_append_right _ (List.mem_filterMap.2
          ⟨l, List.mem_filter.2 ⟨hmem, hreaches⟩, policyFileAt?_eq_some_iff.2 hpq⟩)

theorem isPlain_below (h : p ∈ below d root) : p.isPlain = true := by
  obtain ⟨q, -, -, hreal⟩ := mem_below_iff_visits.1 h
  exact Disk.isPlain_realPath? hreal

theorem isPlain_discover {roots : List Path} (h : p ∈ discover d roots) : p.isPlain = true := by
  obtain ⟨root, -, hp⟩ := List.mem_flatMap.1 (PathSet.mem_of_mem_keys_ofList h)
  exact isPlain_below hp

end Discovery

end PolicyLint
