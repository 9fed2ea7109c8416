import Mathlib.Data.List.Basic
import PolicyLint.Proofs.Uri.Spelling
/-!
# Real paths

A location is real when folders lead to it and what is there is no link (`Disk.IsReal`). Paths lead to
real locations only (`Leads.isReal`), and the path that spells a real location name by name leads there
without following a link (`resolve_ofNames`).

A path that ends in a name leads through the folder that holds this last part. It leads to the entry of
that name in this folder, unless the entry is a link (`resolve_fileName?`).
-/

namespace PolicyLint

/-! ## Paths of names -/

namespace Path

variable {p : Path} {names : List String} {name : String}

theorem filterMap_ofSegment? (h : ∀ n ∈ names, IsEntryName n) :
    (names.map String.toList).filterMap Part.ofSegment? = names.map .name := by
  induction names with
  | nil => rfl
  | cons n names ih =>
    rw [List.map_cons, List.filterMap_cons, (h n (List.mem_cons_self ..)).2, List.map_cons,
      ih fun m hm => h m (List.mem_cons_of_mem _ hm)]

theorem parts_ofNames (h : ∀ n ∈ names, IsEntryName n) :
    (ofNames names).parts = .root :: names.map .name := by
  by_cases hne : names = []
  · rw [hne]
    rfl
  · rw [parts_of_isAbsolute (isAbsolute_ofNames names),
      segments_ofNames (fun n hn => (h n hn).isName) hne, List.tail_cons, filterMap_ofSegment? h]

theorem asksForFolder_ofNames (h : ∀ n ∈ names, IsEntryName n) (hne : names ≠ []) :
    (ofNames names).asksForFolder = false := by
  obtain ⟨init, n, rfl⟩ := (List.eq_nil_or_concat names).resolve_left hne
  rw [List.concat_eq_append] at h hne ⊢
  have hn := (h n (by simp)).2
  unfold asksForFolder
  rw [segments_ofNames (fun n hn => (h n hn).isName) hne, List.map_append, ← List.cons_append,
    List.map_singleton, List.getLast?_concat]
  split
  · next hs =>
    rw [Option.some.inj hs] at hn
    cases hn
  · next hs =>
    rw [Option.some.inj hs] at hn
    cases hn
  · rfl

theorem filterMap_ofPart? (names : List String) :
    (names.map Part.name).filterMap Step.ofPart? = names.map .name := by
  rw [List.filterMap_map, ← List.filterMap_eq_map]
  rfl

theorem steps_ofNames (h : ∀ n ∈ names, IsEntryName n) (hne : names ≠ []) :
    (ofNames names).steps = names.map .name := by
  rw [steps, asksForFolder_ofNames h hne, parts_ofNames h, if_neg Bool.false_ne_true,
    List.append_nil]
  exact filterMap_ofPart? names

/-- Whether a path names a policy file is told by its last name. -/
theorem isPolicy_congr {p q : Path} (h : p.fileName? = q.fileName?) : p.isPolicy = q.isPolicy := by
  unfold isPolicy extension?
  rw [h]

theorem exists_fileName?_of_isPolicy (h : p.isPolicy = true) : ∃ name, p.fileName? = some name := by
  unfold isPolicy extension? at h
  cases hn : p.fileName? with
  | none =>
    rw [hn] at h
    cases h
  | some name => exact ⟨name, rfl⟩

theorem fileName?_ofNames (names : List String) (h : IsEntryName name) :
    (ofNames (names ++ [name])).fileName? = some name := by
  obtain ⟨front, hfront⟩ :
      ∃ front, (ofNames (names ++ [name])).text.toList = front ++ '/' :: name.toList := by
    by_cases hne : names = []
    · refine ⟨[], ?_⟩
      simp [ofNames, hne]
    · refine ⟨'/' :: ("/".intercalate names).toList, ?_⟩
      simp [ofNames, String.intercalate_append_of_ne_nil hne]
  have hseg : (ofNames (names ++ [name])).segments = pieces '/' front ++ [name.toList] := by
    rw [segments, hfront, pieces_eq_splitOn, pieces_eq_splitOn, List.splitOn_append_cons_self,
      List.splitOn_eq_singleton h.1]
  have hlast : [name.toList].filterMap Part.ofSegment? = [.name name] := by
    rw [List.filterMap_cons, h.2]
    rfl
  rw [fileName?_eq_some_iff, parts, hseg, List.filterMap_append, hlast, ← List.append_assoc,
    List.getLast?_concat]

theorem steps_of_fileName? (h : p.fileName? = some name) :
    p.steps = p.parts.dropLast.filterMap Step.ofPart? ++
      .name name :: if p.asksForFolder then [.stay] else [] := by
  have hparts : p.parts.dropLast ++ [.name name] = p.parts :=
    List.dropLast_append_getLast? _ (fileName?_eq_some_iff.1 h)
  have hsteps : p.parts.filterMap Step.ofPart? =
      p.parts.dropLast.filterMap Step.ofPart? ++ [.name name] := calc
    _ = (p.parts.dropLast ++ [Part.name name]).filterMap Step.ofPart? := by rw [hparts]
    _ = _ := List.filterMap_append
  rw [steps, hsteps, List.append_assoc]
  rfl

end Path

namespace Disk

variable {d : Disk} {links : Nat} {here l front back : Location} {steps : List Step}

/-! ## Real locations -/

/-- Folders lead to a location, and what is there is no link. -/
structure IsReal (d : Disk) (l : Location) : Prop where
  above : ∀ front back, l = front ++ back → back ≠ [] → d.isFolder front = true
  entry : ∃ e, d.entry? l = some e ∧ e.isLink = false

theorem entry?_of_isFolder (h : d.isFolder l = true) : d.entry? l = some .folder := by
  unfold isFolder at h
  split at h
  · next he => exact he
  · cases h

theorem isReal_root (d : Disk) : d.IsReal [] where
  above _ _ h hne := absurd (List.append_eq_nil_iff.1 h.symm).2 hne
  entry := ⟨.folder, rfl, rfl⟩

theorem IsReal.of_append (h : d.IsReal (front ++ back)) : d.IsReal front := by
  by_cases hback : back = []
  · rwa [hback, List.append_nil] at h
  · refine ⟨fun first second hsplit hne => ?_, ?_⟩
    · refine h.above first (second ++ back) (by rw [hsplit, List.append_assoc]) ?_
      simp [hne]
    · exact ⟨.folder, entry?_of_isFolder (h.above front back rfl hback), rfl⟩

theorem IsReal.dropLast (h : d.IsReal l) : d.IsReal l.dropLast := by
  rcases List.eq_nil_or_concat l with rfl | ⟨front, s, rfl⟩
  · exact h
  · rw [List.concat_eq_append] at h
    rw [List.concat_eq_append, List.dropLast_concat]
    exact h.of_append

/-- What is in a real folder and is no link is real. -/
theorem IsReal.concat {s : String} {e : Entry} (h : d.IsReal l) (hfolder : d.isFolder l = true)
    (hentry : d.entry? (l ++ [s]) = some e) (hlink : e.isLink = false) :
    d.IsReal (l ++ [s]) := by
  refine ⟨fun front back hsplit hne => ?_, e, hentry, hlink⟩
  rcases List.eq_nil_or_concat back with rfl | ⟨init, t, rfl⟩
  · exact absurd rfl hne
  · rw [List.concat_eq_append, ← List.append_assoc] at hsplit
    obtain ⟨hl, -⟩ := List.append_inj' hsplit rfl
    by_cases hinit : init = []
    · rwa [hl, hinit, List.append_nil] at hfolder
    · exact h.above front init hl hinit

theorem Leads.isReal (h : Leads d links here steps l) (hhere : d.IsReal here) : d.IsReal l := by
  induction h with
  | done => exact hhere
  | stay _ _ ih => exact ih hhere
  | up _ _ ih => exact ih hhere.dropLast
  | name hfolder hentry hlink _ ih => exact ih (hhere.concat hfolder hentry hlink)
  | link _ _ _ ih =>
    refine ih ?_
    unfold linkBase
    split
    · exact isReal_root d
    · exact hhere

theorem IsReal.leads {names : List String} (h : d.IsReal (here ++ names)) :
    Leads d 0 here (names.map .name) (here ++ names) := by
  induction names generalizing here with
  | nil =>
    rw [List.append_nil]
    exact .done
  | cons s names ih =>
    have hfolder := h.above here (s :: names) rfl (by simp)
    rw [List.append_cons] at h ⊢
    obtain ⟨e, hentry, hlink⟩ := h.of_append.entry
    exact .name hfolder hentry hlink (ih h)

theorem IsReal.leads_root (h : d.IsReal l) : Leads d 0 [] (l.map .name) l := by
  have hleads : Leads d 0 [] (l.map .name) ([] ++ l) := IsReal.leads h
  exact hleads

theorem isReal_of_resolve {p : Path} (h : d.resolve p = .ok l) : d.IsReal l :=
  (resolve_eq_ok_iff.1 h).2.isReal (isReal_root d)

theorem resolve_ofNames (h : d.IsReal l) (hnames : ∀ n ∈ l, IsEntryName n) :
    d.resolve (Path.ofNames l) = .ok l := by
  by_cases hne : l = []
  · rw [hne]
    rfl
  · refine resolve_eq_ok_iff.2 ⟨isAbsolute_ofNames l, ?_⟩
    rw [Path.steps_ofNames hnames hne]
    exact h.leads_root.mono (Nat.zero_le maxLinks)

/-- The folder of a path that is spelled by names is the location that the first names spell. -/
theorem realParent?_ofNames {name : String} (h : d.IsReal l)
    (hnames : ∀ n ∈ l ++ [name], IsEntryName n) :
    d.realParent? (Path.ofNames (l ++ [name])) = some l := by
  have hsteps : (Path.ofNames (l ++ [name])).parts.dropLast.filterMap Step.ofPart? =
      l.map .name := by
    rw [Path.parts_ofNames hnames, List.map_append, ← List.cons_append, List.map_singleton,
      List.dropLast_concat]
    exact Path.filterMap_ofPart? l
  rw [realParent?_eq_some_iff, hsteps]
  exact ⟨isAbsolute_ofNames _, h.leads_root.mono (Nat.zero_le maxLinks)⟩

/-! ## The last part of a path -/

/-- Whether there is a link where the last part of a path leads, before the link is followed. -/
def isLink (d : Disk) (p : Path) : Bool :=
  match p.fileName?, d.realParent? p with
  | some name, some folder => (d.entry? (folder ++ [name])).any Entry.isLink
  | _, _ => false

theorem isLink_eq_true_iff {p : Path} : d.isLink p = true ↔ ∃ name folder target,
    p.fileName? = some name ∧ d.realParent? p = some folder ∧
      d.entry? (folder ++ [name]) = some (.link target) := by
  unfold isLink
  constructor
  · intro h
    split at h
    · next name folder hname hfolder =>
      obtain ⟨e, he, hlink⟩ := (Option.any_eq_true ..).1 h
      cases e with
      | link target => exact ⟨name, folder, target, hname, hfolder, he⟩
      | folder => cases hlink
      | file bytes => cases hlink
    · cases h
  · rintro ⟨name, folder, target, hname, hfolder, hentry⟩
    rw [hname, hfolder]
    dsimp only
    rw [hentry]
    rfl

/-- A path that ends in a name and leads anywhere leads through the folder of its last part, to the
entry of that name unless this is a link. -/
theorem resolve_fileName? {p : Path} {name : String} (hname : p.fileName? = some name)
    (h : d.resolve p = .ok l) :
    ∃ folder, d.realParent? p = some folder ∧ (∃ e, d.entry? (folder ++ [name]) = some e) ∧
      (d.isLink p = false → l = folder ++ [name]) := by
  obtain ⟨habs, hleads⟩ := resolve_eq_ok_iff.1 h
  rw [Path.steps_of_fileName? hname] at hleads
  obtain ⟨folder, hfolder, hlast⟩ := hleads.split
  have hparent := realParent?_eq_some_iff.2 ⟨habs, hfolder⟩
  refine ⟨folder, hparent, ?_⟩
  generalize htail : (if p.asksForFolder = true then [Step.stay] else []) = tail at hlast
  cases hlast with
  | @name _ _ _ _ _ e _ hentry _ hrest =>
    refine ⟨⟨e, hentry⟩, fun _ => ?_⟩
    rw [← htail] at hrest
    split at hrest
    · cases hrest with
      | stay _ hrest =>
        cases hrest
        rfl
    · cases hrest
      rfl
  | @link _ _ _ _ _ target _ hentry _ =>
    refine ⟨⟨_, hentry⟩, fun hlink => ?_⟩
    have hislink := isLink_eq_true_iff.2 ⟨name, folder, target, hname, hparent, hentry⟩
    rw [hlink] at hislink
    cases hislink

/-- A path that leads somewhere below the root, and ends neither in `..` nor in a slash, ends in a
name. -/
theorem exists_fileName?_of_resolve {p : Path} (h : d.resolve p = .ok l) (hl : l ≠ [])
    (hdirect : p.asksForFolder = false) (hup : p.parts.getLast? ≠ some .parent) :
    ∃ name, p.fileName? = some name := by
  obtain ⟨habs, hleads⟩ := resolve_eq_ok_iff.1 h
  have hparts := Path.parts_of_isAbsolute habs
  rcases List.eq_nil_or_concat (p.segments.tail.filterMap Part.ofSegment?) with
    hnil | ⟨init, part, htail⟩
  · rw [Path.steps, hparts, hnil, hdirect] at hleads
    cases hleads
    exact absurd rfl hl
  · have hlast : p.parts.getLast? = some part := by
      rw [hparts, htail, List.concat_eq_append, ← List.cons_append, List.getLast?_concat]
    have hpart : part ∈ p.segments.tail.filterMap Part.ofSegment? := by
      rw [htail, List.concat_eq_append]
      simp
    obtain ⟨segment, -, hsegment⟩ := List.mem_filterMap.1 hpart
    unfold Part.ofSegment? at hsegment
    split at hsegment
    · cases hsegment
    · split at hsegment
      · cases hsegment
        exact absurd hlast hup
      · cases hsegment
        exact ⟨_, Path.fileName?_eq_some_iff.2 hlast⟩

end Disk

end PolicyLint
