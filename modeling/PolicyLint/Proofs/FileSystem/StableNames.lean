import PolicyLint.FileSystem.Edit
import PolicyLint.Proofs.FileSystem.RealPath
/-!
# Names under which files are known

The name under which a file is known is a fixed point, files that are the same have the same name, and
a file keeps its name when it is removed (`canonical_is_stable`).

A path that leads nowhere gets the name of its last part in the real folder. This name leads nowhere
either: a walk to the folder, and from there to the last part, would be one for the path itself. It
may follow more links than are allowed, though, so the name is a fixed point only where chains of
links stay within the limit (`EndsWithinLimit`).
-/

namespace PolicyLint.Disk

variable {d : Disk} {p q : Path} {links : Nat} {here l m : Location} {steps : List Step}

/-- The chains of links on the way of a path stay within the limit: where it leads with any number of
links, it leads with the number that is allowed. -/
def EndsWithinLimit (d : Disk) (p : Path) : Prop :=
  ∀ links l, d.resolveFrom links [] p.steps = .ok l → d.resolveFrom maxLinks [] p.steps = .ok l

/-- A path that leads anywhere does so within the limit. -/
theorem endsWithinLimit_of_resolve (h : d.resolve p = .ok l) : d.EndsWithinLimit p := by
  obtain ⟨-, hleads⟩ := resolve_eq_ok_iff.1 h
  intro links m hm
  rw [(leads_of_resolveFrom hm).unique hleads]
  exact hleads.resolveFrom

/-- So does a path to what is missing from a folder: it leads nowhere. -/
theorem endsWithinLimit_of_missing {name : String} {folder : Location}
    (hname : p.fileName? = some name) (hfolder : d.realParent? p = some folder)
    (hmissing : d.entry? (folder ++ [name]) = none) : d.EndsWithinLimit p := by
  obtain ⟨-, hparent⟩ := realParent?_eq_some_iff.1 hfolder
  intro links l h
  have hleads := leads_of_resolveFrom h
  rw [Path.steps_of_fileName? hname] at hleads
  obtain ⟨m, hm, hlast⟩ := hleads.split
  rw [hm.unique hparent] at hlast
  cases hlast with
  | name _ hentry _ _ =>
    rw [hmissing] at hentry
    cases hentry
  | link _ hentry _ =>
    rw [hmissing] at hentry
    cases hentry

/-! ## The name of a name -/

theorem canonical_ofNames (h : d.IsReal l) (hnames : ∀ n ∈ l, IsEntryName n) :
    d.canonical (Path.ofNames l) = Path.ofNames l :=
  canonical_of_resolve (resolve_ofNames h hnames)

/-- Paths that lead somewhere have the same name if and only if they lead to the same location. -/
theorem canonical_eq_iff (hp : d.resolve p = .ok l) (hq : d.resolve q = .ok m) :
    d.canonical q = d.canonical p ↔ m = l := by
  rw [canonical_of_resolve hp, canonical_of_resolve hq]
  refine ⟨fun h => ?_, congrArg _⟩
  have hl := resolve_ofNames (isReal_of_resolve hp) (isEntryName_of_resolve hp)
  rw [← h, resolve_ofNames (isReal_of_resolve hq) (isEntryName_of_resolve hq)] at hl
  exact Except.ok.inj hl

/-- The last part in its real folder leads only where the path leads. -/
theorem exists_leads_of_resolve_ofNames {name : String} {folder : Location}
    (hdirect : p.asksForFolder = false) (hname : p.fileName? = some name)
    (hfolder : d.realParent? p = some folder)
    (h : d.resolve (Path.ofNames (folder ++ [name])) = .ok l) :
    ∃ links, Leads d links [] p.steps l := by
  obtain ⟨-, hparent⟩ := realParent?_eq_some_iff.1 hfolder
  obtain ⟨-, hleads⟩ := resolve_eq_ok_iff.1 h
  rw [Path.steps_ofNames (isEntryName_of_parent hname hfolder) (by simp), List.map_append] at hleads
  obtain ⟨m, hm, hlast⟩ := hleads.split
  rw [hm.unique (hparent.isReal (isReal_root d)).leads_root] at hlast
  rw [Path.steps_of_fileName? hname, hdirect]
  exact ⟨_, hparent.append hlast⟩

theorem canonical_canonical (hdirect : p.asksForFolder = false) (hlimit : d.EndsWithinLimit p) :
    d.canonical (d.canonical p) = d.canonical p := by
  rcases d.canonical_cases p with ⟨l, hl⟩ | ⟨name, folder, hnone, hname, hfolder⟩ | hsame
  · rw [canonical_of_resolve hl]
    exact canonical_ofNames (isReal_of_resolve hl) (isEntryName_of_resolve hl)
  · obtain ⟨habs, hparent⟩ := realParent?_eq_some_iff.1 hfolder
    rw [canonical_of_parent hnone hname hfolder]
    refine canonical_of_parent (fun l hl => ?_)
      (Path.fileName?_ofNames folder (isEntryName_of_fileName? hname))
      (realParent?_ofNames (hparent.isReal (isReal_root d)) (isEntryName_of_parent hname hfolder))
    obtain ⟨links, hleads⟩ := exists_leads_of_resolve_ofNames hdirect hname hfolder hl
    refine hnone l (resolve_eq_ok_iff.2 ⟨habs, ?_⟩)
    exact leads_of_resolveFrom (hlimit links l hleads.resolveFrom)
  · rw [hsame, hsame]

/-! ## Removed files -/

theorem entry?_removeAt_of_not_below (h : ¬l <+: m) : entry? (d.removeAt l) m = d.entry? m := by
  have hl : l ≠ [] := by
    rintro rfl
    exact h (List.nil_prefix ..)
  rw [entry?_removeAt d hl, if_neg fun hpre => h (List.isPrefixOf_iff_prefix.1 hpre)]

theorem entry?_removeAt_self (hl : l ≠ []) : entry? (d.removeAt l) l = none := by
  rw [entry?_removeAt d hl, if_pos (List.isPrefixOf_iff_prefix.2 (List.prefix_refl l))]

/-- Walks that do not end at a file are walks where it has been removed: nothing is reached through
a file. -/
theorem Leads.removeAt {bytes : ByteArray} (h : Leads d links here steps m)
    (hfile : d.entry? l = some (.file bytes)) (hhere : ¬l <+: here) (hm : m ≠ l) :
    Leads (d.removeAt l) links here steps m := by
  have hfolders : ∀ k, ¬l <+: k → d.isFolder k = true → (d.removeAt l).isFolder k = true := by
    intro k hk hfolder
    unfold isFolder at hfolder ⊢
    rwa [entry?_removeAt_of_not_below hk]
  have hconcat : ∀ k s, ¬l <+: k → l ≠ k ++ [s] → ¬l <+: k ++ [s] := fun k s hk hne hpre =>
    (List.prefix_concat_iff.1 hpre).elim hne hk
  induction h with
  | done => exact .done
  | stay hfolder _ ih => exact .stay (hfolders _ hhere hfolder) (ih hhere hm)
  | @up links here m rest hfolder _ ih =>
    have hup : ¬l <+: here.dropLast := fun hpre => hhere (hpre.trans (List.dropLast_prefix here))
    exact .up (hfolders _ hhere hfolder) (ih hup hm)
  | @name links here m rest s e hfolder hentry hlink hrest ih =>
    have hne : l ≠ here ++ [s] := by
      rintro rfl
      exact hm (hrest.eq_of_not_isFolder (isFolder_of_file hfile)).2
    have hnext := hconcat here s hhere hne
    exact .name (hfolders _ hhere hfolder) ((entry?_removeAt_of_not_below hnext).trans hentry) hlink
      (ih hnext hm)
  | @link links here m rest s target hfolder hentry _ ih =>
    have hne : l ≠ here ++ [s] := by
      rintro rfl
      rw [hfile] at hentry
      cases hentry
    have hnext := hconcat here s hhere hne
    have hbase : ¬l <+: linkBase here target := by
      unfold linkBase
      split
      · intro hpre
        exact hhere ((List.prefix_nil.1 hpre) ▸ List.nil_prefix ..)
      · exact hhere
    exact .link (hfolders _ hhere hfolder) ((entry?_removeAt_of_not_below hnext).trans hentry)
      (ih hbase hm)

/-- Removing the file that a path leads to does not change the name of the path, unless there is a link
where its last part leads. -/
theorem canonical_removeAt {bytes : ByteArray} (h : d.resolve p = .ok l)
    (hfile : d.entry? l = some (.file bytes)) (hdirect : p.asksForFolder = false)
    (hlink : d.isLink p = false) (hup : p.parts.getLast? ≠ some .parent) :
    (d.removeAt l).canonical p = d.canonical p := by
  have hne : l ≠ [] := by
    rintro rfl
    cases hfile
  obtain ⟨name, hname⟩ := exists_fileName?_of_resolve h hne hdirect hup
  obtain ⟨folder, hfolder, -, hlast⟩ := resolve_fileName? hname h
  obtain ⟨habs, hparent⟩ := realParent?_eq_some_iff.1 hfolder
  have hl := hlast hlink
  have hstays : (d.removeAt l).realParent? p = some folder := by
    refine realParent?_eq_some_iff.2 ⟨habs, hparent.removeAt hfile ?_ ?_⟩
    · rw [hl]
      simp
    · rw [hl]
      simp
  have hgone : ∀ m, (d.removeAt l).resolve p ≠ .ok m := by
    intro m hm
    obtain ⟨same, hsame, ⟨e, he⟩, -⟩ := resolve_fileName? hname hm
    rw [hstays] at hsame
    cases hsame
    rw [← hl, entry?_removeAt_self hne] at he
    cases he
  rw [canonical_of_parent hgone hname hstays, canonical_of_resolve h, hl]

/-- The name under which a file is known is stable: it is a fixed point, it is the same for the paths
that lead to the file and for no others, and it stays when the file is removed, unless the path is
itself a link to the file. -/
theorem canonical_is_stable (d : Disk) (p : Path) (hdirect : p.asksForFolder = false)
    (hlimit : d.EndsWithinLimit p) :
    d.canonical (d.canonical p) = d.canonical p ∧
      (∀ q l m, d.resolve p = .ok l → d.resolve q = .ok m →
        (d.canonical q = d.canonical p ↔ m = l)) ∧
      ∀ l bytes, d.resolve p = .ok l → d.entry? l = some (.file bytes) → d.isLink p = false →
        p.parts.getLast? ≠ some .parent → (d.removeAt l).canonical p = d.canonical p := by
  refine ⟨canonical_canonical hdirect hlimit, fun q l m hp hq => canonical_eq_iff hp hq, ?_⟩
  intro l bytes h hfile hlink hup
  exact canonical_removeAt h hfile hdirect hlink hup

/-- A file and a missing file in a folder that is given by a link, beside links that lead nowhere. -/
theorem canonical_is_stable_below_link :
    let d : Disk := { entries := [
      (["ws"], .folder), (["ws", "real"], .folder),
      (["ws", "real", "a.rego"], .file "package a".toUTF8), (["ws", "link"], .link ⟨"/ws/real"⟩),
      (["ws", "real", "gone"], .link ⟨"/nowhere"⟩), (["ws", "real", "circle"], .link ⟨"circle"⟩)] }
    let p : Path := ⟨"/ws/link/a.rego"⟩
    let missing : Path := ⟨"/ws/link/b.rego"⟩
    d.canonical (d.canonical p) = d.canonical p ∧
      d.canonical ⟨"/ws/real/a.rego"⟩ = d.canonical p ∧
      (d.removeAt ["ws", "real", "a.rego"]).canonical p = d.canonical p ∧
      d.canonical (d.canonical missing) = d.canonical missing ∧
      (d.canonical p).text = "/ws/real/a.rego" ∧
      (d.canonical missing).text = "/ws/real/b.rego" := by
  intro d p missing
  have hp : d.resolve p = .ok ["ws", "real", "a.rego"] :=
    toOption_eq_some_iff.1 (by decide +kernel)
  have hq : d.resolve ⟨"/ws/real/a.rego"⟩ = .ok ["ws", "real", "a.rego"] :=
    toOption_eq_some_iff.1 (by decide +kernel)
  have hname : missing.fileName? = some "b.rego" := by decide +kernel
  have hfolder : d.realParent? missing = some ["ws", "real"] := by decide +kernel
  obtain ⟨htwice, hsame, hremoved⟩ :=
    canonical_is_stable d p (by decide +kernel) (endsWithinLimit_of_resolve hp)
  obtain ⟨hmissing, -, -⟩ := canonical_is_stable d missing (by decide +kernel)
    (endsWithinLimit_of_missing hname hfolder rfl)
  exact ⟨htwice, (hsame _ _ _ hp hq).2 rfl, hremoved _ _ hp rfl (by decide +kernel) (by decide +kernel),
    hmissing, by decide +kernel, by decide +kernel⟩

end PolicyLint.Disk
