import PolicyLint.Proofs.CrossFile.ImportResolution
import PolicyLint.Proofs.Rego.Names
import PolicyLint.Proofs.Uri.Spelling
/-!
# Imports and the components of references

The parser reads a reference as a list of components, and a component in quotes may hold points. The
facts of a file join the components with points, so what imports are compared by is the components cut
at their points (`segments_dotted`), and `foo["a.b"]` passes for `foo.a.b`.

So whatever is reported points at nothing, component by component, and what points at nothing is
reported as long as no component holds a point (`reported_iff_points_at_nothing`). With a point in a
quoted component an import that points at nothing may go unreported (`quoted_point_goes_unreported`).
-/

namespace PolicyLint

/-! ## Files and what they define -/

/-- What files contribute to the rule on imports; a file that does not parse contributes nothing. -/
def importState (files : PathMap String) : PathMap Contribution :=
  files.filterMap fun text => (Rego.parse text).toOption.map (.ofModule .unresolvedImport)

/-- One of the files has this module. -/
def HasModule (files : PathMap String) (m : Rego.Module) : Prop :=
  ∃ e ∈ files.entries, Rego.parse e.2 = .ok m

/-- A reference below `data` points at something: compared by what `cut` makes of their components,
it is the package of a file, or packages lie below it, or it is a rule of a file, or inside a rule. -/
def PointsAt {α : Type} (cut : List String → List α) (files : PathMap String)
    (reference : List String) : Prop :=
  ∃ m, HasModule files m ∧ (cut reference <+: cut m.package.path ∨
    ∃ r ∈ m.rules, cut (m.package.path ++ [r.name]) <+: cut reference)

/-- Components cut at their points. -/
def cutAtPoints (components : List String) : List (List Char) :=
  components.flatMap fun c => pieces '.' c.toList

/-- No component holds a point. -/
def Pointless (components : List String) : Prop :=
  ∀ c ∈ components, '.' ∉ c.toList

/-! ## Dotted names -/

namespace Rego

theorem dotted_concat {path : List String} (h : path ≠ []) (name : String) :
    dotted (path ++ [name]) = dotted path ++ "." ++ name := by
  induction path with
  | nil => exact absurd rfl h
  | cons c path ih =>
    cases path with
    | nil => simp [dotted]
    | cons d path =>
      rw [List.cons_append, List.cons_append, dotted_cons_cons, dotted_cons_cons,
        ← List.cons_append, ih (List.cons_ne_nil d path)]
      simp [String.append_assoc]

theorem IsIdentifier.notMem_point {cs : List Char} (h : IsIdentifier cs) : '.' ∉ cs := by
  obtain ⟨c, rest, rfl, hc, hrest⟩ := h
  intro hmem
  rcases List.mem_cons.1 hmem with rfl | hmem
  · exact absurd hc (by decide)
  · exact absurd (hrest _ hmem) (by decide)

end Rego

namespace UnresolvedImport

/-- The segments of joined components are those of the components, one after the other. -/
theorem segments_dotted {path : List String} (h : path ≠ []) :
    segments (Rego.dotted path) = cutAtPoints path := by
  induction path with
  | nil => exact absurd rfl h
  | cons c path ih =>
    cases path with
    | nil => simp [Rego.dotted, segments, cutAtPoints]
    | cons d path =>
      have hlist : (Rego.dotted (c :: d :: path)).toList =
          c.toList ++ '.' :: (Rego.dotted (d :: path)).toList := by
        rw [Rego.dotted_cons_cons]
        simp
      rw [segments, hlist, pieces_append_cons]
      exact congrArg (pieces '.' c.toList ++ ·) (ih (List.cons_ne_nil d path))

/-! ## What imports are compared by -/

variable {files : PathMap String}

theorem mem_factsOf_importState {x : Path × ImportFacts} : x ∈ factsOf (importState files) ↔
    ∃ e ∈ files.entries, ∃ m, Rego.parse e.2 = .ok m ∧ x = (e.1, .ofModule m) := by
  constructor
  · intro h
    obtain ⟨⟨path, c⟩, hc, hx⟩ := List.mem_filterMap.1 h
    obtain ⟨e, he, hc⟩ := List.mem_filterMap.1 hc
    dsimp only at hc
    cases hparse : Rego.parse e.2 with
    | error errors =>
      rw [hparse] at hc
      cases hc
    | ok m =>
      rw [hparse] at hc
      cases hc
      cases hx
      exact ⟨e, he, m, hparse, rfl⟩
  · rintro ⟨e, he, m, hparse, rfl⟩
    refine List.mem_filterMap.2 ⟨(e.1, .unresolvedImport (.ofModule m)), ?_, rfl⟩
    refine List.mem_filterMap.2 ⟨e, he, ?_⟩
    dsimp only
    rw [hparse]
    rfl

/-- A target of the facts resolves when, cut at points, it points at something. -/
theorem resolves_dotted_iff {cs : List String} (h : cs ≠ []) :
    Resolves (factsOf (importState files)) (Rego.dotted cs) ↔ PointsAt cutAtPoints files cs := by
  have hrule : ∀ {text : String} {m : Rego.Module} (r : String), Rego.parse text = .ok m →
      segments ((ImportFacts.ofModule m).package ++ "." ++ r) =
        cutAtPoints (m.package.path ++ [r]) := by
    intro text m r hparse
    rw [← segments_dotted (List.append_ne_nil_of_right_ne_nil _ (List.cons_ne_nil r [])),
      Rego.dotted_concat (Rego.package_path_ne_nil hparse)]
    rfl
  have hpackage : ∀ {text : String} {m : Rego.Module}, Rego.parse text = .ok m →
      segments (ImportFacts.ofModule m).package = cutAtPoints m.package.path :=
    fun hparse => segments_dotted (Rego.package_path_ne_nil hparse)
  unfold Resolves PointsAt
  rw [segments_dotted h]
  constructor
  · rintro (⟨x, hx, hprefix⟩ | ⟨x, hx, r, hr, hprefix⟩)
    · obtain ⟨e, he, m, hparse, rfl⟩ := mem_factsOf_importState.1 hx
      exact ⟨m, ⟨e, he, hparse⟩, Or.inl (hpackage hparse ▸ hprefix)⟩
    · obtain ⟨e, he, m, hparse, rfl⟩ := mem_factsOf_importState.1 hx
      obtain ⟨rule, hmem, rfl⟩ := List.mem_map.1 (mem_sortedSet.1 hr)
      exact ⟨m, ⟨e, he, hparse⟩, Or.inr ⟨rule, hmem, hrule _ hparse ▸ hprefix⟩⟩
  · rintro ⟨m, ⟨e, he, hparse⟩, hprefix | ⟨rule, hmem, hprefix⟩⟩
    · refine Or.inl ⟨_, mem_factsOf_importState.2 ⟨e, he, m, hparse, rfl⟩, ?_⟩
      rw [hpackage hparse]
      exact hprefix
    · refine Or.inr ⟨_, mem_factsOf_importState.2 ⟨e, he, m, hparse, rfl⟩, rule.name,
        mem_sortedSet.2 (List.mem_map_of_mem hmem), ?_⟩
      rw [hrule _ hparse]
      exact hprefix

end UnresolvedImport

/-! ## Components -/

/-- What points at something component by component does so cut at points. -/
theorem PointsAt.cut {files : PathMap String} {cs : List String} (h : PointsAt id files cs) :
    PointsAt cutAtPoints files cs := by
  obtain ⟨m, hm, ⟨rest, hrest⟩ | ⟨r, hr, rest, hrest⟩⟩ := h
  · refine ⟨m, hm, Or.inl ⟨cutAtPoints rest, ?_⟩⟩
    rw [id_eq, id_eq] at hrest
    rw [← hrest, cutAtPoints, cutAtPoints, cutAtPoints, List.flatMap_append]
  · refine ⟨m, hm, Or.inr ⟨r, hr, cutAtPoints rest, ?_⟩⟩
    rw [id_eq, id_eq] at hrest
    rw [← hrest]
    simp [cutAtPoints, List.flatMap_append]

theorem cutAtPoints_of_pointless {cs : List String} (h : Pointless cs) :
    cutAtPoints cs = cs.map String.toList := by
  induction cs with
  | nil => rfl
  | cons c cs ih =>
    have hc : pieces '.' c.toList = [c.toList] := by
      have hpieces : pieces '.' (['.'].intercalate [c.toList]) = [c.toList] :=
        pieces_intercalate (by simpa using h c (List.mem_cons_self ..)) (List.cons_ne_nil _ _)
      simpa using hpieces
    rw [cutAtPoints, List.flatMap_cons, hc, List.map_cons]
    exact congrArg (c.toList :: ·) (ih fun d hd => h d (List.mem_cons_of_mem c hd))

/-- Without points, components begin with others when cut at points they do. -/
theorem prefix_of_cutAtPoints {cs ds : List String} (hc : Pointless cs) (hd : Pointless ds)
    (h : cutAtPoints cs <+: cutAtPoints ds) : cs <+: ds := by
  rw [cutAtPoints_of_pointless hc, cutAtPoints_of_pointless hd] at h
  obtain ⟨front, hfront, hmap⟩ := List.prefix_map_iff.1 h
  rw [(List.map_inj_right fun _ _ => String.toList_inj.1).1 hmap]
  exact hfront

/-- Without points in components, what points at something cut at points does so component by
component. -/
theorem PointsAt.of_cut {files : PathMap String} {cs : List String} (hcs : Pointless cs)
    (hpackages : ∀ m, HasModule files m → Pointless m.package.path)
    (h : PointsAt cutAtPoints files cs) : PointsAt id files cs := by
  obtain ⟨m, hm, hpackage | ⟨r, hr, hrule⟩⟩ := h
  · exact ⟨m, hm, Or.inl (prefix_of_cutAtPoints hcs (hpackages m hm) hpackage)⟩
  · refine ⟨m, hm, Or.inr ⟨r, hr, prefix_of_cutAtPoints (fun c hc => ?_) hcs hrule⟩⟩
    rcases List.mem_append.1 hc with hc | hc
    · exact hpackages m hm c hc
    · obtain ⟨e, -, hparse⟩ := hm
      rw [List.mem_singleton.1 hc]
      exact (Rego.isIdentifier_of_mem_rules hparse hr).notMem_point

namespace UnresolvedImport

variable {files : PathMap String}

theorem import_mem_imports {path : Path} {text : String} {m : Rego.Module} {i : Rego.Import}
    {cs : List String} (hfile : (path, text) ∈ files.entries) (hparse : Rego.parse text = .ok m)
    (hi : i ∈ m.imports) (hpath : i.path = "data" :: cs) (hcs : cs ≠ []) :
    (path, ⟨Rego.dotted cs, i.range⟩) ∈ imports (factsOf (importState files)) := by
  refine List.mem_flatMap.2
    ⟨_, mem_factsOf_importState.2 ⟨_, hfile, m, hparse, rfl⟩, List.mem_map.2 ⟨_, ?_, rfl⟩⟩
  refine List.mem_filterMap.2 ⟨i, hi, ?_⟩
  cases cs with
  | nil => exact absurd rfl hcs
  | cons c cs =>
    unfold ImportFact.ofImport?
    rw [hpath]
    rfl

/-- An import of `data` is reported exactly when, cut at points, it points at nothing. What is
reported points at nothing component by component, and what does so is reported if no component of
it or of a package holds a point. -/
theorem reported_iff_points_at_nothing (files : PathMap String) {path : Path} {text : String}
    {m : Rego.Module} {i : Rego.Import} {cs : List String} (hfile : (path, text) ∈ files.entries)
    (hparse : Rego.parse text = .ok m) (hi : i ∈ m.imports) (hpath : i.path = "data" :: cs)
    (hcs : cs ≠ []) :
    let reported := finding path ⟨Rego.dotted cs, i.range⟩ ∈
      Category.unresolvedImport.findings (importState files)
    (reported ↔ ¬ PointsAt cutAtPoints files cs) ∧
      (reported → ¬ PointsAt id files cs) ∧
      (Pointless cs → (∀ n, HasModule files n → Pointless n.package.path) →
        ¬ PointsAt id files cs → reported) := by
  intro reported
  have hiff : reported ↔ ¬ PointsAt cutAtPoints files cs := by
    rw [← resolves_dotted_iff hcs]
    exact finding_mem_iff (import_mem_imports hfile hparse hi hpath hcs)
  refine ⟨hiff, fun h hpoints => hiff.1 h hpoints.cut, fun hpointless hpackages hnothing => ?_⟩
  exact hiff.2 fun hcut => hnothing (hcut.of_cut hpointless hpackages)

/-- The import of `foo["a.b"]` points at nothing and is not reported, because there is a package
`foo.a.b`. -/
theorem quoted_point_goes_unreported :
    let outer := "package foo.a.b"
    let inner := "package b\n\nimport data.foo[\"a.b\"]"
    let files := (PathMap.empty.insert ⟨"/ws/a.rego"⟩ outer).insert ⟨"/ws/b.rego"⟩ inner
    let i : Rego.Import := ⟨["data", "foo", "a.b"], none, ⟨⟨2, 0⟩, ⟨2, 22⟩⟩⟩
    (∃ m, Rego.parse inner = .ok m ∧ i ∈ m.imports) ∧ ¬ PointsAt id files ["foo", "a.b"] ∧
      finding ⟨"/ws/b.rego"⟩ ⟨"foo.a.b", i.range⟩ ∉
        Category.unresolvedImport.findings (importState files) := by
  intro outer inner files i
  have hentries : (files.entries.map fun e => (e.1.text, e.2)) =
      [("/ws/a.rego", outer), ("/ws/b.rego", inner)] := by decide +kernel
  have hmem : ∀ path text, (path, text) ∈ [("/ws/a.rego", outer), ("/ws/b.rego", inner)] →
      (⟨path⟩, text) ∈ files.entries := by
    intro path text h
    rw [← hentries] at h
    obtain ⟨⟨⟨path'⟩, text'⟩, he, heq⟩ := List.mem_map.1 h
    cases heq
    exact he
  have houter : Rego.parse outer = .ok { package := ⟨["foo", "a", "b"], ⟨⟨0, 0⟩, ⟨0, 7⟩⟩, false⟩ } :=
    toOption_eq_some_iff.1 (by decide +kernel)
  have hinner : Rego.parse inner =
      .ok { package := ⟨["b"], ⟨⟨0, 0⟩, ⟨0, 7⟩⟩, false⟩, imports := [i] } :=
    toOption_eq_some_iff.1 (by decide +kernel)
  have hpath : i.path = "data" :: ["foo", "a.b"] := rfl
  have hreported := reported_iff_points_at_nothing files (hmem "/ws/b.rego" inner (by simp)) hinner
    (List.mem_singleton.2 rfl) hpath (List.cons_ne_nil _ _)
  refine ⟨⟨_, hinner, List.mem_singleton.2 rfl⟩, ?_, fun h => hreported.1.1 h ?_⟩
  · rintro ⟨m, ⟨e, he, hm⟩, hpoints⟩
    have hknown : (e.1.text, e.2) ∈ [("/ws/a.rego", outer), ("/ws/b.rego", inner)] := by
      rw [← hentries]
      exact List.mem_map.2 ⟨e, he, rfl⟩
    simp only [List.mem_cons, Prod.mk.injEq, List.not_mem_nil, or_false] at hknown
    rcases hknown with ⟨-, htext⟩ | ⟨-, htext⟩
    · rw [htext, houter] at hm
      cases hm
      revert hpoints
      decide +kernel
    · rw [htext, hinner] at hm
      cases hm
      revert hpoints
      decide +kernel
  · exact ⟨_, ⟨_, hmem "/ws/a.rego" outer (by simp), houter⟩, Or.inl (by decide +kernel)⟩

end UnresolvedImport

end PolicyLint
