import PolicyLint.Proofs.Workspace.FileRecord
/-!
# Where findings across files come from

A finding across files is shown in a file that contributes, at a place that this file itself
contributed (`exists_contribution_of_mem_findings`). With the standard capabilities, recomputing
leaves each contributing file with exactly the findings of the enabled categories that are about
it, and every other file with no entry (`crossFindings?_recompute`).
-/

namespace PolicyLint

/-- The places a contribution may be reported at. -/
def Contribution.places : Contribution → List Range
  | .missingMetadata f => f.location :: f.rules.map (·.location)
  | .unresolvedImport f => f.imports.map (·.location)

namespace MissingMetadata

theorem earliest_mem (first : Declaration) (others : List Declaration) :
    earliest first others ∈ first :: others := by
  suffices h : ∀ (ds : List Declaration) (best : Declaration), best ∈ first :: others →
      (∀ d ∈ ds, d ∈ first :: others) →
      ds.foldl (fun best d => if d.isBefore best then d else best) best ∈ first :: others from
    h others first (by simp) fun d hd => by simp [hd]
  intro ds
  induction ds with
  | nil => intro best hb _; exact hb
  | cons d ds ih =>
    intro best hb hds
    rw [List.foldl_cons]
    refine ih _ ?_ fun x hx => hds x (by simp [hx])
    split
    · exact hds d (by simp)
    · exact hb

theorem mem_declarations {state : PathMap Contribution} {d : Declaration}
    (h : d ∈ declarations state) : ∃ e ∈ state.entries, d.path = e.1 ∧ d.location ∈ e.2.places := by
  obtain ⟨⟨path, c⟩, he, hd⟩ := List.mem_flatMap.1 h
  refine ⟨(path, c), he, ?_⟩
  cases c with
  | unresolvedImport f => simp at hd
  | missingMetadata f =>
    rcases List.mem_cons.1 hd with rfl | hd
    · simp [Contribution.places]
    · obtain ⟨r, hr, rfl⟩ := List.mem_map.1 hd
      refine ⟨rfl, List.mem_cons_of_mem _ (List.mem_map.2 ⟨r, hr, rfl⟩)⟩

theorem mem_evaluate {state : PathMap Contribution} {f : Path × Diagnostic}
    (h : f ∈ evaluate state) : ∃ e ∈ state.entries, f.1 = e.1 ∧ f.2.range ∈ e.2.places := by
  obtain ⟨s, -, hs⟩ := List.mem_filterMap.1 h
  unfold finding? at hs
  split at hs
  · cases hs
  · next d rest hf =>
    dsimp only at hs
    split at hs
    · cases hs
    · cases hs
      have hmem : earliest d rest ∈ (declarations state).filter (·.subject = s) := by
        rw [hf]; exact earliest_mem d rest
      obtain ⟨e, he, hp, hl⟩ := mem_declarations (List.mem_filter.1 hmem).1
      exact ⟨e, he, hp, hl⟩

end MissingMetadata

theorem UnresolvedImport.mem_evaluate {state : PathMap Contribution} {f : Path × Diagnostic}
    (h : f ∈ evaluate state) : ∃ e ∈ state.entries, f.1 = e.1 ∧ f.2.range ∈ e.2.places := by
  obtain ⟨⟨path, facts⟩, hx, hf⟩ := List.mem_flatMap.1 h
  obtain ⟨i, hi, rfl⟩ := List.mem_map.1 hf
  obtain ⟨⟨q, c⟩, he, hc⟩ := List.mem_filterMap.1 hx
  cases c with
  | missingMetadata g => simp at hc
  | unresolvedImport g =>
    cases hc
    exact ⟨_, he, rfl, List.mem_map.2 ⟨i, (List.mem_filter.1 hi).1, rfl⟩⟩

/-- A finding is shown in a file that contributes, at a place it contributed. -/
theorem exists_contribution_of_mem_findings {c : Category} {state : PathMap Contribution}
    {f : Path × Diagnostic} (h : f ∈ c.findings state) :
    ∃ contribution, state.get? f.1 = some contribution ∧ f.2.range ∈ contribution.places := by
  have hf : f ∈ c.evaluate state := List.mem_mergeSort.1 h
  have : ∃ e ∈ state.entries, f.1 = e.1 ∧ f.2.range ∈ e.2.places := by
    cases c with
    | missingMetadata => exact MissingMetadata.mem_evaluate hf
    | unresolvedImport => exact UnresolvedImport.mem_evaluate hf
  obtain ⟨e, he, hp, hr⟩ := this
  exact ⟨e.2, PathMap.get?_eq_some_iff.2 ⟨e, he, by rw [hp]; exact BEq.rfl, rfl⟩, hr⟩

/-- Evaluators that find things only in files that contribute. -/
def Capabilities.Contained {σ : Type} (cap : Capabilities σ) : Prop :=
  ∀ host c state fs, (cap.evaluate host c state).1 = .ok fs → ∀ f ∈ fs, state.contains f.1 = true

theorem Capabilities.contained_standard : standard.Contained := by
  intro host c state fs hfs f hf
  cases hfs
  obtain ⟨contribution, hget, -⟩ := exists_contribution_of_mem_findings (List.mem_mergeSort.2 hf)
  rw [PathMap.contains, hget]
  rfl

theorem Capabilities.Contained.mem_findings {σ : Type} {cap : Capabilities σ}
    (hcap : cap.Contained) {host : σ} {c : Category} {state : PathMap Contribution}
    {fs : List (Path × Diagnostic)} (hfs : (cap.findings host c state).1 = .ok fs)
    {f : Path × Diagnostic} (hf : f ∈ fs) : state.contains f.1 = true := by
  unfold findings at hfs
  split at hfs
  · cases hr : (cap.evaluate host c state).1 with
    | error fault =>
      dsimp only at hfs
      rw [hr] at hfs
      cases hfs
    | ok gs =>
      dsimp only at hfs
      rw [hr] at hfs
      cases hfs
      exact hcap host c state gs hr f (List.mem_mergeSort.1 hf)
  · cases hfs
    cases hf

/-- The findings of the enabled categories over all contributions that are about a file. -/
def Store.crossFindingsFor (s : Store) (settings : Settings) (p : Path) : List Diagnostic :=
  (Category.all.filter fun c => settings.isEnabled c.code).flatMap fun c =>
    ((c.findings (s.state c)).filter (·.1 == p)).map (·.2)

namespace Analyzer

variable {σ : Type}

theorem get?_appendTo (m : ByFile) (p q : Path) (ds : List Diagnostic) :
    (appendTo m p ds).get? q =
      if p == q then some ((m.get? q).getD [] ++ ds) else m.get? q := by
  rw [appendTo, PathMap.get?_insert]
  split
  · next h => rw [PathMap.get?_congr m h]
  · rfl

theorem get?_foldl_appendTo {q : Path} (fs : List (Path × Diagnostic)) {m : ByFile}
    {ds : List Diagnostic} (h : m.get? q = some ds) :
    (fs.foldl (fun m f => appendTo m f.1 [f.2]) m).get? q =
      some (ds ++ (fs.filter (·.1 == q)).map (·.2)) := by
  induction fs generalizing m ds with
  | nil => simpa using h
  | cons f fs ih =>
    rw [List.foldl_cons]
    cases hf : f.1 == q with
    | false => rw [ih (by rw [get?_appendTo, hf]; exact h)]; simp [hf]
    | true => rw [ih (by rw [get?_appendTo, hf, h]; rfl)]; simp [hf]

theorem get?_foldl_appendTo_none {α : Type} {q : Path} (path : α → Path)
    (ds : α → List Diagnostic) {xs : List α} {m : ByFile} (h : m.get? q = none)
    (hxs : ∀ x ∈ xs, (path x == q) = false) :
    (xs.foldl (fun m x => appendTo m (path x) (ds x)) m).get? q = none := by
  induction xs generalizing m with
  | nil => exact h
  | cons x xs ih =>
    refine ih ?_ fun y hy => hxs y (List.mem_cons_of_mem _ hy)
    rw [get?_appendTo, hxs x (List.mem_cons_self ..)]
    exact h

theorem addCategory_standard (a : Analyzer Unit) (m : ByFile) (c : Category) :
    addCategory .standard a (m, ()) c =
      (if a.settings.isEnabled c.code then
        (c.findings (a.store.state c)).foldl (fun m f => appendTo m f.1 [f.2]) m
      else m, ()) := by
  unfold addCategory
  split
  · simp
  · rfl

/-- One category adds its findings about a file to those that are there. -/
theorem get?_addCategory (a : Analyzer Unit) {m : ByFile} {q : Path} {ds : List Diagnostic}
    (c : Category) (h : m.get? q = some ds) :
    (addCategory .standard a (m, ()) c).1.get? q =
      some (ds ++ if a.settings.isEnabled c.code then
        ((c.findings (a.store.state c)).filter (·.1 == q)).map (·.2) else []) := by
  rw [addCategory_standard]
  split
  · exact get?_foldl_appendTo _ h
  · simpa using h

/-- No category makes an entry for a file that contributes nothing. Only a category that fails can
keep one. -/
theorem get?_addCategory_none {cap : Capabilities σ} (hcap : cap.Contained) (a : Analyzer σ)
    {acc : ByFile × σ} {q : Path} (c : Category) (hc : a.store.contributions.get? q = none)
    (hkept : (∀ host, (cap.findings host c (a.store.state c)).1.isOk = true) ∨
      a.store.crossFindings.get? q = none)
    (h : acc.1.get? q = none) : (addCategory cap a acc c).1.get? q = none := by
  have hstate : (a.store.state c).contains q = false := by
    rw [PathMap.contains, Store.state, PathMap.get?_filterMap, hc]
    rfl
  unfold addCategory
  split
  · split
    · next findings host hf =>
      refine get?_foldl_appendTo_none Prod.fst (fun f => [f.2]) h fun f hmem => ?_
      refine Bool.eq_false_iff.2 fun hq => ?_
      have hin := hcap.mem_findings (congrArg Prod.fst hf) hmem
      rw [PathMap.contains_congr _ hq, hstate] at hin
      cases hin
    · next fault host hf =>
      have hnone : a.store.crossFindings.get? q = none := by
        refine hkept.resolve_left fun hok => ?_
        have hfault := hok acc.2
        rw [hf] at hfault
        cases hfault
      exact get?_foldl_appendTo_none _ _ h (PathMap.get?_eq_none_iff.1 hnone)
  · exact h

theorem get?_recompute_none {cap : Capabilities σ} (hcap : cap.Contained) {a : Analyzer σ} {q : Path}
    (hc : a.store.contributions.get? q = none)
    (hkept : (∀ host c, (cap.findings host c (a.store.state c)).1.isOk = true) ∨
      a.store.crossFindings.get? q = none) :
    (a.recompute cap).store.crossFindings.get? q = none := by
  have hfold : ∀ (cs : List Category) (acc : ByFile × σ), acc.1.get? q = none →
      (cs.foldl (addCategory cap a) acc).1.get? q = none := by
    intro cs
    induction cs with
    | nil => exact fun _ h => h
    | cons c cs ih =>
      intro acc h
      exact ih _ (get?_addCategory_none hcap a c hc (hkept.imp_left fun hok host => hok host c) h)
  refine hfold cap.categories _ ?_
  rw [PathMap.get?_filterMap, hc]
  rfl

/-- Recomputing changes nothing but the findings across files and the state of the evaluators. -/
theorem recompute_eq (cap : Capabilities σ) (a : Analyzer σ) :
    a.recompute cap =
      { a with
        store := { a.store with crossFindings := (a.recompute cap).store.crossFindings }
        host := (a.recompute cap).host } := rfl

/-- With the standard capabilities a contributing file has exactly the findings about it, and a
file that does not contribute has no entry. -/
theorem crossFindings?_recompute (a : Analyzer Unit) (q : Path) :
    ((a.recompute .standard).store.file q).crossFindings? =
      (a.store.file q).contributed?.map fun _ => a.store.crossFindingsFor a.settings q := by
  cases hc : a.store.contributions.get? q with
  | none =>
    have hnone : (a.store.file q).contributed? = none := hc
    rw [hnone]
    refine get?_recompute_none Capabilities.contained_standard hc (Or.inl fun host c => ?_)
    rw [Capabilities.findings_standard]
    rfl
  | some contributed =>
    have hstart : (a.store.contributions.filterMap fun _ => some ([] : List Diagnostic)).get? q =
        some [] := by rw [PathMap.get?_filterMap, hc]; rfl
    change ((Category.all.foldl (addCategory .standard a) (_, ())).1).get? q = _
    simp only [Category.all, List.foldl_cons, List.foldl_nil]
    have h1 := get?_addCategory a .missingMetadata hstart
    have h2 := get?_addCategory a .unresolvedImport h1
    simp only [Store.file, hc, Option.map_some]
    refine h2.trans ?_
    unfold Store.crossFindingsFor
    cases hm : a.settings.isEnabled Category.missingMetadata.code <;>
      cases hi : a.settings.isEnabled Category.unresolvedImport.code <;>
      simp [Category.all, hm, hi]

end Analyzer

end PolicyLint
