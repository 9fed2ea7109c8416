import PolicyLint.Proofs.FileSystem.Entries
import PolicyLint.Proofs.Workspace.CrossFindings
/-!
# Findings do not depend on spellings

A map keyed by paths keeps the spelling under which a path came in first, so two maps with the same
contributions may spell their files differently. What the rules across files find is then spelled
differently too, and nothing else changes: every rule commutes with respelling the paths
(`Category.findings_respelled`). So what is found about a file depends only on what each file
contributes (`Store.crossFindingsFor_congr`).
-/

namespace PolicyLint

/-! ## Respelling -/

/-- A function that changes no more than how paths are spelled. -/
def Respells (g : Path → Path) : Prop :=
  ∀ p, (g p == p) = true

/-- A path respelled, with what is filed under it. -/
def respell {α : Type} (g : Path → Path) (e : Path × α) : Path × α :=
  (g e.1, e.2)

variable {g : Path → Path}

theorem Respells.order (hg : Respells g) (p q : Path) : (g p).order (g q) = p.order q := by
  unfold Path.order
  rw [Path.beq_iff.1 (hg p), Path.beq_iff.1 (hg q)]

theorem Respells.beq (hg : Respells g) (p q : Path) : (g p == q) = (p == q) := by
  rw [Bool.eq_iff_iff]
  exact ⟨BEq.trans (BEq.symm (hg p)), BEq.trans (hg p)⟩

namespace PathMap

variable {α : Type}

/-- How a map spells a path; a path without an entry stays as it is. -/
def spelling (m : PathMap α) (p : Path) : Path :=
  ((m.entries.find? fun e => e.1 == p).map (·.1)).getD p

theorem respells_spelling (m : PathMap α) : Respells m.spelling := by
  intro p
  unfold spelling
  cases hf : m.entries.find? fun e => e.1 == p with
  | none => exact BEq.rfl
  | some e =>
    have hp := List.find?_some hf
    exact hp

theorem spelling_of_mem {m : PathMap α} {e : Path × α} (he : e ∈ m.entries) {p : Path}
    (hp : (e.1 == p) = true) : m.spelling p = e.1 := by
  unfold spelling
  cases hf : m.entries.find? fun e => e.1 == p with
  | none => exact absurd hp (List.find?_eq_none.1 hf e he)
  | some f =>
    have hfp := List.find?_some hf
    rw [m.entry_unique (List.mem_of_find?_eq_some hf) he (BEq.trans hfp (BEq.symm hp))]
    rfl

theorem ascending_respelled (hg : Respells g) {es : List (Path × α)} (h : Ascending es) :
    Ascending (es.map (respell g)) := by
  refine List.pairwise_map.2 (h.imp ?_)
  intro e f hlt
  exact (hg.order e.1 f.1).trans hlt

/-- Maps with the same value at every path are one map, respelled. -/
theorem entries_eq_respelled {m n : PathMap α} (h : ∀ p, m.get? p = n.get? p) :
    n.entries = m.entries.map (respell n.spelling) := by
  refine eq_of_ascending n.ascending (ascending_respelled n.respells_spelling m.ascending)
    fun e => ?_
  constructor
  · intro he
    have hget : m.get? e.1 = some e.2 := by
      rw [h]
      exact get?_eq_some_iff.2 ⟨e, he, BEq.rfl, rfl⟩
    obtain ⟨f, hf, hfe, hval⟩ := get?_eq_some_iff.1 hget
    refine List.mem_map.2 ⟨f, hf, ?_⟩
    rw [respell, spelling_of_mem he (BEq.symm hfe), hval]
  · intro he
    obtain ⟨f, hf, rfl⟩ := List.mem_map.1 he
    have hget : n.get? f.1 = some f.2 := by
      rw [← h]
      exact get?_eq_some_iff.2 ⟨f, hf, BEq.rfl, rfl⟩
    obtain ⟨e, he, hef, hval⟩ := get?_eq_some_iff.1 hget
    rw [respell, spelling_of_mem he hef, ← hval]
    exact he

theorem keys_eq_respelled {m n : PathMap α} (h : ∀ p, m.get? p = n.get? p) :
    n.keys = m.keys.map n.spelling := by
  unfold keys
  rw [entries_eq_respelled h, List.map_map, List.map_map]
  rfl

/-- Maps with the same value at every path have the same keys, if each key of one is a key of the
other as it is spelled. -/
theorem keys_congr {m n : PathMap α} (h : ∀ p, m.get? p = n.get? p) (hk : ∀ k ∈ m.keys, k ∈ n.keys) :
    n.keys = m.keys := by
  have hsame : ∀ k ∈ m.keys, n.spelling k = k := by
    intro k hkm
    obtain ⟨e, he, rfl⟩ := List.mem_map.1 (hk k hkm)
    exact spelling_of_mem he BEq.rfl
  rw [keys_eq_respelled h, List.map_congr_left hsame, List.map_id']

end PathMap

/-! ## Missing metadata -/

namespace MissingMetadata

def Declaration.respell (g : Path → Path) (d : Declaration) : Declaration :=
  { d with path := g d.path }

variable {m n : PathMap Contribution}

theorem declarations_respelled (h : n.entries = m.entries.map (respell g)) :
    declarations n = (declarations m).map (Declaration.respell g) := by
  unfold declarations
  rw [h, List.flatMap_map, List.map_flatMap]
  congr 1
  funext ⟨p, c⟩
  cases c with
  | missingMetadata f => simp [PolicyLint.respell, declarationsIn, Declaration.respell]
  | unresolvedImport f => rfl

theorem subjects_respelled (g : Path → Path) (ds : List Declaration) :
    subjects (ds.map (Declaration.respell g)) = subjects ds := by
  unfold subjects
  rw [List.foldr_map]
  rfl

theorem isBefore_respelled (hg : Respells g) (a b : Declaration) :
    (a.respell g).isBefore (b.respell g) = a.isBefore b := by
  unfold Declaration.isBefore Declaration.respell
  rw [hg.order]

theorem earliest_respelled (hg : Respells g) (first : Declaration) (others : List Declaration) :
    earliest (first.respell g) (others.map (Declaration.respell g)) =
      (earliest first others).respell g := by
  unfold earliest
  induction others generalizing first with
  | nil => rfl
  | cons d others ih =>
    rw [List.map_cons, List.foldl_cons, List.foldl_cons, isBefore_respelled hg, ← ih]
    split <;> rfl

theorem finding?_respelled (hg : Respells g) (ds : List Declaration) (s : Subject) :
    finding? (ds.map (Declaration.respell g)) s = (finding? ds s).map (respell g) := by
  have hfilter : (ds.map (Declaration.respell g)).filter (·.subject = s) =
      (ds.filter (·.subject = s)).map (Declaration.respell g) := by
    rw [List.filter_map]
    rfl
  unfold finding?
  rw [hfilter]
  cases ds.filter (·.subject = s) with
  | nil => rfl
  | cons d rest =>
    have hany : ((d :: rest).map (Declaration.respell g)).any (·.annotated) =
        (d :: rest).any (·.annotated) := by
      rw [List.any_map]
      rfl
    change (if ((d :: rest).map (Declaration.respell g)).any (·.annotated) = true then _ else _) = _
    rw [hany]
    dsimp only
    split
    · rfl
    · rw [earliest_respelled hg]
      rfl

theorem evaluate_respelled (hg : Respells g) (h : n.entries = m.entries.map (respell g)) :
    evaluate n = (evaluate m).map (respell g) := by
  unfold evaluate
  rw [declarations_respelled h]
  dsimp only
  rw [subjects_respelled, List.map_filterMap]
  congr 1
  funext s
  exact finding?_respelled hg _ s

end MissingMetadata

/-! ## Unresolved imports -/

namespace UnresolvedImport

variable {m n : PathMap Contribution}

theorem factsOf_respelled (h : n.entries = m.entries.map (respell g)) :
    factsOf n = (factsOf m).map (respell g) := by
  unfold factsOf
  rw [h, List.filterMap_map, List.map_filterMap]
  congr 1
  funext ⟨p, c⟩
  cases c <;> rfl

theorem resolves_respelled (g : Path → Path) (facts : List (Path × ImportFacts)) (target : String) :
    resolves (facts.map (respell g)) target = resolves facts target := by
  have hpackages : packages (facts.map (respell g)) = packages facts := by
    unfold packages
    rw [List.map_map]
    rfl
  have hrules : rules (facts.map (respell g)) = rules facts := by
    unfold rules
    rw [List.flatMap_map]
    rfl
  unfold resolves
  rw [hpackages, hrules]

theorem evaluate_respelled (h : n.entries = m.entries.map (respell g)) :
    evaluate n = (evaluate m).map (respell g) := by
  unfold evaluate
  rw [factsOf_respelled h]
  dsimp only
  rw [List.flatMap_map, List.map_flatMap]
  congr 1
  funext ⟨p, f⟩
  simp only [respell, resolves_respelled, List.map_map]
  rfl

end UnresolvedImport

/-! ## All categories -/

/-- The findings of a category over respelled contributions are the respelled findings. -/
theorem Category.findings_respelled (hg : Respells g) {m n : PathMap Contribution}
    (h : n.entries = m.entries.map (respell g)) (c : Category) :
    c.findings n = (c.findings m).map (respell g) := by
  have hevaluate : c.evaluate n = (c.evaluate m).map (respell g) := by
    cases c with
    | missingMetadata => exact MissingMetadata.evaluate_respelled hg h
    | unresolvedImport => exact UnresolvedImport.evaluate_respelled h
  unfold Category.findings sortFindings
  rw [hevaluate]
  refine (List.map_mergeSort ?_).symm
  intro a _ b _
  simp only [orderFindings, respell, hg.order]

/-- What a category finds about a file depends only on what each file contributes. -/
theorem Category.findings_about_congr {m n : PathMap Contribution}
    (h : ∀ p, m.get? p = n.get? p) (c : Category) (p : Path) :
    ((c.findings m).filter (·.1 == p)).map (·.2) =
      ((c.findings n).filter (·.1 == p)).map (·.2) := by
  have hg := n.respells_spelling
  rw [Category.findings_respelled hg (PathMap.entries_eq_respelled h), List.filter_map,
    List.map_map]
  have htest : (fun f : Path × Diagnostic => f.1 == p) ∘ respell n.spelling =
      fun f => f.1 == p := by
    funext f
    exact hg.beq f.1 p
  rw [htest]
  rfl

namespace Store

variable {s t : Store}

/-- Files that contribute the same contribute the same to each category. -/
theorem get?_state_congr (h : ∀ p, s.contributions.get? p = t.contributions.get? p)
    (c : Category) (p : Path) : (s.state c).get? p = (t.state c).get? p := by
  rw [state, state, PathMap.get?_filterMap, PathMap.get?_filterMap, h]

/-- What is found about a file depends only on what each file contributes. -/
theorem crossFindingsFor_congr (h : ∀ p, s.contributions.get? p = t.contributions.get? p)
    (settings : Settings) (p : Path) :
    s.crossFindingsFor settings p = t.crossFindingsFor settings p := by
  unfold crossFindingsFor
  congr 1
  funext c
  exact c.findings_about_congr (get?_state_congr h c) p

end Store

end PolicyLint
