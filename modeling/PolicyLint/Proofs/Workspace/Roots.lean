import PolicyLint.Proofs.CrossFile.Respelling
import PolicyLint.Proofs.Workspace.Run
/-!
# Removing roots

Roots are removed one after the other, and each removal decides by the roots that are left at that
moment. In the end this makes no difference: a known file is dropped by some removal if and only if
it lies below a removed path and below no root that remains (`dropped_iff`).
-/

namespace PolicyLint

/-- Whether a file lies below a path does not depend on how both are spelled. -/
theorem Path.isWithin_congr {p q root folder : Path} (hp : (p == q) = true)
    (hr : (root == folder) = true) : p.isWithin root = q.isWithin folder := by
  unfold isWithin
  rw [beq_iff.1 hp, beq_iff.1 hr]

namespace Layout

/-- A file that lies below a root is covered. -/
theorem covers_iff {l : Layout} {p : Path} :
    l.covers p = true ↔ ∃ root ∈ l.roots.keys, p.isWithin root = true :=
  List.any_eq_true

theorem covers_congr (l : Layout) {p q : Path} (h : (p == q) = true) : l.covers p = l.covers q := by
  unfold covers
  congr 1
  funext root
  exact Path.isWithin_congr h BEq.rfl

/-- The files that a removed root leaves without a root, however they are spelled. -/
theorem any_uncovered (l : Layout) (root : Path) {p : Path} :
    (l.uncovered root).any (· == p) = true ↔ l.known.contains p = true ∧
      p.isWithin root = true ∧ (l.removeRoot root).2.covers p = false := by
  have hcongr : ∀ k, (k == p) = true →
      (k.isWithin root && !(l.removeRoot root).2.covers k) =
        (p.isWithin root && !(l.removeRoot root).2.covers p) := by
    intro k hk
    rw [Path.isWithin_congr hk BEq.rfl, covers_congr _ hk]
  change (l.known.keys.filter fun k =>
    k.isWithin root && !(l.removeRoot root).2.covers k).any (· == p) = true ↔ _
  rw [Analyzer.any_filter_beq hcongr, ← PathMap.contains_eq_any]
  cases l.known.contains p <;> simp

theorem mem_roots_removeRoot {l : Layout} {root k : Path} :
    k ∈ (l.removeRoot root).2.roots.keys ↔ k ∈ l.roots.keys ∧ (k == root) = false :=
  PathMap.mem_keys_erase

theorem keys_known_removeRoot (l : Layout) (root : Path) :
    (l.removeRoot root).2.known.keys =
      l.known.keys.filter fun k => !(l.uncovered root).any (k == ·) := by
  change (l.known.entries.filter _).map (·.1) = (l.known.entries.map (·.1)).filter _
  rw [List.filter_map]
  rfl

/-- What a removed root leaves: the known files that do not lose their last root. -/
theorem contains_known_removeRoot (l : Layout) (root : Path) {p : Path} :
    (l.removeRoot root).2.known.contains p = true ↔ l.known.contains p = true ∧
      ¬(p.isWithin root = true ∧ (l.removeRoot root).2.covers p = false) := by
  have hcongr : ∀ k, (k == p) = true →
      (!(l.uncovered root).any (k == ·)) = !(l.uncovered root).any (· == p) := by
    intro k hk
    congr 2
    funext x
    rw [Bool.eq_iff_iff]
    exact ⟨fun hkx => BEq.trans (BEq.symm hkx) hk, fun hxp => BEq.trans hk (BEq.symm hxp)⟩
  rw [PathMap.contains_eq_any, keys_known_removeRoot, Analyzer.any_filter_beq hcongr, ← PathMap.contains_eq_any,
    Bool.and_eq_true, Bool.not_eq_true', ← Bool.not_eq_true, any_uncovered]
  by_cases hknown : l.known.contains p = true
  · simp [hknown]
  · simp [hknown]

theorem roots_addRoots (l : Layout) (roots : List Path) :
    (l.addRoots roots).roots = roots.foldl PathSet.add l.roots := by
  induction roots generalizing l with
  | nil => rfl
  | cons root roots ih => exact ih (l.addRoot root)

theorem addRoots_of_contains {l : Layout} {roots : List Path}
    (h : ∀ root ∈ roots, l.roots.contains root = true) : l.addRoots roots = l := by
  induction roots with
  | nil => rfl
  | cons root roots ih =>
    have hroot : l.addRoot root = l := by
      unfold addRoot PathSet.add
      rw [if_pos (h root (List.mem_cons_self ..))]
    change (l.addRoot root).addRoots roots = l
    rw [hroot]
    exact ih fun r hr => h r (List.mem_cons_of_mem _ hr)

end Layout

namespace PathSet

/-- A set is the set of its paths, spelled as they are. -/
theorem keys_ofList_keys (s : PathSet) : (ofList s.keys).keys = s.keys := by
  have hget : ∀ p, (ofList s.keys).get? p = s.get? p := by
    intro p
    have hcontains : ((ofList s.keys).get? p).isSome = (s.get? p).isSome := by
      change (ofList s.keys).contains p = s.contains p
      rw [contains_ofList, PathMap.contains_eq_any]
    cases h : (ofList s.keys).get? p <;> cases hs : s.get? p <;> simp_all
  exact (PathMap.keys_congr hget fun k hk => mem_of_mem_keys_ofList hk).symm

end PathSet

namespace Analyzer

variable {σ : Type} {acc : List Path × Layout} {p root : Path} {roots : List Path}

theorem roots_pass (cap : Capabilities σ) (d : Disk) (a : Analyzer σ)
    (toLint deleted : List Path) :
    (a.pass cap d toLint deleted).2.layout.roots = a.layout.roots := by
  have hforget : ∀ (ps : List Path) (a : Analyzer σ),
      (ps.foldl forget a).layout.roots = a.layout.roots := by
    intro ps
    induction ps with
    | nil => exact fun _ => rfl
    | cons p ps ih => exact fun a => ih (a.forget p)
  rw [layout_pass, hforget]

/-! ## One removal after another -/

theorem any_dropRoot : (dropRoot acc root).1.any (· == p) = true ↔
    acc.1.any (· == p) = true ∨ acc.2.known.contains p = true ∧ p.isWithin root = true ∧
      (dropRoot acc root).2.covers p = false := by
  change (acc.1 ++ acc.2.uncovered root).any (· == p) = true ↔ _
  rw [List.any_append, Bool.or_eq_true, Layout.any_uncovered]
  rfl

theorem mem_roots_foldl_dropRoot {k : Path} :
    k ∈ (roots.foldl dropRoot acc).2.roots.keys ↔
      k ∈ acc.2.roots.keys ∧ ∀ root ∈ roots, (k == root) = false := by
  induction roots generalizing acc with
  | nil => simp
  | cons root roots ih =>
    rw [List.foldl_cons, ih, List.forall_mem_cons, ← and_assoc]
    exact and_congr_left fun _ => Layout.mem_roots_removeRoot

theorem contains_roots_foldl_dropRoot (acc : List Path × Layout) (roots : List Path) (k : Path) :
    (roots.foldl dropRoot acc).2.roots.contains k =
      (acc.2.roots.contains k && !roots.any (· == k)) := by
  refine PathMap.contains_of_keys_removed (fun q => ?_) k
  rw [mem_roots_foldl_dropRoot]
  simp only [BEq.comm]

/-- A file is dropped if and only if it is known and lies below a removed path and below no root
that remains. -/
theorem dropped_iff : (roots.foldl dropRoot acc).1.any (· == p) = true ↔
    acc.1.any (· == p) = true ∨ acc.2.known.contains p = true ∧
      (∃ root ∈ roots, p.isWithin root = true) ∧
      (roots.foldl dropRoot acc).2.covers p = false := by
  induction roots generalizing acc with
  | nil => simp
  | cons root roots ih =>
    -- `mid` is what there is after the first removal, `last` after all of them
    let mid := dropRoot acc root
    let last := roots.foldl dropRoot mid
    have hknown : mid.2.known.contains p = true ↔ acc.2.known.contains p = true ∧
        ¬(p.isWithin root = true ∧ mid.2.covers p = false) :=
      Layout.contains_known_removeRoot acc.2 root
    have hcovers : mid.2.covers p = false → last.2.covers p = false := by
      intro hmid
      rw [Bool.eq_false_iff] at hmid ⊢
      intro hlast
      obtain ⟨k, hk, hp⟩ := Layout.covers_iff.1 hlast
      exact hmid (Layout.covers_iff.2 ⟨k, (mem_roots_foldl_dropRoot.1 hk).1, hp⟩)
    -- a root that covered the file and is gone in the end was removed on the way
    have hlost : mid.2.covers p = true → last.2.covers p = false →
        ∃ r ∈ roots, p.isWithin r = true := by
      intro hmid hlast
      obtain ⟨k, hk, hp⟩ := Layout.covers_iff.1 hmid
      by_cases hkept : ∀ r ∈ roots, (k == r) = false
      · rw [Layout.covers_iff.2 ⟨k, mem_roots_foldl_dropRoot.2 ⟨hk, hkept⟩, hp⟩] at hlast
        cases hlast
      · obtain ⟨r, hr⟩ := Classical.not_forall.1 hkept
        obtain ⟨hrmem, hkr⟩ := Classical.not_imp.1 hr
        refine ⟨r, hrmem, ?_⟩
        rw [← Path.isWithin_congr BEq.rfl (Bool.of_not_eq_false hkr)]
        exact hp
    have hrest : last.1.any (· == p) = true ↔ mid.1.any (· == p) = true ∨
        mid.2.known.contains p = true ∧ (∃ r ∈ roots, p.isWithin r = true) ∧
          last.2.covers p = false := ih
    change last.1.any (· == p) = true ↔ _ ∨ _ ∧ _ ∧ last.2.covers p = false
    rw [hrest, any_dropRoot, hknown]
    constructor
    · rintro ((hdropped | ⟨hk, hp, hc⟩) | ⟨⟨hk, -⟩, ⟨r, hr, hp⟩, hc⟩)
      · exact Or.inl hdropped
      · exact Or.inr ⟨hk, ⟨root, List.mem_cons_self .., hp⟩, hcovers hc⟩
      · exact Or.inr ⟨hk, ⟨r, List.mem_cons_of_mem _ hr, hp⟩, hc⟩
    · rintro (hdropped | ⟨hk, ⟨r, hr, hp⟩, hc⟩)
      · exact Or.inl (Or.inl hdropped)
      · by_cases hnow : p.isWithin root = true ∧ mid.2.covers p = false
        · exact Or.inl (Or.inr ⟨hk, hnow⟩)
        · refine Or.inr ⟨⟨hk, hnow⟩, ?_, hc⟩
          rcases List.mem_cons.1 hr with rfl | hr
          · refine hlost ?_ hc
            rw [← Bool.not_eq_false]
            exact fun hmid => hnow ⟨hp, hmid⟩
          · exact ⟨r, hr, hp⟩

end Analyzer

end PolicyLint
