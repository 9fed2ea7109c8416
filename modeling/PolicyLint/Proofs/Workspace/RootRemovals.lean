import PolicyLint.Proofs.FileSystem.Entries
import PolicyLint.Proofs.Workspace.Roots
/-!
# What removed roots return

Roots are removed one after the other, and each removal returns the known files that it leaves
without a root. Which of them returns a file depends on the order when roots are nested, but nothing
else does (`removals_share_known_files`): each known file is returned once or stays known, it is
returned if it lies below a removed path and below no root that remains, and what remains is the same
for every order.

One removal parts the known files in two (`perm_removeRoot`), so all removals together part them into
what each returned and what is left (`perm_removeRoots`).
-/

namespace PolicyLint.Layout

/-! ## One removal after another -/

/-- Removes roots one after the other. Answers what each removal returned, and what is left. -/
def removeRoots (l : Layout) : List Path → List (List Path) × Layout
  | [] => ([], l)
  | root :: roots =>
    let (returned, next) := l.removeRoot root
    let (answers, last) := next.removeRoots roots
    (returned :: answers, last)

variable {l : Layout} {roots : List Path} {f : Path}

theorem removeRoots_cons (l : Layout) (root : Path) (roots : List Path) :
    l.removeRoots (root :: roots) =
      ((l.removeRoot root).1 :: ((l.removeRoot root).2.removeRoots roots).1,
        ((l.removeRoot root).2.removeRoots roots).2) := rfl

/-- A change of the workspace folders collects what the removals return. -/
theorem foldl_dropRoot_eq (acc : List Path × Layout) (roots : List Path) :
    roots.foldl Analyzer.dropRoot acc =
      (acc.1 ++ (acc.2.removeRoots roots).1.flatten, (acc.2.removeRoots roots).2) := by
  induction roots generalizing acc with
  | nil => simp [removeRoots]
  | cons root roots ih =>
    rw [List.foldl_cons, ih, removeRoots_cons, List.flatten_cons, ← List.append_assoc]
    rfl

theorem perm_removeRoot (l : Layout) (root : Path) :
    ((l.removeRoot root).1 ++ (l.removeRoot root).2.known.keys).Perm l.known.keys := by
  have hkept : (l.removeRoot root).2.known.keys =
      l.known.keys.filter fun k => !(k.isWithin root && !(l.removeRoot root).2.covers k) := by
    rw [keys_known_removeRoot]
    refine List.filter_congr fun k hk => congrArg (!·) ?_
    have hcomm : (l.uncovered root).any (k == ·) = (l.uncovered root).any (· == k) := by
      simp only [BEq.comm]
    rw [hcomm, Bool.eq_iff_iff, any_uncovered, PathMap.contains_of_mem_keys hk]
    simp
  rw [hkept]
  exact List.filter_append_perm _ l.known.keys

theorem perm_removeRoots (l : Layout) (roots : List Path) :
    ((l.removeRoots roots).1.flatten ++ (l.removeRoots roots).2.known.keys).Perm
      l.known.keys := by
  induction roots generalizing l with
  | nil => exact .refl _
  | cons root roots ih =>
    rw [removeRoots_cons, List.flatten_cons, List.append_assoc]
    exact ((ih _).append_left _).trans (perm_removeRoot l root)

theorem mem_flatten_removeRoots (hf : f ∈ l.known.keys) :
    f ∈ (l.removeRoots roots).1.flatten ↔
      (∃ root ∈ roots, f.isWithin root = true) ∧ (l.removeRoots roots).2.covers f = false := by
  have hdropped := @Analyzer.dropped_iff ([], l) f roots
  rw [foldl_dropRoot_eq, List.nil_append, List.any_nil, PathMap.contains_of_mem_keys hf] at hdropped
  have hany : f ∈ (l.removeRoots roots).1.flatten ↔
      (l.removeRoots roots).1.flatten.any (· == f) = true := by
    rw [List.any_eq_true]
    refine ⟨fun hmem => ⟨f, hmem, BEq.rfl⟩, ?_⟩
    rintro ⟨g, hg, hgf⟩
    have hknown := (perm_removeRoots l roots).subset (List.mem_append_left _ hg)
    rwa [← PathMap.eq_of_mem_keys hknown hf hgf]
  rw [hany, hdropped]
  simp

theorem mem_known_removeRoots :
    f ∈ (l.removeRoots roots).2.known.keys ↔
      f ∈ l.known.keys ∧ f ∉ (l.removeRoots roots).1.flatten := by
  have hperm := perm_removeRoots l roots
  have hnodup := hperm.nodup_iff.2 l.known.nodup_keys
  constructor
  · intro hf
    exact ⟨hperm.subset (List.mem_append_right _ hf), fun hreturned =>
      (List.nodup_append.1 hnodup).2.2 f hreturned f hf rfl⟩
  · rintro ⟨hknown, hf⟩
    exact (List.mem_append.1 (hperm.symm.subset hknown)).resolve_left hf

/-- What remains does not depend on the order of the removals. -/
theorem removeRoots_perm {order : List Path} (h : order.Perm roots) :
    (l.removeRoots order).2 = (l.removeRoots roots).2 := by
  have hroots : (l.removeRoots order).2.roots = (l.removeRoots roots).2.roots := by
    refine PathSet.ext_keys fun k => ?_
    have hremains := @Analyzer.mem_roots_foldl_dropRoot ([], l)
    simp only [foldl_dropRoot_eq] at hremains
    simp only [hremains, h.mem_iff]
  have hcovers : (l.removeRoots order).2.covers = (l.removeRoots roots).2.covers := by
    unfold covers
    rw [hroots]
  have hknown : (l.removeRoots order).2.known = (l.removeRoots roots).2.known := by
    refine PathSet.ext_keys fun f => ?_
    rw [mem_known_removeRoots, mem_known_removeRoots]
    refine and_congr_right fun hf => not_congr ?_
    rw [mem_flatten_removeRoots hf, mem_flatten_removeRoots hf, hcovers]
    simp only [h.mem_iff]
  cases hlast : (l.removeRoots order).2
  cases hlast' : (l.removeRoots roots).2
  simp_all

/-- However roots are removed, whether they are roots or not, nested or not, the known files are shared
out between what the removals return and what stays known. No file is returned twice. A known file is
returned by some removal if and only if it lies below a removed path and below no root that remains.
The roots and the known files that remain are the same for every order of the removals. -/
theorem removals_share_known_files (l : Layout) (removed : List Path) :
    let answers := (l.removeRoots removed).1
    let last := (l.removeRoots removed).2
    (answers.flatten ++ last.known.keys).Perm l.known.keys ∧
    answers.flatten.Pairwise (fun f g => (f == g) = false) ∧
    (∀ f ∈ l.known.keys, f ∈ answers.flatten ↔
      (∃ root ∈ removed, f.isWithin root = true) ∧ last.covers f = false) ∧
    (∀ order : List Path, order.Perm removed → (l.removeRoots order).2 = last) := by
  intro answers last
  have hperm : (answers.flatten ++ last.known.keys).Perm l.known.keys := perm_removeRoots l removed
  refine ⟨hperm, ?_, fun f hf => mem_flatten_removeRoots hf, fun order h => removeRoots_perm h⟩
  have hapart := (hperm.pairwise_iff fun {f g} hne => by rw [BEq.comm, hne]).2
    l.known.pairwise_keys
  exact (List.pairwise_append.1 hapart).1

/-- Which removal returns a file of nested roots depends on the order, and what remains does not. -/
theorem nested_roots_in_either_order :
    let l : Layout :=
      { roots := .ofList [⟨"/a"⟩, ⟨"/a/b"⟩]
        known := .ofList [⟨"/a/x.rego"⟩, ⟨"/a/b/y.rego"⟩, ⟨"/c/z.rego"⟩] }
    let innerFirst : List Path := [⟨"/a/b"⟩, ⟨"/a"⟩]
    let outerFirst : List Path := [⟨"/a"⟩, ⟨"/a/b"⟩]
    outerFirst.Perm innerFirst ∧
      (l.removeRoots innerFirst).1.map (·.map (·.text)) = [[], ["/a/b/y.rego", "/a/x.rego"]] ∧
      (l.removeRoots outerFirst).1.map (·.map (·.text)) = [["/a/x.rego"], ["/a/b/y.rego"]] ∧
      (l.removeRoots outerFirst).2 = (l.removeRoots innerFirst).2 := by
  intro l innerFirst outerFirst
  have hperm : outerFirst.Perm innerFirst := .swap _ _ _
  exact ⟨hperm, by decide +kernel, by decide +kernel,
    (removals_share_known_files l innerFirst).2.2.2 outerFirst hperm⟩

end PolicyLint.Layout
