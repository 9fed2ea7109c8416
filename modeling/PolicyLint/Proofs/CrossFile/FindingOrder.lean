import PolicyLint.CrossFile.Findings
import PolicyLint.Proofs.Text.Span
/-!
# The order of findings

Sorting puts findings in order by file, start, code and message (`pairwise_sortFindings`). All
findings of one category carry its code, so among them the code decides nothing, and what is left is
the order by file, start and message (`pairwise_findings`).

Many findings may tie, but sorting is stable: findings that are left out leave the others in their order
(`mergeSort_sublist`, `filter_mergeSort`).
-/

namespace PolicyLint

/-! ## Sorting -/

section

variable {α : Type} {le : α → α → Bool}
  (trans : ∀ a b c, le a b = true → le b c = true → le a c = true)
  (total : ∀ a b, (le a b || le b a) = true)

include trans total

/-- Sorting puts an element that comes first between what it is no less than and all else. -/
theorem exists_mergeSort_cons (a : α) (l : List α) :
    ∃ front back, (a :: l).mergeSort le = front ++ a :: back ∧ l.mergeSort le = front ++ back ∧
      (l.mergeSort le).filter (fun b => !le a b) = front ∧ (l.mergeSort le).filter (le a) = back := by
  obtain ⟨front, back, hal, hl, hfront⟩ := List.mergeSort_cons trans total a l
  have hfront : ∀ b ∈ front, le a b = false := fun b hb => by simpa using hfront b hb
  have hback : ∀ b ∈ back, le a b = true := by
    have hsorted := List.pairwise_mergeSort trans total (a :: l)
    rw [hal] at hsorted
    exact (List.pairwise_cons.1 (List.pairwise_append.1 hsorted).2.1).1
  refine ⟨front, back, hal, hl, ?_, ?_⟩
  · rw [hl, List.filter_append, List.filter_eq_self.2 (by simpa using hfront),
      List.filter_eq_nil_iff.2 (by simpa using hback), List.append_nil]
  · rw [hl, List.filter_append, List.filter_eq_nil_iff.2 (by simpa using hfront),
      List.filter_eq_self.2 hback, List.nil_append]

/-- Sorting is stable: elements that are left out leave the others in their order. -/
theorem mergeSort_sublist {l m : List α} (h : l.Sublist m) :
    (l.mergeSort le).Sublist (m.mergeSort le) := by
  induction h with
  | slnil => exact List.Sublist.refl _
  | cons a _ ih =>
    obtain ⟨front, back, ham, hm, -, -⟩ := exists_mergeSort_cons trans total a _
    rw [ham]
    rw [hm] at ih
    exact ih.trans ((List.Sublist.refl front).append (List.sublist_cons_self a back))
  | cons_cons a _ ih =>
    obtain ⟨front, back, hal, -, rfl, rfl⟩ := exists_mergeSort_cons trans total a _
    obtain ⟨front', back', ham, -, rfl, rfl⟩ := exists_mergeSort_cons trans total a _
    -- both lists put `a` between what comes before it and what does not
    rw [hal, ham]
    exact (ih.filter _).append ((ih.filter _).cons_cons a)

theorem filter_mergeSort (p : α → Bool) (l : List α) :
    (l.mergeSort le).filter p = (l.filter p).mergeSort le := by
  have hsub : ((l.filter p).mergeSort le).Sublist ((l.mergeSort le).filter p) := by
    have hall : ∀ a ∈ (l.filter p).mergeSort le, p a = true := fun a ha =>
      (List.mem_filter.1 ((List.mergeSort_perm _ le).mem_iff.1 ha)).2
    have h := (mergeSort_sublist trans total (List.filter_sublist (p := p) (l := l))).filter p
    rwa [List.filter_eq_self.2 hall] at h
  refine (hsub.eq_of_length ?_).symm
  rw [(List.mergeSort_perm (l.filter p) le).length_eq,
    ((List.mergeSort_perm l le).filter p).length_eq]

end

/-! ## Positions -/

namespace Position

variable {a b c : Position}

theorem order_eq_lt : a.order b = .lt ↔ a < b := by
  unfold order
  by_cases h : a < b
  · simp [h]
  · by_cases k : b < a <;> simp [h, k]

theorem isLE_order : (a.order b).isLE = true ↔ a ≤ b := by
  unfold order
  by_cases h : a < b
  · simp [h, le_iff_not_lt, lt_asymm h]
  · by_cases k : b < a <;> simp [h, k, le_iff_not_lt]

instance : Std.TransCmp order where
  eq_swap {a b} := by
    unfold order
    by_cases h : a < b
    · simp [h, lt_asymm h]
    · by_cases k : b < a <;> simp [h, k]
  isLE_trans h k := isLE_order.2 (le_trans (isLE_order.1 h) (isLE_order.1 k))

theorem order_eq_eq : a.order b = .eq ↔ a = b := by
  constructor
  · intro h
    have hswap : b.order a = .eq := Std.OrientedCmp.eq_symm h
    exact le_antisymm (isLE_order.1 (by rw [h]; rfl)) (isLE_order.1 (by rw [hswap]; rfl))
  · rintro rfl
    exact Std.ReflCmp.compare_self

end Position

/-! ## Findings -/

/-- A finding comes before another: by file, by start, or by message. -/
def Precedes (x y : Path × Diagnostic) : Prop :=
  x.1.order y.1 = .lt ∨ (x.1 == y.1) = true ∧
    (x.2.range.start < y.2.range.start ∨
      x.2.range.start = y.2.range.start ∧ x.2.message < y.2.message)

/-- Comparing by a value is as good an order as the one on the values. -/
theorem transCmp_on {α β : Type} {cmp : β → β → Ordering} [Std.TransCmp cmp] (f : α → β) :
    Std.TransCmp fun x y => cmp (f x) (f y) where
  eq_swap := Std.OrientedCmp.eq_swap
  isLE_trans := Std.TransCmp.isLE_trans

instance : Std.TransCmp orderFindings :=
  have : Std.TransCmp fun x y : Path × Diagnostic => x.1.order y.1 :=
    transCmp_on fun x : Path × Diagnostic => x.1
  have : Std.TransCmp fun x y : Path × Diagnostic =>
      x.2.range.start.order y.2.range.start :=
    transCmp_on fun x : Path × Diagnostic => x.2.range.start
  have : Std.TransCmp fun x y : Path × Diagnostic =>
      compare (codeRank x.2) (codeRank y.2) :=
    transCmp_on fun x : Path × Diagnostic => codeRank x.2
  have : Std.TransCmp fun x y : Path × Diagnostic =>
      compare x.2.message y.2.message :=
    transCmp_on fun x : Path × Diagnostic => x.2.message
  inferInstanceAs (Std.TransCmp (compareLex _ (compareLex _ (compareLex _ _))))

theorem orderFindings_total (x y : Path × Diagnostic) :
    ((orderFindings x y).isLE || (orderFindings y x).isLE) = true := by
  have hswap : orderFindings y x = (orderFindings x y).swap := Std.OrientedCmp.eq_swap
  rw [hswap]
  cases orderFindings x y <;> rfl

/-- Sorting leaves the findings as they are, up to their order. -/
theorem sortFindings_perm (fs : List (Path × Diagnostic)) : (sortFindings fs).Perm fs :=
  List.mergeSort_perm fs _

theorem pairwise_sortFindings (fs : List (Path × Diagnostic)) :
    (sortFindings fs).Pairwise fun x y => (orderFindings x y).isLE = true :=
  List.pairwise_mergeSort (fun _ _ _ => Std.TransCmp.isLE_trans) orderFindings_total fs

theorem filter_sortFindings (p : Path × Diagnostic → Bool) (fs : List (Path × Diagnostic)) :
    (sortFindings fs).filter p = sortFindings (fs.filter p) :=
  filter_mergeSort (fun _ _ _ => Std.TransCmp.isLE_trans) orderFindings_total p fs

/-- Findings that are left out leave the others in their order. -/
theorem sublist_sortFindings {fs gs : List (Path × Diagnostic)} (h : fs.Sublist gs) :
    (sortFindings fs).Sublist (sortFindings gs) :=
  mergeSort_sublist (fun _ _ _ => Std.TransCmp.isLE_trans) orderFindings_total h

/-- Among findings of one rank the code decides nothing. -/
theorem orderFindings_eq_lt {x y : Path × Diagnostic} (h : codeRank x.2 = codeRank y.2) :
    orderFindings x y = .lt ↔ Precedes x y := by
  have hcode : compare (codeRank x.2) (codeRank y.2) = .eq := by
    rw [h]
    exact Std.ReflCmp.compare_self
  have hmessage : compare x.2.message y.2.message = .lt ↔ x.2.message < y.2.message :=
    compareOfLessAndEq_eq_lt
  unfold orderFindings Precedes
  rw [hcode, Ordering.then_eq_lt, Ordering.then_eq_lt, Ordering.eq_then,
    Path.order_eq_iff, Position.order_eq_lt, Position.order_eq_eq, hmessage]

/-! ## The findings of one category -/

namespace Category

variable {c : Category} {state : PathMap Contribution} {x y : Path × Diagnostic}

/-- Findings that are made in order are left as they are made. -/
theorem findings_of_pairwise
    (h : (c.evaluate state).Pairwise fun x y => (orderFindings x y).isLE = true) :
    c.findings state = c.evaluate state :=
  List.mergeSort_of_pairwise h

theorem knownCode?_of_mem_findings (h : x ∈ c.findings state) : x.2.knownCode? = some c.code := by
  have hx : x ∈ c.evaluate state := (sortFindings_perm _).mem_iff.1 h
  cases c with
  | missingMetadata =>
    obtain ⟨s, -, hs⟩ := List.mem_filterMap.1 hx
    unfold MissingMetadata.finding? at hs
    split at hs
    · cases hs
    · dsimp only at hs
      split at hs
      · cases hs
      · cases hs
        exact Diagnostic.knownCode?_ofCode ..
  | unresolvedImport =>
    obtain ⟨⟨path, f⟩, -, hf⟩ := List.mem_flatMap.1 hx
    obtain ⟨i, -, rfl⟩ := List.mem_map.1 hf
    exact Diagnostic.knownCode?_ofCode ..

theorem codeRank_of_mem_findings (h : x ∈ c.findings state) : codeRank x.2 = c.code.rank + 1 := by
  rw [codeRank, knownCode?_of_mem_findings h]
  rfl

/-- Two findings of a category that do not tie are in order by file, start and message. -/
theorem orderFindings_eq_lt_of_mem (hx : x ∈ c.findings state) (hy : y ∈ c.findings state) :
    orderFindings x y = .lt ↔ Precedes x y :=
  orderFindings_eq_lt ((codeRank_of_mem_findings hx).trans (codeRank_of_mem_findings hy).symm)

/-- The findings of a category are in order by file, start and message. -/
theorem pairwise_findings (c : Category) (state : PathMap Contribution) :
    (c.findings state).Pairwise fun x y => ¬ Precedes y x := by
  refine (pairwise_sortFindings (c.evaluate state)).imp_of_mem fun {x y} hx hy hle hlt => ?_
  have hgt : orderFindings x y = .gt :=
    Std.OrientedCmp.gt_iff_lt.2 ((orderFindings_eq_lt_of_mem hy hx).2 hlt)
  rw [hgt] at hle
  cases hle

end Category

end PolicyLint
