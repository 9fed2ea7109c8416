import PolicyLint.Proofs.CrossFile.FindingOrder
/-!
# Which imports resolve

The rule compares dotted names as texts: equal, or one of them followed by a point and more. That is
the same as comparing their segments, the pieces between the points, one by one
(`segments_prefix_iff`). So an import is reported, once each time it stands, exactly when its segments
are no beginning of a package's, and those of no rule are a beginning of them
(`findings_are_unresolved`).
-/

namespace PolicyLint

/-! ## Pieces -/

theorem pieces_injective {d : Char} {cs ds : List Char} (h : pieces d cs = pieces d ds) :
    cs = ds := by
  rw [← intercalate_pieces d cs, h, intercalate_pieces]

/-- The pieces of a text begin with those of another one when the texts are equal, or the text
begins with the other one and the character. -/
theorem pieces_prefix_iff {d : Char} {cs ds : List Char} :
    pieces d cs <+: pieces d ds ↔ cs = ds ∨ (cs ++ [d]) <+: ds := by
  constructor
  · rintro ⟨rest, hrest⟩
    cases rest with
    | nil =>
      rw [List.append_nil] at hrest
      exact Or.inl (pieces_injective hrest)
    | cons p ps =>
      -- the other pieces are those of what follows the character
      have hnotMem : ∀ q ∈ p :: ps, d ∉ q := fun q hq =>
        notMem_of_mem_pieces (by rw [← hrest]; exact List.mem_append_right _ hq)
      rw [← pieces_intercalate hnotMem (List.cons_ne_nil p ps), ← pieces_append_cons] at hrest
      refine Or.inr ⟨[d].intercalate (p :: ps), ?_⟩
      rw [← pieces_injective hrest, List.append_assoc, List.singleton_append]
  · rintro (rfl | ⟨rest, rfl⟩)
    · exact List.prefix_rfl
    · rw [List.append_assoc, List.singleton_append, pieces_append_cons]
      exact List.prefix_append _ _

namespace UnresolvedImport

/-! ## The law -/

def segments (name : String) : List (List Char) :=
  pieces '.' name.toList

/-- A target resolves when its segments are a beginning of those of a package, or equal to them, or
when those of a rule, with its package in front, are a beginning of its own, or equal to them. -/
def Resolves (facts : List (Path × ImportFacts)) (target : String) : Prop :=
  (∃ x ∈ facts, segments target <+: segments x.2.package) ∨
    ∃ x ∈ facts, ∃ r ∈ x.2.rules, segments (x.2.package ++ "." ++ r) <+: segments target

instance (facts : List (Path × ImportFacts)) (target : String) : Decidable (Resolves facts target) :=
  inferInstanceAs (Decidable (_ ∨ _))

/-- The imports of every file, each with its file, as often as they stand there. -/
def imports (facts : List (Path × ImportFacts)) : List (Path × ImportFact) :=
  facts.flatMap fun x => x.2.imports.map fun i => (x.1, i)

/-- The same packages are contributed to, and the same rules defined in them, by whatever files. -/
structure SameDefinitions (facts others : List (Path × ImportFacts)) : Prop where
  packages : ∀ p, (∃ x ∈ facts, x.2.package = p) ↔ ∃ x ∈ others, x.2.package = p
  rules : ∀ p r, (∃ x ∈ facts, x.2.package = p ∧ r ∈ x.2.rules) ↔
    ∃ x ∈ others, x.2.package = p ∧ r ∈ x.2.rules

/-! ## Names and segments -/

theorem isNestedIn_iff {name outer : String} :
    isNestedIn name outer = true ↔ (outer.toList ++ ['.']) <+: name.toList :=
  List.isPrefixOf_iff_prefix

/-- A name is another one, or that one lies below it, when its segments are a beginning. -/
theorem segments_prefix_iff {name other : String} :
    segments name <+: segments other ↔ name = other ∨ isNestedIn other name = true := by
  rw [segments, segments, pieces_prefix_iff, isNestedIn_iff, String.toList_inj]

/-- The rule finds out which targets resolve. -/
theorem resolves_iff {facts : List (Path × ImportFacts)} {target : String} :
    resolves facts target = true ↔ Resolves facts target := by
  unfold resolves Resolves
  simp only [Bool.or_eq_true, List.contains_iff_mem, List.any_eq_true, segments_prefix_iff]
  constructor
  · rintro (((hp | hr) | ⟨p, hp, hbelow⟩) | ⟨r, hr, hbelow⟩)
    · obtain ⟨x, hx, rfl⟩ := List.mem_map.1 hp
      exact Or.inl ⟨x, hx, Or.inl rfl⟩
    · obtain ⟨x, hx, hname⟩ := List.mem_flatMap.1 hr
      obtain ⟨r, hmem, rfl⟩ := List.mem_map.1 hname
      exact Or.inr ⟨x, hx, r, hmem, Or.inl rfl⟩
    · obtain ⟨x, hx, rfl⟩ := List.mem_map.1 hp
      exact Or.inl ⟨x, hx, Or.inr hbelow⟩
    · obtain ⟨x, hx, hname⟩ := List.mem_flatMap.1 hr
      obtain ⟨r, hmem, rfl⟩ := List.mem_map.1 hname
      exact Or.inr ⟨x, hx, r, hmem, Or.inr hbelow⟩
  · rintro (⟨x, hx, hpackage⟩ | ⟨x, hx, r, hr, hrule⟩)
    · have hmem : x.2.package ∈ packages facts := List.mem_map_of_mem hx
      rcases hpackage with rfl | hbelow
      · exact Or.inl (Or.inl (Or.inl hmem))
      · exact Or.inl (Or.inr ⟨_, hmem, hbelow⟩)
    · have hmem : x.2.package ++ "." ++ r ∈ rules facts :=
        List.mem_flatMap.2 ⟨x, hx, List.mem_map_of_mem hr⟩
      rcases hrule with rfl | hbelow
      · exact Or.inl (Or.inl (Or.inr hmem))
      · exact Or.inr ⟨_, hmem, hbelow⟩

/-- Whether a target resolves does not depend on which files define what. -/
theorem resolves_congr {facts others : List (Path × ImportFacts)}
    (h : SameDefinitions facts others) (target : String) :
    Resolves facts target ↔ Resolves others target := by
  suffices hs : ∀ {xs ys : List (Path × ImportFacts)}, SameDefinitions xs ys →
      Resolves xs target → Resolves ys target from
    ⟨hs h, hs ⟨fun p => (h.packages p).symm, fun p r => (h.rules p r).symm⟩⟩
  rintro xs ys hsame (⟨x, hx, hpackage⟩ | ⟨x, hx, r, hr, hrule⟩)
  · obtain ⟨y, hy, hp⟩ := (hsame.packages _).1 ⟨x, hx, rfl⟩
    exact Or.inl ⟨y, hy, hp ▸ hpackage⟩
  · obtain ⟨y, hy, hp, hr⟩ := (hsame.rules _ r).1 ⟨x, hx, rfl, hr⟩
    exact Or.inr ⟨y, hy, r, hr, hp ▸ hrule⟩

/-! ## The findings -/

variable {state : PathMap Contribution}

/-- The rule makes one finding for each import that does not resolve. -/
theorem evaluate_eq (state : PathMap Contribution) :
    evaluate state = ((imports (factsOf state)).filter
      fun o => ¬ Resolves (factsOf state) o.2.target).map fun o => finding o.1 o.2 := by
  have htest : ∀ target, (!resolves (factsOf state) target) =
      decide (¬ Resolves (factsOf state) target) := by
    intro target
    rw [Bool.eq_iff_iff, Bool.not_eq_true', decide_eq_true_eq, ← resolves_iff]
    simp
  unfold evaluate imports
  dsimp only
  rw [List.filter_flatMap, List.map_flatMap]
  congr 1
  funext ⟨path, f⟩
  simp only [htest, List.filter_map, List.map_map]
  rfl

/-- A finding says which target did not resolve. -/
theorem target_eq_of_finding_eq {p q : Path} {i j : ImportFact} (h : finding p i = finding q j) :
    i.target = j.target := by
  have hmessage := congrArg (fun x : Path × Diagnostic => x.2.message) h
  exact (String.append_right_inj _).1 ((String.append_left_inj _).1 hmessage)

/-- An import of a file is reported when it does not resolve. -/
theorem finding_mem_iff {o : Path × ImportFact} (ho : o ∈ imports (factsOf state)) :
    finding o.1 o.2 ∈ Category.unresolvedImport.findings state ↔
      ¬ Resolves (factsOf state) o.2.target := by
  have hperm := sortFindings_perm (evaluate state)
  rw [Category.findings, Category.evaluate, hperm.mem_iff, evaluate_eq, List.mem_map]
  constructor
  · rintro ⟨o', ho', heq⟩
    rw [← target_eq_of_finding_eq heq]
    simpa using (List.mem_filter.1 ho').2
  · intro hresolves
    exact ⟨o, List.mem_filter.2 ⟨ho, by simpa using hresolves⟩, rfl⟩

/-- The findings are one for each time an import that does not resolve stands in a file, in order by
file, start and message. Which files define the packages and rules does not matter. -/
theorem findings_are_unresolved (state : PathMap Contribution) :
    (Category.unresolvedImport.findings state).Perm
        (((imports (factsOf state)).filter fun o => ¬ Resolves (factsOf state) o.2.target).map
          fun o => finding o.1 o.2) ∧
      (Category.unresolvedImport.findings state).Pairwise (fun x y => ¬ Precedes y x) ∧
      ∀ other : PathMap Contribution, SameDefinitions (factsOf state) (factsOf other) →
        ∀ o ∈ imports (factsOf state), o ∈ imports (factsOf other) →
          (finding o.1 o.2 ∈ Category.unresolvedImport.findings state ↔
            finding o.1 o.2 ∈ Category.unresolvedImport.findings other) := by
  refine ⟨?_, Category.pairwise_findings _ state, fun other hsame o ho ho' => ?_⟩
  · rw [← evaluate_eq]
    exact sortFindings_perm (evaluate state)
  · rw [finding_mem_iff ho, finding_mem_iff ho', resolves_congr hsame]

end UnresolvedImport

end PolicyLint
