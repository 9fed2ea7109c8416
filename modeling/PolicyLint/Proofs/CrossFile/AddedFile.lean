import Mathlib.Data.List.Sort
import PolicyLint.Proofs.CrossFile.Documentation
import PolicyLint.Proofs.CrossFile.ImportResolution
import PolicyLint.Proofs.FileSystem.Entries
/-!
# Adding a file

A file that is added makes findings in itself alone (`findings_elsewhere_were_there`). It can document
what other files declare, resolve what they import, or come first where a package or rule is reported; all
of that takes findings from the others, and none is moved from one of them to another one.

Whatever a file adds is gone when its entry is removed, so both rules are compared on a state and on that
state without the file.
-/

namespace PolicyLint

/-- A finding stands in another file. -/
def elsewhere (f : Path) (x : Path × Diagnostic) : Bool :=
  !(x.1 == f)

namespace MissingMetadata

variable {state : PathMap Contribution} {f q : Path} {s : Subject}

theorem contributes_erase_iff {p : String} {g : MetadataFacts} :
    Contributes (state.erase f) p q g ↔ Contributes state p q g ∧ (q == f) = false := by
  simp [Contributes, PathMap.erase, and_right_comm]

theorem defines_erase_iff {p r : String} {d : RuleFact} :
    Defines (state.erase f) p r q d ↔ Defines state p r q d ∧ (q == f) = false := by
  simp only [Defines, contributes_erase_iff]
  constructor
  · rintro ⟨g, ⟨hg, hq⟩, hd⟩
    exact ⟨⟨g, hg, hd⟩, hq⟩
  · rintro ⟨⟨g, hg, hd⟩, hq⟩
    exact ⟨g, ⟨hg, hq⟩, hd⟩

/-- Where a subject comes first in one file, it comes first without any other file, too. -/
theorem ComesFirst.erase {place : Range} (h : ComesFirst state s q place) (hq : (q == f) = false) :
    ComesFirst (state.erase f) s q place := by
  cases s with
  | package p =>
    obtain ⟨g, hg, hplace, hleast⟩ := h
    exact ⟨g, contributes_erase_iff.2 ⟨hg, hq⟩, hplace, fun q' g' hg' =>
      hleast q' g' (contributes_erase_iff.1 hg').1⟩
  | rule p r =>
    obtain ⟨g, listed, d, rest, hg, hrules, hname, hplace, hlisted, hleast⟩ := h
    exact ⟨g, listed, d, rest, contributes_erase_iff.2 ⟨hg, hq⟩, hrules, hname, hplace, hlisted,
      fun q' e he => hleast q' e (defines_erase_iff.1 he).1⟩

/-- What no file documents is not documented by fewer, as long as one is left that declares it. -/
theorem Undocumented.erase {place : Range} (h : Undocumented state s)
    (hfirst : ComesFirst (state.erase f) s q place) : Undocumented (state.erase f) s := by
  cases s with
  | package p =>
    obtain ⟨g, hg, -⟩ := hfirst
    exact ⟨⟨q, g, hg⟩, fun q' g' hg' => h.2 q' g' (contributes_erase_iff.1 hg').1⟩
  | rule p r =>
    obtain ⟨g, listed, d, rest, hg, hrules, hname, -⟩ := hfirst
    have hd : Defines (state.erase f) p r q d := ⟨g, hg, by simp [hrules], hname⟩
    exact ⟨⟨q, d, hd⟩, fun q' e he => h.2 q' e (defines_erase_iff.1 he).1⟩

theorem Reports.erase {x : Path × Diagnostic} (h : Reports state s x) (hx : elsewhere f x = true) :
    Reports (state.erase f) s x := by
  obtain ⟨hundocumented, place, hfirst, hdiagnostic⟩ := h
  have hq : (x.1 == f) = false := by simpa [elsewhere] using hx
  have hfirst' := hfirst.erase hq
  exact ⟨hundocumented.erase hfirst', place, hfirst', hdiagnostic⟩

/-- The finding about a subject that stands in one file is there without any other file, too. -/
theorem finding?_erase {x : Path × Diagnostic} (h : finding? (declarations state) s = some x)
    (hx : elsewhere f x = true) : finding? (declarations (state.erase f)) s = some x := by
  have hreports := (reports_of_finding? h).erase hx
  obtain ⟨y, hy, hreports'⟩ := exists_reports hreports.1
  rw [hy, hreports'.unique hreports]

/-- Subjects in order are those of a longer list that are among them, in its order. -/
theorem sublist_of_ascending {ss ts : List Subject}
    (hs : ss.Pairwise fun s t => s.order t = .lt) (ht : ts.Pairwise fun s t => s.order t = .lt)
    (h : ss ⊆ ts) : ss.Sublist ts := by
  have hirrefl (s : Subject) : ¬ s.order s = .lt := by simp [Subject.order_eq_iff.2 rfl]
  have hantisymm : Std.Antisymm fun s t : Subject => s.order t = .lt :=
    ⟨fun s t hst hts => absurd (Std.TransCmp.lt_trans hst hts) (hirrefl s)⟩
  have hnodup : ss.Nodup := by
    refine hs.imp ?_
    rintro s t hst rfl
    exact hirrefl s hst
  exact List.sublist_of_subperm_of_pairwise (List.subperm_of_subset hnodup h) hs ht

theorem evaluate_erase (state : PathMap Contribution) (f : Path) :
    ((evaluate state).filter (elsewhere f)).Sublist (evaluate (state.erase f)) := by
  let found := finding? (declarations state)
  -- the subjects that are reported elsewhere
  let kept := (subjects (declarations state)).filter fun s => (found s).any (elsewhere f)
  have hfilter : (evaluate state).filter (elsewhere f) =
      kept.filterMap (finding? (declarations (state.erase f))) := by
    rw [List.filterMap_filter]
    refine List.filter_filterMap.trans (List.filterMap_congr fun s _ => ?_)
    by_cases hs : (found s).any (elsewhere f) = true
    · obtain ⟨x, hx, helse⟩ := (Option.any_eq_true _ _).1 hs
      rw [if_pos hs, finding?_erase hx helse]
      change (found s).filter _ = _
      rw [hx, Option.filter_some_pos helse]
    · rw [if_neg hs]
      change (found s).filter _ = _
      cases hx : found s with
      | none => rfl
      | some x => simpa [hx] using hs
  have hsubset : kept ⊆ subjects (declarations (state.erase f)) := by
    intro s hs
    obtain ⟨x, hx, helse⟩ := (Option.any_eq_true _ _).1 (List.mem_filter.1 hs).2
    have hreports := (reports_of_finding? hx).erase helse
    exact mem_subjects.2 (undocumented_iff.1 hreports.1).1
  rw [hfilter]
  have hascending := pairwise_subjects (declarations state)
  exact (sublist_of_ascending (hascending.filter _) (pairwise_subjects _) hsubset).filterMap _

end MissingMetadata

namespace UnresolvedImport

theorem factsOf_erase (state : PathMap Contribution) (f : Path) :
    factsOf (state.erase f) = (factsOf state).filter fun e => !(e.1 == f) := by
  unfold factsOf PathMap.erase
  rw [List.filterMap_filter, List.filter_filterMap]
  congr 1
  funext ⟨path, c⟩
  cases c <;> cases h : path == f <;> simp [h, Option.filter_some]

/-- The imports that stand in other files than one are those of the other files. -/
theorem imports_filter (facts : List (Path × ImportFacts)) (f : Path) :
    (imports facts).filter (fun o => !(o.1 == f)) =
      imports (facts.filter fun e => !(e.1 == f)) := by
  unfold imports
  induction facts with
  | nil => rfl
  | cons e facts ih =>
    rw [List.flatMap_cons, List.filter_append, ih, List.filter_map, Function.comp_def]
    cases h : e.1 == f <;> simp [h]

theorem Resolves.mono {facts others : List (Path × ImportFacts)} {target : String}
    (h : Resolves facts target) (hsubset : facts ⊆ others) : Resolves others target := by
  rcases h with ⟨x, hx, hpackage⟩ | ⟨x, hx, r, hr, hrule⟩
  · exact Or.inl ⟨x, hsubset hx, hpackage⟩
  · exact Or.inr ⟨x, hsubset hx, r, hr, hrule⟩

theorem evaluate_erase (state : PathMap Contribution) (f : Path) :
    ((evaluate state).filter (elsewhere f)).Sublist (evaluate (state.erase f)) := by
  have helse : (elsewhere f ∘ fun o : Path × ImportFact => finding o.1 o.2) =
      fun o => !(o.1 == f) := rfl
  rw [evaluate_eq, evaluate_eq, List.filter_map, helse, List.filter_comm, imports_filter,
    ← factsOf_erase]
  refine (List.monotone_filter_right _ fun o ho => ?_).map _
  -- an import that resolves without the file resolves with it
  rw [decide_eq_true_eq] at ho ⊢
  refine mt (fun hresolves => Resolves.mono hresolves ?_) ho
  rw [factsOf_erase]
  exact List.filter_subset_self _

end UnresolvedImport

/-- The findings in other files than one are there without that file, too, in the same order. -/
theorem Category.findings_erase (c : Category) (state : PathMap Contribution) (f : Path) :
    ((c.findings state).filter (elsewhere f)).Sublist (c.findings (state.erase f)) := by
  unfold Category.findings
  rw [filter_sortFindings]
  refine sublist_sortFindings ?_
  cases c with
  | missingMetadata => exact MissingMetadata.evaluate_erase state f
  | unresolvedImport => exact UnresolvedImport.evaluate_erase state f

/-- A file that is added makes no finding in another file: those in other files were there before, with
the same place and message, as often as they are now, and in the same order. -/
theorem findings_elsewhere_were_there (c : Category) {state : PathMap Contribution} {f : Path}
    (h : state.contains f = false) (x : Contribution) :
    (∀ y ∈ c.findings (state.insert f x), (y.1 == f) = false → y ∈ c.findings state) ∧
      ((c.findings (state.insert f x)).filter (elsewhere f)).Sublist (c.findings state) := by
  have hsub := c.findings_erase (state.insert f x) f
  rw [PathMap.erase_insert_self x BEq.rfl, PathMap.erase_of_not_contains h] at hsub
  refine ⟨fun y hy hfile => hsub.subset (List.mem_filter.2 ⟨hy, ?_⟩), hsub⟩
  rw [elsewhere, hfile]
  rfl

/-- A file that declares a package, defines two rules of it, and documents nothing. Another one that comes
first takes over the finding about the package and documents one of the rules; the finding about the other
rule stays. -/
theorem added_file_takes_findings_over :
    let a : Path := ⟨"/ws/a.rego"⟩
    let b : Path := ⟨"/ws/b.rego"⟩
    let place (line : UInt32) : Range := ⟨⟨line, 0⟩, ⟨line, 5⟩⟩
    let old : Contribution :=
      .missingMetadata ⟨"p", false, place 0, [⟨"r", false, place 2⟩, ⟨"s", false, place 3⟩]⟩
    let new : Contribution := .missingMetadata ⟨"p", false, place 0, [⟨"r", true, place 4⟩]⟩
    let state : PathMap Contribution := PathMap.empty.insert b old
    let said (y : Path × Diagnostic) : String × String := (y.1.text, y.2.message)
    state.contains a = false ∧
      (Category.missingMetadata.findings state).map said =
        [("/ws/b.rego", "Package `p` is missing metadata"),
          ("/ws/b.rego", "Rule `r` is missing metadata"),
          ("/ws/b.rego", "Rule `s` is missing metadata")] ∧
      (Category.missingMetadata.findings (state.insert a new)).map said =
        [("/ws/a.rego", "Package `p` is missing metadata"),
          ("/ws/b.rego", "Rule `s` is missing metadata")] ∧
      ∀ y ∈ Category.missingMetadata.findings (state.insert a new), (y.1 == a) = false →
        y ∈ Category.missingMetadata.findings state := by
  intro a b place old new state said
  have hnew : state.contains a = false := by decide +kernel
  have hbefore : Category.missingMetadata.findings state = Category.missingMetadata.evaluate state :=
    Category.findings_of_pairwise (by decide +kernel)
  have hafter : Category.missingMetadata.findings (state.insert a new) =
      Category.missingMetadata.evaluate (state.insert a new) :=
    Category.findings_of_pairwise (by decide +kernel)
  have hthere := findings_elsewhere_were_there .missingMetadata hnew new
  refine ⟨hnew, ?_, ?_, hthere.1⟩
  · rw [hbefore]
    decide +kernel
  · rw [hafter]
    decide +kernel

end PolicyLint
