import Mathlib.Data.List.Forall2
import PolicyLint.Proofs.CrossFile.FindingOrder
import PolicyLint.Proofs.CrossFile.Respelling
import PolicyLint.Proofs.Workspace.Forgetting
/-!
# The order of files does not matter

What a file contributes after a run of operations is worked out from the operations on that file
alone, in their order (`entryFor?_run`, `get?_run`). So runs that do the same about every file, however
they go back and forth between the files, end with the same contributions, and the same is found
from them (`findings_of_interleaved_runs`).

A file keeps the spelling that it first contributed under. When the files are spelled alike in both
runs the results are equal; otherwise they are equal as lists of paths are compared, which is up to
spelling.
-/

namespace PolicyLint.Store

/-! ## One file -/

/-- What an action makes of all that its file contributes. -/
def Action.contributed (c? : Option Contributed) : Action → Option Contributed
  | .contribute c => some ((c?.getD {}).set c)
  | .replaceContributions cs => some (.ofList cs)
  | .withdraw c => c?.map (·.clear c)
  | .delete => none
  | _ => c?

/-- What an action under some spelling makes of the entry of its file: a spelling that is there
stays. -/
def Action.entry (e? : Option (Path × Contributed)) (p : Path) (a : Action) :
    Option (Path × Contributed) :=
  (a.contributed (e?.map (·.2))).map fun c => ((e?.map (·.1)).getD p, c)

/-- What a run does about a file, with the spellings of its path. -/
def stepsOn (p : Path) (ops : List Operation) : List (Path × Action) :=
  ops.filterMap fun
    | .about q a => if q == p then some (q, a) else none
    | _ => none

def actionsOn (p : Path) (ops : List Operation) : List Action :=
  (stepsOn p ops).map (·.2)

variable {s : Store} {p q : Path}

theorem stepsOn_append (p : Path) (xs ys : List Operation) :
    stepsOn p (xs ++ ys) = stepsOn p xs ++ stepsOn p ys :=
  List.filterMap_append

/-- Operations on different files may change places. -/
theorem stepsOn_swap (h : (p == q) = false) (a b : Action) (r : Path) (xs ys : List Operation) :
    stepsOn r (xs ++ .about p a :: .about q b :: ys) =
      stepsOn r (xs ++ .about q b :: .about p a :: ys) := by
  have hpair : stepsOn r [.about p a, .about q b] = stepsOn r [.about q b, .about p a] := by
    by_cases hp : (p == r) = true
    · have hq : (q == r) = false := by
        rw [← Bool.not_eq_true]
        exact fun k => by rw [BEq.trans hp (BEq.symm k)] at h; cases h
      simp [stepsOn, hp, hq]
    · simp [stepsOn, List.filterMap_cons, hp]
  have hcons : ∀ x y : Operation, x :: y :: ys = [x, y] ++ ys := fun _ _ => rfl
  rw [hcons, hcons, stepsOn_append, stepsOn_append, stepsOn_append r xs, stepsOn_append r, hpair]

theorem contributions_updateText (s : Store) (p : Path) (text : String) :
    (s.updateText p text).contributions = s.contributions := by
  unfold updateText
  split <;> rfl

theorem contributions_load (s : Store) (d : Disk) (p : Path) :
    (s.load d p).2.contributions = s.contributions := by
  unfold load
  cases d.readText p with
  | ok text => exact contributions_updateText s p text
  | error fault => rfl

theorem contributions_putText (s : Store) (p : Path) (text : String) :
    (s.putText p text).2.contributions = s.contributions := by
  unfold putText
  split <;> rfl

/-- An action is felt at the entry of its own file. -/
theorem entryFor?_apply_about (s : Store) (p q : Path) (a : Action) :
    (a.apply s p).contributions.entryFor? q =
      if p == q then a.entry (s.contributions.entryFor? q) p else s.contributions.entryFor? q := by
  have hkept : ∀ e? : Option (Path × Contributed), (if p == q then
      (e?.map (·.2)).map (fun c => ((e?.map (·.1)).getD p, c)) else e?) = e? := by
    intro e?
    cases e? <;> simp
  cases a with
  | contribute c =>
    change (s.contributions.insert p _).entryFor? q = _
    rw [PathMap.entryFor?_insert]
    split
    · next h => simp [Action.entry, Action.contributed, PathMap.get?_eq_entryFor?,
        PathMap.entryFor?_congr _ h]
    · rfl
  | replaceContributions cs =>
    change (s.contributions.insert p _).entryFor? q = _
    rw [PathMap.entryFor?_insert]
    split
    · next h => simp [Action.entry, Action.contributed, PathMap.entryFor?_congr _ h]
    · rfl
  | withdraw c =>
    change (s.withdraw p c).contributions.entryFor? q = _
    unfold withdraw
    cases hentry : s.contributions.entryFor? p with
    | none =>
      rw [PathMap.get?_eq_entryFor?, hentry]
      change s.contributions.entryFor? q = _
      split
      · next h => simp [Action.entry, Action.contributed, ← PathMap.entryFor?_congr _ h, hentry]
      · rfl
    | some e =>
      rw [PathMap.get?_eq_entryFor?, hentry]
      change (s.contributions.insert p _).entryFor? q = _
      rw [PathMap.entryFor?_insert, hentry]
      split
      · next h => simp [Action.entry, Action.contributed, ← PathMap.entryFor?_congr _ h, hentry]
      · rfl
  | delete =>
    change (s.contributions.erase p).entryFor? q = _
    rw [PathMap.entryFor?_erase]
    rfl
  | updateText text =>
    rw [Action.apply, contributions_updateText]
    exact (hkept _).symm
  | load d =>
    rw [Action.apply, contributions_load]
    exact (hkept _).symm
  | putText text =>
    rw [Action.apply, contributions_putText]
    exact (hkept _).symm
  | _ => exact (hkept _).symm

/-- After a run, the entry of a file is what the run did about the file made of it. -/
theorem entryFor?_run (s : Store) (ops : List Operation) (p : Path) :
    (run s ops).contributions.entryFor? p =
      (stepsOn p ops).foldl (fun e? step => step.2.entry e? step.1) (s.contributions.entryFor? p) := by
  induction ops generalizing s with
  | nil => rfl
  | cons o ops ih =>
    rw [run, List.foldl_cons, ← run, ih]
    cases o with
    | about q a =>
      rw [Operation.apply, entryFor?_apply_about]
      by_cases h : (q == p) = true
      · simp [stepsOn, h]
      · simp [stepsOn, h]
    | _ => rfl

/-- After a run, what a file contributes is what the run did about the file made of it. -/
theorem get?_run (s : Store) (ops : List Operation) (p : Path) :
    (run s ops).contributions.get? p =
      (actionsOn p ops).foldl Action.contributed (s.contributions.get? p) := by
  have hstep : ∀ (steps : List (Path × Action)) (e? : Option (Path × Contributed)),
      (steps.foldl (fun e? step => step.2.entry e? step.1) e?).map (·.2) =
        (steps.map (·.2)).foldl Action.contributed (e?.map (·.2)) := by
    intro steps
    induction steps with
    | nil => exact fun _ => rfl
    | cons step steps ih =>
      intro e?
      rw [List.foldl_cons, ih, List.map_cons, List.foldl_cons, Action.entry, Option.map_map]
      congr 1
      exact Option.map_id'
  rw [PathMap.get?_eq_entryFor?, entryFor?_run, hstep]
  rfl

/-! ## Runs that do the same about every file -/

/-- Findings, or contributions, that are the same but for how their paths are spelled. -/
def SameFiles {α : Type} (es fs : List (Path × α)) : Prop :=
  List.Forall₂ (fun e f => (e.1 == f.1) = true ∧ e.2 = f.2) es fs

theorem sameFiles_respelled {α : Type} {g : Path → Path} (hg : Respells g)
    (es : List (Path × α)) : SameFiles es (es.map (respell g)) := by
  refine List.forall₂_map_right_iff.2 (List.forall₂_same.2 fun e _ => ?_)
  exact ⟨BEq.symm (hg e.1), rfl⟩

variable {xs ys : List Operation}

theorem contributions_run_congr (h : ∀ p, stepsOn p xs = stepsOn p ys) (s : Store) :
    (run s xs).contributions = (run s ys).contributions := by
  refine PathMap.ext_entryFor? fun p => ?_
  rw [entryFor?_run, entryFor?_run, h]

theorem get?_state_run_congr (h : ∀ p, actionsOn p xs = actionsOn p ys) (s : Store) (c : Category)
    (p : Path) : ((run s xs).state c).get? p = ((run s ys).state c).get? p := by
  refine get?_state_congr (fun q => ?_) c p
  rw [get?_run, get?_run, h]

/-- Runs that do the same about every file in the same order leave the same contributions to each
category, in the order of their files, and the same findings, in order; also if the files are
spelled differently. If they are spelled alike, so are contributions and findings. -/
theorem findings_of_interleaved_runs (s : Store) (h : ∀ p, actionsOn p xs = actionsOn p ys)
    (c : Category) :
    SameFiles ((run s xs).state c).entries ((run s ys).state c).entries ∧
      SameFiles (c.findings ((run s xs).state c)) (c.findings ((run s ys).state c)) ∧
      ((run s xs).state c).entries.Pairwise (fun e f => e.1.order f.1 = .lt) ∧
      (c.findings ((run s xs).state c)).Pairwise (fun x y => (orderFindings x y).isLE = true) ∧
      ((∀ p, stepsOn p xs = stepsOn p ys) →
        (run s xs).state c = (run s ys).state c ∧
          c.findings ((run s xs).state c) = c.findings ((run s ys).state c)) := by
  have hrespells := ((run s ys).state c).respells_spelling
  have hentries := PathMap.entries_eq_respelled (get?_state_run_congr h s c)
  refine ⟨?_, ?_, ((run s xs).state c).ascending, pairwise_sortFindings _, fun hspelled => ?_⟩
  · rw [hentries]
    exact sameFiles_respelled hrespells _
  · rw [Category.findings_respelled hrespells hentries]
    exact sameFiles_respelled hrespells _
  · have hstate : (run s xs).state c = (run s ys).state c := by
      rw [state, state, contributions_run_congr hspelled]
    exact ⟨hstate, by rw [hstate]⟩

/-- Two files of one package, of which one documents it for a while. -/
theorem findings_of_two_interleaved_files :
    let a : Path := ⟨"/ws/a.rego"⟩
    let b : Path := ⟨"/ws/b.rego"⟩
    let facts (annotated : Bool) : Contribution :=
      .missingMetadata { package := "p", annotated, location := default, rules := [] }
    let xs : List Operation := [.about a (.contribute (facts false)),
      .about b (.contribute (facts true)), .about b (.withdraw .missingMetadata)]
    let ys : List Operation := [.about b (.contribute (facts true)),
      .about a (.contribute (facts false)), .about b (.withdraw .missingMetadata)]
    (∀ p, actionsOn p xs = actionsOn p ys) ∧
      Category.missingMetadata.findings ((run {} xs).state .missingMetadata) =
        Category.missingMetadata.findings ((run {} ys).state .missingMetadata) := by
  intro a b facts xs ys
  have hne : (a == b) = false := by decide
  have hsteps : ∀ p, stepsOn p xs = stepsOn p ys := fun p => stepsOn_swap hne _ _ p [] _
  have hactions : ∀ p, actionsOn p xs = actionsOn p ys := by
    intro p
    rw [actionsOn, hsteps, actionsOn]
  obtain ⟨-, -, -, -, hspelled⟩ := findings_of_interleaved_runs {} hactions .missingMetadata
  exact ⟨hactions, (hspelled hsteps).2⟩

end PolicyLint.Store
