import PolicyLint.Proofs.FileSystem.Entries
import PolicyLint.Workspace.Store
/-!
# A forgotten file was never there

What is done to a store is done about one file, or empties one of the maps of diagnostics
(`Operation`). What is done about a file is felt at its own entries alone, and these are what
forgetting removes: it undoes what was done about its file (`delete_apply_of_eq`) and is not felt by
anything else (`delete_apply_of_ne`). So after any run of operations, forgetting a file leaves the
store of the run without the operations on that file (`delete_run`).
-/

namespace PolicyLint.Store

inductive Action where
  /-- sets the text; a new text drops the module -/
  | updateText (text : String)
  /-- reads the text from the disk, where it may not be readable -/
  | load (d : Disk)
  /-- sets the text and nothing else -/
  | putText (text : String)
  | dropText
  | setModule (m : Rego.Module)
  | removeModule
  | setCalls (index : Rego.CallIndex)
  | removeCalls
  | setParseErrors (ds : List Diagnostic)
  | setFileFindings (ds : List Diagnostic)
  | setCrossFindings (ds : List Diagnostic)
  | removeCrossFindings
  | contribute (c : Contribution)
  | replaceContributions (cs : List Contribution)
  | withdraw (c : Category)
  | delete

def Action.apply (s : Store) (p : Path) : Action → Store
  | .updateText text => s.updateText p text
  | .load d => (s.load d p).2
  | .putText text => (s.putText p text).2
  | .dropText => (s.dropText p).2
  | .setModule m => { s with modules := s.modules.insert p m }
  | .removeModule => { s with modules := s.modules.erase p }
  | .setCalls index => { s with calls := s.calls.insert p index }
  | .removeCalls => { s with calls := s.calls.erase p }
  | .setParseErrors ds => { s with parseErrors := s.parseErrors.insert p ds }
  | .setFileFindings ds => { s with fileFindings := s.fileFindings.insert p ds }
  | .setCrossFindings ds => { s with crossFindings := s.crossFindings.insert p ds }
  | .removeCrossFindings => { s with crossFindings := s.crossFindings.erase p }
  | .contribute c => s.contribute p c
  | .replaceContributions cs => s.replaceContributions p cs
  | .withdraw c => s.withdraw p c
  | .delete => s.delete p

/-- A step of a run: something is done about a file, or a map of diagnostics is emptied. -/
inductive Operation where
  | about (p : Path) (a : Action)
  | clearParseErrors
  | clearFileFindings
  | clearCrossFindings

namespace Operation

def apply (s : Store) : Operation → Store
  | about p a => a.apply s p
  | clearParseErrors => { s with parseErrors := .empty }
  | clearFileFindings => { s with fileFindings := .empty }
  | clearCrossFindings => { s with crossFindings := .empty }

/-- Whether an operation is about a file, however its path is spelled. -/
def isAbout (p : Path) : Operation → Bool
  | about q _ => q == p
  | _ => false

end Operation

def run (s : Store) (ops : List Operation) : Store :=
  ops.foldl Operation.apply s

variable {s : Store} {p q : Path}

theorem run_append (s : Store) (ops more : List Operation) :
    run s (ops ++ more) = run (run s ops) more :=
  List.foldl_append

/-! ## One operation -/

theorem holds_delete (s : Store) (text : String) (h : (p == q) = false) :
    (s.delete q).holds p text = s.holds p text := by
  have hqp : (q == p) = false := by rw [BEq.comm, h]
  simp [holds, delete, PathMap.get?_erase, hqp]

theorem delete_updateText_of_eq (s : Store) (text : String) (h : (p == q) = true) :
    (s.updateText p text).delete q = s.delete q := by
  unfold updateText
  split
  · rfl
  · simp [delete, PathMap.erase_insert_self _ h, PathMap.erase_erase_self h]

theorem delete_updateText_of_ne (s : Store) (text : String) (h : (p == q) = false) :
    (s.updateText p text).delete q = (s.delete q).updateText p text := by
  unfold updateText
  rw [holds_delete s text h]
  split
  · rfl
  · simp [delete, PathMap.erase_insert_of_ne _ h, PathMap.erase_comm _ p q]

/-- Forgetting a file undoes what was done about it. -/
theorem delete_apply_of_eq (s : Store) (a : Action) (h : (p == q) = true) :
    (a.apply s p).delete q = s.delete q := by
  cases a with
  | updateText text => exact delete_updateText_of_eq s text h
  | load d =>
    simp only [Action.apply, load]
    cases d.readText p with
    | ok text => exact delete_updateText_of_eq s text h
    | error fault => rfl
  | putText text =>
    simp only [Action.apply, putText]
    split
    · rfl
    · simp [delete, PathMap.erase_insert_self _ h]
  | withdraw c =>
    simp only [Action.apply, withdraw]
    split
    · simp [delete, PathMap.erase_insert_self _ h]
    · rfl
  | _ =>
    simp [Action.apply, dropText, contribute, replaceContributions, delete,
      PathMap.erase_insert_self _ h, PathMap.erase_erase_self h]

/-- Forgetting a file is not felt by what is done about another. -/
theorem delete_apply_of_ne (s : Store) (a : Action) (h : (p == q) = false) :
    (a.apply s p).delete q = a.apply (s.delete q) p := by
  have hqp : (q == p) = false := by rw [BEq.comm, h]
  cases a with
  | updateText text => exact delete_updateText_of_ne s text h
  | load d =>
    simp only [Action.apply, load]
    cases d.readText p with
    | ok text => exact delete_updateText_of_ne s text h
    | error fault => rfl
  | putText text =>
    simp only [Action.apply, putText, holds_delete s text h]
    split
    · rfl
    · simp [delete, PathMap.erase_insert_of_ne _ h]
  | withdraw c =>
    have hget : (s.delete q).contributions.get? p = s.contributions.get? p := by
      simp [delete, PathMap.get?_erase, hqp]
    simp only [Action.apply, withdraw, hget]
    split
    · simp [delete, PathMap.erase_insert_of_ne _ h]
    · rfl
  | _ =>
    simp [Action.apply, dropText, contribute, replaceContributions, delete,
      PathMap.get?_erase, hqp, PathMap.erase_insert_of_ne _ h, PathMap.erase_comm _ p q]

theorem delete_apply (s : Store) (o : Operation) (p : Path) :
    (o.apply s).delete p = if o.isAbout p then s.delete p else o.apply (s.delete p) := by
  cases o with
  | about q a =>
    split
    · next h => exact delete_apply_of_eq s a h
    · next h => exact delete_apply_of_ne s a (Bool.eq_false_iff.2 h)
  | clearParseErrors => rfl
  | clearFileFindings => rfl
  | clearCrossFindings => rfl

/-! ## Runs -/

/-- Forgetting a file after a run leaves what the rest of the run makes of a store without it. -/
theorem delete_run (s : Store) (ops : List Operation) (p : Path) :
    (run s ops).delete p = run (s.delete p) (ops.filter fun o => !o.isAbout p) := by
  induction ops generalizing s with
  | nil => rfl
  | cons o ops ih =>
    rw [run, List.foldl_cons, ← run, ih, delete_apply, List.filter_cons]
    cases o.isAbout p <;> rfl

/-- A file that is forgotten after any run is as one that was never there: the store is that of the
run without the operations on the file, and so is what its files contribute to each category and
what is found from that. -/
theorem forgotten_file_was_never_there (ops : List Operation) (p : Path) :
    run {} (ops ++ [.about p .delete]) = run {} (ops.filter fun o => !o.isAbout p) ∧
      ∀ c : Category,
        (run {} (ops ++ [.about p .delete])).state c =
            (run {} (ops.filter fun o => !o.isAbout p)).state c ∧
          c.findings ((run {} (ops ++ [.about p .delete])).state c) =
            c.findings ((run {} (ops.filter fun o => !o.isAbout p)).state c) := by
  have hrun : run {} (ops ++ [.about p .delete]) = run {} (ops.filter fun o => !o.isAbout p) := by
    rw [run_append]
    exact delete_run {} ops p
  rw [hrun]
  exact ⟨rfl, fun _ => ⟨rfl, rfl⟩⟩

end PolicyLint.Store
