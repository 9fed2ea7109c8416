import PolicyLint.Proofs.CrossFile.Respelling
import PolicyLint.Proofs.Workspace.Coherence
/-!
# Analyzers that agree

Two coherent analyzers with the same settings may have come from different runs. Whatever they
remember of the last texts that parsed is all that tells their contributions apart
(`Coherent.contributions_congr`), and if those are the same, the texts alone decide what is shown
(`Coherent.merged_congr`). So to see that two runs end in the same results, it is enough to compare
texts, and to follow the last texts that parsed (`Coherent.handle`).
-/

namespace PolicyLint.Analyzer

open FileRecord

variable {good good' : Path → Option Rego.Module} {a b : Analyzer Unit} {d : Disk} {p u : Path}
variable {text : String}

/-! ## What the last texts decide -/

/-- A file contributes what its last text that parsed does. -/
theorem Coherent.contributions_congr (ha : Coherent good a) (hb : Coherent good' b)
    (h : good p = good' p) : a.store.contributions.get? p = b.store.contributions.get? p := by
  have hpa : a.store.contributions.get? p = (good p).map .ofModule := (ha p).1.contributed
  have hpb : b.store.contributions.get? p = (good' p).map .ofModule := (hb p).1.contributed
  rw [hpa, hpb, h]

/-- A file whose text parses contributes what that text does, whatever it was before. -/
theorem Coherent.good_of_parse (ha : Coherent good a) {m : Rego.Module}
    (ht : a.store.documents.get? p = some text) (hp : Rego.parse text = .ok m) :
    good p = some m := by
  have hlatest := (ha p).2.1.latest
  change lastGood (good p) (a.store.documents.get? p) = good p at hlatest
  rw [ht, lastGood, hp] at hlatest
  exact hlatest.symm

/-- The same text shows the same diagnostics, if all files contribute the same. -/
theorem Coherent.merged_congr (ha : Coherent good a) (hb : Coherent good' b)
    (hs : a.settings = b.settings)
    (ht : a.store.documents.get? p = b.store.documents.get? p)
    (hc : ∀ q, a.store.contributions.get? q = b.store.contributions.get? q) :
    a.store.merged p = b.store.merged p := by
  cases hp : a.store.documents.get? p with
  | none =>
    have hmerged : ∀ s : Store, s.file p = {} → s.merged p = [] := by
      intro s hfile
      have he : s.parseErrors.get? p = none := congrArg FileRecord.parseErrors? hfile
      have hx : s.crossFindings.get? p = none := congrArg FileRecord.crossFindings? hfile
      have hf : s.fileFindings.get? p = none := congrArg FileRecord.findings? hfile
      rw [Store.merged, he, hx, hf]
      rfl
    rw [hmerged a.store ((ha p).1.absent hp), hmerged b.store ((hb p).1.absent (ht.symm.trans hp))]
  | some text =>
    rw [ha.merged_eq hp, hb.merged_eq (ht.symm.trans hp)]
    unfold diagnosticsOf
    rw [hs, Store.crossFindingsFor_congr hc]

/-- A text that does not parse shows what is wrong with it, whatever all files contribute. -/
theorem Coherent.merged_of_error (ha : Coherent good a) {errors : List Rego.ParseError}
    (ht : a.store.documents.get? p = some text) (hp : Rego.parse text = .error errors) :
    a.store.merged p = errors.map .ofParseError := by
  rw [ha.merged_eq ht, diagnosticsOf, hp]

/-- All diagnostics are the same if the same files show the same. -/
theorem allDiagnostics_congr {σ τ : Type} {a : Analyzer σ} {b : Analyzer τ} (d : Disk)
    (hk : a.store.documents.keys = b.store.documents.keys)
    (hm : ∀ p, a.store.merged p = b.store.merged p) :
    a.allDiagnostics d = b.allDiagnostics d := by
  unfold allDiagnostics
  rw [hk]
  congr 1
  funext p
  rw [hm]

/-! ## Events -/

/-- An event of one pass keeps the store coherent. -/
theorem Coherent.handle (ha : Coherent good a) {e : Event}
    (he : ∀ added removed, e ≠ .foldersChanged added removed) :
    Coherent (noteGood good (a.handle .standard d e)) (a.handle .standard d e).2 := by
  have hasked : Asked (fun _ => True) a (a.work d e) :=
    asked_work ⟨fun _ _ => trivial, fun _ _ => trivial⟩ (fun _ _ => trivial) fun _ _ _ => trivial
  rw [handle_eq_run a he]
  exact ha.step (hasked.passStep .standard d)

end PolicyLint.Analyzer
