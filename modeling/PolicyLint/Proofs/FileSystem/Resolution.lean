import PolicyLint.Proofs.FileSystem.RealPath
import PolicyLint.Proofs.Workspace.OpenFiles
/-!
# Where paths lead

A path that leads anywhere leads through the folder that holds its last part. So a URI whose path is
another spelling of a file that can be read leads to that file under its plain name
(`policyPath?_of_leadsTo`): the name is either the real path itself, or it is put together from the
folder and the last part.
-/

namespace PolicyLint.Disk

variable {d : Disk}

/-- The folder of a path that leads anywhere can be found, however the path is spelled. -/
theorem exists_realParent {p q : Path} {l : Location} (h : d.resolve p = .ok l)
    (hpq : (p == q) = true) : ∃ folder, d.realParent? q = some folder := by
  have hparts : p.parts = q.parts := Path.beq_iff.1 hpq
  obtain ⟨habs, hleads⟩ := resolve_eq_ok_iff.1 h
  have hparent : ∃ m, Leads d maxLinks [] (q.parts.dropLast.filterMap Step.ofPart?) m := by
    rw [← hparts]
    rw [Path.steps] at hleads
    rcases List.eq_nil_or_concat p.parts with hnil | ⟨parts, part, hconcat⟩
    · rw [hnil]
      exact ⟨[], .done⟩
    · rw [hconcat, List.concat_eq_append, List.filterMap_append, List.append_assoc] at hleads
      rw [hconcat, List.concat_eq_append, List.dropLast_concat]
      obtain ⟨m, hm, -⟩ := hleads.split
      exact ⟨m, hm⟩
  obtain ⟨folder, hfolder⟩ := hparent
  exact ⟨folder, realParent?_eq_some_iff.2 ⟨(Path.isAbsolute_congr hpq).symm.trans habs, hfolder⟩⟩

/-- A URI that leads to a file that can be read leads to it under its plain name. -/
theorem policyPath?_of_leadsTo {uri : Uri} {p : Path} {text : String} (hp : p.isPlain = true)
    (hread : d.readText p = .ok text) (h : d.leadsTo uri p = true) : d.policyPath? uri = some p := by
  obtain ⟨w, hw, hwp⟩ := (Option.any_eq_true ..).1 h
  rw [hw]
  congr 1
  refine Path.eq_of_isPlain ?_ hp hwp
  unfold policyPath? at hw
  split at hw
  · next hpolicy =>
    obtain ⟨x, hx, rfl⟩ := pathOfUri_eq_ok_iff.1 (toOption_eq_some_iff.1 hw)
    rw [hx, Option.any_some] at hpolicy
    rcases d.isPlain_canonical_or x with hplain | hsame
    · exact hplain
    · -- the path stayed as it was given, so its parts are those of the file
      rw [hsame] at hwp
      obtain ⟨l, hl, -⟩ : ∃ l, d.resolve p = .ok l ∧ d.textAt l = .ok text := by
        unfold readText at hread
        cases hr : d.resolve p with
        | error fault =>
          rw [hr] at hread
          cases hread
        | ok l =>
          rw [hr] at hread
          exact ⟨l, rfl, hread⟩
      obtain ⟨folder, hfolder⟩ := exists_realParent hl (BEq.symm hwp)
      obtain ⟨name, hname⟩ := Path.exists_fileName?_of_isPolicy hpolicy
      exact isPlain_canonical_of_parent hname hfolder
  · cases hw

end PolicyLint.Disk
