import PolicyLint.FileSystem.Edit
import PolicyLint.Proofs.Rego.TokenRanges
import PolicyLint.Proofs.Rule.LineExcess
import PolicyLint.Proofs.Workspace.Coherence
/-!
# Where diagnostics are shown

With the standard capabilities every diagnostic of a file is shown at a range of the file's current
text (`diagnostics_lie_in_their_text`). Parse errors and the findings of the rules on comments and
names are at ranges of the file's own module, those of the rule on the length of lines at places of a
line (`LineLength.Excess`), and the findings across files are at places that the file contributed: the
store agrees with the texts, so these are places of the text the file has now.
-/

namespace PolicyLint

/-! ## Reports and findings across files -/

/-- What the rule on the length of lines flags lies in the text. -/
theorem LineLength.isIn_of_mem_check {text : String} {max : Nat} {d : Diagnostic}
    (hs : IsSmall text) (h : d ∈ check max text) : d.range.IsIn text := by
  obtain ⟨front, line, hline, hlong, rfl⟩ := mem_check_iff.1 h
  obtain ⟨rest, htext, -⟩ := hline.ends
  exact (excess_finding hline hlong (hs.fits htext)).isIn

/-- Every finding of the rules on one file lies in its text. -/
theorem Report.isIn_of_mem {text : String} {m : Rego.Module} {s : Settings} {d : Diagnostic}
    (hs : IsSmall text) (hm : m.RangesIn text.toList)
    (h : d ∈ (Report.of FileRule.standard m text s).diagnostics) : d.range.IsIn text := by
  have h : d ∈ (FileRule.standard.filter fun r => s.isEnabled r.code).flatMap
      fun r => r.check m text s := List.mem_mergeSort.1 h
  obtain ⟨rule, -, hd⟩ := List.mem_flatMap.1 h
  cases rule with
  | todoComment =>
    obtain ⟨c, hc, rfl⟩ := List.mem_map.1 hd
    exact InText.isIn hs (hm.comments c (List.mem_filter.1 hc).1)
  | lineLength => exact LineLength.isIn_of_mem_check hs hd
  | preferSnakeCase =>
    obtain ⟨r, hr, rfl⟩ := List.mem_map.1 hd
    exact InText.isIn hs (hm.rules r (List.mem_filter.1 hr).1)

/-- All places that a module contributes are ranges of its text. -/
theorem Contribution.inText_of_mem_places {cs : List Char} {m : Rego.Module} {r : Range}
    (hm : m.RangesIn cs) {c : Category} (h : r ∈ (Contribution.ofModule c m).places) :
    InText cs r := by
  cases c with
  | missingMetadata =>
    rcases List.mem_cons.1 h with rfl | h
    · exact hm.keyword
    · obtain ⟨fact, hf, rfl⟩ := List.mem_map.1 h
      obtain ⟨rule, hrule, rfl⟩ := List.mem_map.1 hf
      exact hm.rules rule (List.mem_filter.1 hrule).1
  | unresolvedImport =>
    obtain ⟨fact, hf, rfl⟩ := List.mem_map.1 h
    obtain ⟨i, hi, hif⟩ := List.mem_filterMap.1 hf
    unfold ImportFact.ofImport? at hif
    split at hif
    · cases hif
      exact hm.imports i hi
    · cases hif

namespace Analyzer

/-- The findings across files that are about a file are at places of its module. -/
theorem inText_of_mem_crossFindingsFor {a : Analyzer Unit} {p : Path} {cs : List Char}
    {m : Rego.Module} (hm : m.RangesIn cs)
    (hc : a.store.contributions.get? p = some (.ofModule m)) {d : Diagnostic}
    (h : d ∈ a.store.crossFindingsFor a.settings p) : InText cs d.range := by
  obtain ⟨c, -, hd⟩ := List.mem_flatMap.1 h
  obtain ⟨f, hf, rfl⟩ := List.mem_map.1 hd
  obtain ⟨hf, hfp⟩ := List.mem_filter.1 hf
  obtain ⟨contribution, hget, hr⟩ := exists_contribution_of_mem_findings hf
  rw [PathMap.get?_congr _ hfp, Store.state, PathMap.get?_filterMap, hc] at hget
  have hcontribution : contribution = .ofModule c m := by
    cases c <;> exact (Option.some.inj hget).symm
  rw [hcontribution] at hr
  exact Contribution.inText_of_mem_places hm hr

/-- After every run, every diagnostic that a known file shows lies in the file's text: it starts and
stops at positions of that text, and does not stop before it starts. -/
theorem diagnostics_lie_in_their_text (run : List (Disk × Event)) (p : Path) (text : String)
    (ht : ((fresh ()).after .standard run).store.documents.get? p = some text)
    (hs : IsSmall text) :
    ∀ d ∈ ((fresh ()).after .standard run).store.merged p, d.range.IsIn text := by
  intro d hd
  have hc := coherent_after run
  rw [hc.merged_eq ht, diagnosticsOf] at hd
  cases hp : Rego.parse text with
  | error errors =>
    rw [hp] at hd
    obtain ⟨e, he, rfl⟩ := List.mem_map.1 hd
    exact InText.isIn hs (Rego.inText_of_parse_error hp he)
  | ok m =>
    rw [hp] at hd
    have hm := Rego.rangesIn_of_parse hp
    obtain ⟨hsound, hsettled, -⟩ := hc p
    have hcontributed : ((fresh ()).after .standard run).store.contributions.get? p =
        some (.ofModule m) :=
      congrArg FileRecord.contributed? (hsettled.noted hsound ht hp)
    rcases List.mem_append.1 hd with hd | hd
    · exact InText.isIn hs (inText_of_mem_crossFindingsFor hm hcontributed hd)
    · exact Report.isIn_of_mem hs hm hd

/-- A file with an import of another one, characters of two code units, a string that goes over
lines, and a comment that ends with a carriage return. When the other file is deleted, what is found
about the import lies in the text, like what is found in the file itself. -/
theorem diagnostics_lie_in_a_file_with_import :
    let uri (path : String) : Uri := { scheme? := some "file", authority? := some "", path }
    let text := "# METADATA\npackage b\nimport data.a\nx := `😀\n😀` # TODO 😀\r\n"
    let d : Disk := { entries := [(["ws"], .folder),
      (["ws", "a.rego"], .file "# METADATA\npackage a".toUTF8),
      (["ws", "b.rego"], .file "# METADATA\npackage b".toUTF8)] }
    let run : List (Disk × Event) := [(d, .rootsGiven [⟨"/ws"⟩]), (d, .scan),
      (d, .opened (uri "/ws/b.rego") text),
      (d.removeAt ["ws", "a.rego"], .filesChanged [(uri "/ws/a.rego", .deleted)])]
    (((fresh ()).after .standard run).store.documents.get? ⟨"/ws/b.rego"⟩ = some text ∧
        IsSmall text) ∧
      (((fresh ()).after .standard run).store.merged ⟨"/ws/b.rego"⟩).map (·.knownCode?) =
        [some .missingMetadata, some .unresolvedImport, some .todoComment] ∧
      ∀ d ∈ ((fresh ()).after .standard run).store.merged ⟨"/ws/b.rego"⟩,
        d.range.IsIn text := by
  intro uri text d run
  have hs : IsSmall text := ⟨by decide +kernel, by decide +kernel⟩
  obtain ⟨ht, hshown⟩ :
      ((fresh ()).after .standard run).store.documents.get? ⟨"/ws/b.rego"⟩ = some text ∧
        (((fresh ()).after .standard run).store.merged ⟨"/ws/b.rego"⟩).map (·.knownCode?) =
          [some .missingMetadata, some .unresolvedImport, some .todoComment] := by
    decide +kernel
  exact ⟨⟨ht, hs⟩, hshown, diagnostics_lie_in_their_text run ⟨"/ws/b.rego"⟩ text ht hs⟩

end Analyzer

end PolicyLint
