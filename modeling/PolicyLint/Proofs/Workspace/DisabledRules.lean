import PolicyLint.FileSystem.Edit
import PolicyLint.Proofs.CrossFile.FindingOrder
import PolicyLint.Proofs.Uri.Spelling
import PolicyLint.Proofs.Workspace.Agreement
/-!
# Turning rules off

Turning more rules or categories off takes their findings out of what each file shows, and changes
nothing else: no other finding appears, disappears or moves (`disabling_filters`).

All findings carry the code of the rule or category that made them, so those of what is on are those
among all findings whose code is on (`filter_flatMap_enabled`). The findings in one file are sorted,
and many may start at one position; as sorting is stable, findings that are taken out leave the others
in their order (`filter_sortByStart`).
-/

namespace PolicyLint

/-! ## Sorting -/

theorem filter_sortByStart (p : Diagnostic → Bool) (ds : List Diagnostic) :
    (sortByStart ds).filter p = sortByStart (ds.filter p) := by
  refine filter_mergeSort (fun a b c hab hbc => ?_) (fun a b => ?_) p ds
  · rw [decide_eq_true_eq] at hab hbc ⊢
    exact Position.le_trans hab hbc
  · rw [Bool.or_eq_true, decide_eq_true_eq, decide_eq_true_eq, Position.le_iff_not_lt,
      Position.le_iff_not_lt]
    exact Decidable.or_iff_not_imp_left.2 fun h => Position.lt_asymm (Decidable.not_not.1 h)

/-! ## Codes -/

/-- Whether a diagnostic is shown under some settings: its code is on. -/
def Settings.shows (s : Settings) (d : Diagnostic) : Bool :=
  d.knownCode?.all s.isEnabled

/-- Settings under which what `t` turns off is off, too, and lines may be as long. -/
structure Settings.Extends (s t : Settings) : Prop where
  maxLineLength : s.maxLineLength = t.maxLineLength
  rules : t.disabledRules ⊆ s.disabledRules
  categories : t.disabledCategories ⊆ s.disabledCategories

variable {s t : Settings}

theorem Settings.Extends.isEnabled (h : s.Extends t) {c : Code} (hc : s.isEnabled c = true) :
    t.isEnabled c = true := by
  simp only [Settings.isEnabled, Bool.and_eq_true, Bool.not_eq_true', List.contains_eq_mem,
    decide_eq_false_iff_not] at hc ⊢
  exact ⟨fun hr => hc.1 (h.rules hr), fun hk => hc.2 (h.categories hk)⟩

/-- Where all that a source makes carries its code, the findings of the sources that are on are those
whose code is on. -/
theorem filter_flatMap_enabled {ι : Type} (h : s.Extends t) (sources : List ι) (code : ι → Code)
    (findings : ι → List Diagnostic)
    (hcode : ∀ i, ∀ d ∈ findings i, d.knownCode? = some (code i)) :
    ((sources.filter fun i => t.isEnabled (code i)).flatMap findings).filter s.shows =
      (sources.filter fun i => s.isEnabled (code i)).flatMap findings := by
  have hshows (i : ι) (d : Diagnostic) (hd : d ∈ findings i) : s.shows d = s.isEnabled (code i) := by
    rw [Settings.shows, hcode i d hd]
    rfl
  induction sources with
  | nil => rfl
  | cons i sources ih =>
    cases hs : s.isEnabled (code i) with
    | true =>
      have hall : (findings i).filter s.shows = findings i :=
        List.filter_eq_self.2 fun d hd => (hshows i d hd).trans hs
      rw [List.filter_cons_of_pos (by simp [h.isEnabled hs]), List.filter_cons_of_pos (by simp [hs]),
        List.flatMap_cons, List.filter_append, hall, ih, List.flatMap_cons]
    | false =>
      have hnone : (findings i).filter s.shows = [] :=
        List.filter_eq_nil_iff.2 fun d hd => by simp [hshows i d hd, hs]
      have hskip : (i :: sources).filter (fun i => s.isEnabled (code i)) =
          sources.filter fun i => s.isEnabled (code i) := List.filter_cons_of_neg (by simp [hs])
      rw [hskip, ← ih]
      cases ht : t.isEnabled (code i) with
      | true =>
        rw [List.filter_cons_of_pos (by simp [ht]), List.flatMap_cons, List.filter_append, hnone,
          List.nil_append]
      | false => rw [List.filter_cons_of_neg (by simp [ht])]

theorem FileRule.knownCode?_of_mem_check {m : Rego.Module} {text : String} (r : FileRule) :
    ∀ d ∈ r.check m text s, d.knownCode? = some r.code := by
  intro d hd
  cases r with
  | todoComment =>
    obtain ⟨c, -, rfl⟩ := List.mem_map.1 hd
    exact Diagnostic.knownCode?_ofCode ..
  | lineLength =>
    obtain ⟨⟨line, number⟩, -, hline⟩ := List.mem_filterMap.1 hd
    dsimp only at hline
    split at hline
    · cases hline
      exact Diagnostic.knownCode?_ofCode ..
    · cases hline
  | preferSnakeCase =>
    obtain ⟨r, -, rfl⟩ := List.mem_map.1 hd
    exact Diagnostic.knownCode?_ofCode ..

/-! ## The findings of a file -/

/-- Turning rules off takes their findings out of a report. -/
theorem Report.filter_diagnostics (h : s.Extends t) (rules : List FileRule) (m : Rego.Module)
    (text : String) : (Report.of rules m text t).diagnostics.filter s.shows =
      (Report.of rules m text s).diagnostics := by
  have hcheck (r : FileRule) : r.check m text s = r.check m text t := by
    cases r with
    | lineLength => rw [FileRule.check, FileRule.check, h.maxLineLength]
    | _ => rfl
  simp only [Report.of, filter_sortByStart, hcheck]
  rw [filter_flatMap_enabled h rules FileRule.code _ fun r => r.knownCode?_of_mem_check]

/-- Turning categories off takes their findings out of those across files. -/
theorem Store.filter_crossFindingsFor (h : s.Extends t) (store : Store) (p : Path) :
    (store.crossFindingsFor t p).filter s.shows = store.crossFindingsFor s p := by
  refine filter_flatMap_enabled h Category.all Category.code _ fun c d hd => ?_
  obtain ⟨x, hx, rfl⟩ := List.mem_map.1 hd
  exact Category.knownCode?_of_mem_findings (List.mem_filter.1 hx).1

namespace Analyzer

/-- Only the settings are other ones after a change of settings; every text is what it was. -/
theorem configured (a : Analyzer Unit) (d : Disk) (s : Settings) (p : Path) :
    let b := (a.handle .standard d (.configure s)).2
    b.settings = s ∧ b.store.documents.get? p = a.store.documents.get? p := by
  change (a.configure .standard d s).2.settings = s ∧
    (a.configure .standard d s).2.store.documents.get? p = _
  unfold configure
  split
  · next hs => exact ⟨hs, rfl⟩
  · refine ⟨(pass_rest ..).1, ?_⟩
    exact get?_documents_pass Capabilities.quiet_standard d _ _ [] p

/-- After every run, settings that turn more off take the findings of what is off out of what the
files whose texts parse show, and leave what the others show as it is. -/
theorem disabling_filters (run : List (Disk × Event)) (d : Disk) (s : Settings) (p : Path)
    (text : String) :
    let a := (fresh ()).after .standard run
    let b := (a.handle .standard d (.configure s)).2
    s.Extends a.settings → a.store.documents.get? p = some text →
      b.store.merged p = match Rego.parse text with
        | .ok _ => (a.store.merged p).filter s.shows
        | .error _ => a.store.merged p := by
  intro a b h ht
  have ha : Coherent (lastParsed run) a := coherent_after run
  have hb := ha.handle (d := d) (e := .configure s) fun _ _ he => by cases he
  obtain ⟨hsettings, htext⟩ := configured a d s p
  -- no text is other than it was, so every file contributes what it did
  have hcontributions (q : Path) :
      b.store.contributions.get? q = a.store.contributions.get? q := by
    refine hb.contributions_congr ha ?_
    have hq : (b.store.file q).text? = (a.store.file q).text? := (configured a d s q).2
    rw [noteGood, hq]
    exact (ha q).2.1.latest
  rw [hb.merged_eq (htext.trans ht), ha.merged_eq ht]
  unfold diagnosticsOf
  cases Rego.parse text with
  | error errors => rfl
  | ok m =>
    dsimp only
    rw [List.filter_append, Store.filter_crossFindingsFor h, Report.filter_diagnostics h, hsettings,
      Store.crossFindingsFor_congr hcontributions]

/-- A file has findings of its own and across files, as what it imports was deleted, and another one
does not parse. Turning a category off takes its findings out of the first and leaves the second. -/
theorem disabling_a_category_of_two_files :
    let uri (path : String) : Uri := { scheme? := some "file", authority? := some "", path }
    let text := "package b\n\nimport data.a\n\n# TODO\n"
    let d : Disk := { entries := [(["ws"], .folder),
      (["ws", "a.rego"], .file "# METADATA\npackage a".toUTF8),
      (["ws", "b.rego"], .file text.toUTF8), (["ws", "c.rego"], .file "package".toUTF8)] }
    let gone := d.removeAt ["ws", "a.rego"]
    let run : List (Disk × Event) := [(d, .rootsGiven [⟨"/ws"⟩]), (d, .scan),
      (gone, .filesChanged [(uri "/ws/a.rego", .deleted)])]
    let a := (fresh ()).after .standard run
    let s : Settings := { disabledCategories := ["custom"] }
    let b := (a.handle .standard gone (.configure s)).2
    s.Extends a.settings ∧
      (a.store.documents.get? ⟨"/ws/b.rego"⟩ = some text ∧
        (a.store.merged ⟨"/ws/b.rego"⟩).map (·.knownCode?) =
          [some .missingMetadata, some .unresolvedImport, some .todoComment] ∧
        (b.store.merged ⟨"/ws/b.rego"⟩).map (·.knownCode?) =
          [some .unresolvedImport, some .todoComment]) ∧
      (a.store.documents.get? ⟨"/ws/c.rego"⟩ = some "package" ∧
        b.store.merged ⟨"/ws/c.rego"⟩ = a.store.merged ⟨"/ws/c.rego"⟩) := by
  intro uri text d gone run a s b
  have hparses : (Rego.parse text).toOption.isSome = true := by decide +kernel
  have hfails : (Rego.parse "package").toOption = none := by decide +kernel
  -- what is seen before the change, and what the filter leaves of it
  have hbefore : (s.maxLineLength = a.settings.maxLineLength ∧
        a.settings.disabledRules ⊆ s.disabledRules ∧
        a.settings.disabledCategories ⊆ s.disabledCategories) ∧
      a.store.documents.get? ⟨"/ws/b.rego"⟩ = some text ∧
      a.store.documents.get? ⟨"/ws/c.rego"⟩ = some "package" ∧
      (a.store.merged ⟨"/ws/b.rego"⟩).map (·.knownCode?) =
        [some .missingMetadata, some .unresolvedImport, some .todoComment] ∧
      ((a.store.merged ⟨"/ws/b.rego"⟩).filter s.shows).map (·.knownCode?) =
        [some .unresolvedImport, some .todoComment] := by decide +kernel
  obtain ⟨⟨hlength, hrules, hcategories⟩, hb, hc, hshown, hleft⟩ := hbefore
  have hextends : s.Extends a.settings := ⟨hlength, hrules, hcategories⟩
  have hfiltered := disabling_filters run gone s ⟨"/ws/b.rego"⟩ text hextends hb
  have hkept := disabling_filters run gone s ⟨"/ws/c.rego"⟩ "package" hextends hc
  obtain ⟨m, hm⟩ := Option.isSome_iff_exists.1 hparses
  rw [toOption_eq_some_iff.1 hm] at hfiltered
  refine ⟨hextends, ⟨hb, hshown, (congrArg (List.map _) hfiltered).trans hleft⟩, hc, ?_⟩
  cases hp : Rego.parse "package" with
  | ok m =>
    rw [hp] at hfails
    cases hfails
  | error errors =>
    rw [hp] at hkept
    exact hkept

end Analyzer

end PolicyLint
