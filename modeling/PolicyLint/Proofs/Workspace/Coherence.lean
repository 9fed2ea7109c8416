import PolicyLint.Proofs.Workspace.Run
/-!
# The store agrees with the texts

With the standard capabilities, everything the store holds about a file follows from its text: the
module and the report, or the parse errors. A text that does not parse keeps the calls and the
contributions of the last text of the file that did, on purpose, so the invariant `Coherent` is
about the store and about a ghost: for each file the module of that last text.

Between passes there may be no file whose text was not taken into account (`Settled`). While an
event prepares a pass, those that are not settled are due for linting (`Pending`).
-/

namespace PolicyLint

/-- The module of the last text of a file that parsed, when the file now has the given text; `good`
is what it was before. A file without a text was forgotten. -/
def lastGood (good : Option Rego.Module) : Option String → Option Rego.Module
  | none => none
  | some text => (Rego.parse text).toOption.or good

namespace FileRecord

/-! ## Records that agree with their text -/

/-- A record holds nothing without a text, no module but that of its text, and the calls and
contributions of the module `good`. -/
structure Sound (good : Option Rego.Module) (r : FileRecord) : Prop where
  absent : r.text? = none → r = {}
  module : ∀ text m, r.text? = some text → r.module? = some m → Rego.parse text = .ok m
  calls : r.calls? = good.map .ofModule
  contributed : r.contributed? = good.map .ofModule

/-- A record has taken its text into account: linting again changes nothing, and `good` is the last
text that parsed. -/
structure Settled (s : Settings) (good : Option Rego.Module) (r : FileRecord) : Prop where
  linted : r.lint s = r
  latest : lastGood good r.text? = good

variable {s : Settings} {good : Option Rego.Module} {r : FileRecord}

theorem sound_empty : Sound none {} :=
  ⟨fun _ => rfl, by simp, rfl, rfl⟩

theorem settled_empty (s : Settings) : Settled s none {} :=
  ⟨rfl, rfl⟩

theorem Sound.good_of_absent (h : Sound good r) (ht : r.text? = none) : good = none := by
  have hc := h.calls
  rw [h.absent ht] at hc
  exact Option.map_eq_none_iff.1 hc.symm

theorem Sound.setText (h : Sound good r) (text : String) : Sound good (r.setText text) := by
  unfold FileRecord.setText
  split
  · exact h
  · exact ⟨by simp, by simp, h.calls, h.contributed⟩

/-- The findings of one file and those across files may be anything as long as there is a text. -/
theorem Sound.withFindings (h : Sound good r) {findings? crossFindings? : Option (List Diagnostic)}
    (hf : r.text? = none → findings? = none) (hc : r.text? = none → crossFindings? = none) :
    Sound good { r with findings?, crossFindings? } := by
  refine ⟨fun ht => ?_, h.module, h.calls, h.contributed⟩
  have hr := h.absent ht
  rw [hf ht, hc ht, hr]

/-- Linting a sound record whose text parses notes the module of that text. -/
theorem Sound.lint_of_ok (h : Sound good r) (s : Settings) {text : String} {m : Rego.Module}
    (ht : r.text? = some text) (hp : Rego.parse text = .ok m) : r.lint s = r.note s text m := by
  cases hm : r.module? with
  | none => simp only [FileRecord.lint, ht, hm, hp]
  | some m' =>
    have hm' := h.module text m' ht hm
    rw [hp] at hm'
    cases hm'
    simp only [FileRecord.lint, ht, hm]

theorem Sound.module_of_error (h : Sound good r) {text : String} {errors : List Rego.ParseError}
    (ht : r.text? = some text) (hp : Rego.parse text = .error errors) : r.module? = none := by
  cases hm : r.module? with
  | none => rfl
  | some m =>
    have hm' := h.module text m ht hm
    rw [hp] at hm'
    cases hm'

/-- Linting a sound record whose text does not parse notes the parse errors and nothing else. -/
theorem Sound.lint_of_error (h : Sound good r) (s : Settings) {text : String}
    {errors : List Rego.ParseError} (ht : r.text? = some text)
    (hp : Rego.parse text = .error errors) :
    r.lint s = { r with parseErrors? := some (errors.map .ofParseError) } := by
  simp only [FileRecord.lint, ht, h.module_of_error ht hp, hp]

/-- A sound record that is linted has the calls and contributions of its text, if that parses. -/
theorem Sound.lint (h : Sound good r) (s : Settings) :
    Sound (lastGood good r.text?) (r.lint s) := by
  cases ht : r.text? with
  | none =>
    rw [h.absent ht]
    exact sound_empty
  | some text =>
    cases hp : Rego.parse text with
    | ok m =>
      rw [h.lint_of_ok s ht hp, lastGood, hp]
      refine ⟨fun h => ?_, fun text' m' ht' hm' => ?_, rfl, rfl⟩
      · rw [note, ht] at h
        cases h
      · rw [note, ht] at ht'
        cases ht'
        cases hm'
        exact hp
    | error errors =>
      have hm := h.module_of_error ht hp
      rw [h.lint_of_error s ht hp, lastGood, hp]
      exact ⟨fun h => absurd (ht.symm.trans h) (by simp), by simp [hm], h.calls, h.contributed⟩

theorem lastGood_lastGood (good : Option Rego.Module) (text? : Option String) :
    lastGood (lastGood good text?) text? = lastGood good text? := by
  cases text? with
  | none => rfl
  | some text => cases h : Rego.parse text <;> simp [lastGood, h, Except.toOption]

theorem settled_lint (s : Settings) (good : Option Rego.Module) (r : FileRecord) :
    Settled s (lastGood good r.text?) (r.lint s) := by
  refine ⟨lint_lint s r, ?_⟩
  rw [text?_lint, lastGood_lastGood]

theorem Settled.withCrossFindings (h : Settled s good r)
    (crossFindings? : Option (List Diagnostic)) : Settled s good { r with crossFindings? } := by
  refine ⟨?_, h.latest⟩
  have hl : FileRecord.lint s { r with crossFindings? } = { r.lint s with crossFindings? } := by
    unfold FileRecord.lint
    dsimp only
    split
    · rfl
    · rfl
    · split <;> rfl
  rw [hl, h.linted]

/-- A sound and settled record whose text parses has noted its module and the report on it. -/
theorem Settled.noted (hs : Sound good r) (h : Settled s good r) {text : String} {m : Rego.Module}
    (ht : r.text? = some text) (hp : Rego.parse text = .ok m) : r = r.note s text m := by
  rw [← hs.lint_of_ok s ht hp, h.linted]

/-- A sound and settled record whose text does not parse has the parse errors. -/
theorem Settled.broken (hs : Sound good r) (h : Settled s good r) {text : String}
    {errors : List Rego.ParseError} (ht : r.text? = some text)
    (hp : Rego.parse text = .error errors) :
    r.parseErrors? = some (errors.map .ofParseError) := by
  have hl := hs.lint_of_error s ht hp
  rw [h.linted] at hl
  exact congrArg FileRecord.parseErrors? hl

end FileRecord

namespace Analyzer

open FileRecord

/-! ## The invariant -/

/-- Every record is sound and settled, and a file that contributes has exactly the findings across
files that are about it. -/
def Coherent (good : Path → Option Rego.Module) (a : Analyzer Unit) : Prop :=
  ∀ q, (a.store.file q).Sound (good q) ∧ (a.store.file q).Settled a.settings (good q) ∧
    (a.store.file q).crossFindings? =
      (a.store.file q).contributed?.map fun _ => a.store.crossFindingsFor a.settings q

/-- Takes a pass into account for the last texts that parsed. -/
def noteGood (good : Path → Option Rego.Module) (r : List Publication × Analyzer Unit) :
    Path → Option Rego.Module :=
  fun q => lastGood (good q) (r.2.store.file q).text?

/-- While a pass is prepared, every record is sound, and those that are not settled are due. -/
def Pending (good : Path → Option Rego.Module) (a : Analyzer Unit) (due : List Path) : Prop :=
  ∀ q, (a.store.file q).Sound (good q) ∧
    ((a.store.file q).Settled a.settings (good q) ∨ due.any (· == q) = true)

variable {Q : Path → Prop} {d : Disk} {a b : Analyzer Unit} {good : Path → Option Rego.Module}
variable {due : List Path}

theorem Pending.withText (h : Pending good b due) (p : Path) (text : String) :
    Pending good (b.withText p text) (if b.isDue p text then due ++ [p] else due) := by
  intro q
  obtain ⟨hs, hq⟩ := h q
  have hfile : (b.withText p text).store.file q =
      if p == q then (b.store.file q).setText text else b.store.file q :=
    Store.file_updateText ..
  have hmono : due.any (· == q) = true →
      (if b.isDue p text then due ++ [p] else due).any (· == q) = true := by
    intro hd
    split <;> simp_all
  rw [hfile]
  cases hpq : p == q with
  | false => exact ⟨hs, hq.imp_right hmono⟩
  | true =>
    refine ⟨hs.setText text, ?_⟩
    by_cases hh : (b.store.file q).text? = some text
    · -- the same text again: nothing changed
      rw [if_pos rfl, FileRecord.setText, if_pos hh]
      exact hq.imp_right hmono
    · right
      have hdue : b.isDue p text = true := by
        have : b.store.holds p text = false := by
          rw [Bool.eq_false_iff]
          intro hp
          rw [Store.holds_iff, Store.file_congr _ hpq] at hp
          exact hh hp
        simp [isDue, this]
      simp [hdue, hpq]

theorem Prepared.pending (hc : Coherent good a) (h : Prepared Q a b due) : Pending good b due := by
  induction h with
  | start => exact fun q => ⟨(hc q).1, Or.inl (hc q).2.1⟩
  | rest _ _ _ _ ih => exact ih
  | text _ _ text ih => exact ih.withText _ text

/-- A pass that lints all that is due makes every record sound and settled. -/
theorem Pending.pass (h : Pending good b due) {toLint deleted : List Path}
    (hl : ∀ p ∈ due, p ∈ toLint) (hne : ¬(toLint = [] ∧ deleted = [])) :
    Coherent (noteGood good (b.pass .standard d toLint deleted))
      (b.pass .standard d toLint deleted).2 := by
  intro q
  have hfile := file_pass d b q hne
  dsimp only at hfile
  have hset := (pass_rest .standard d b toLint deleted).1
  simp only [noteGood]
  rw [hfile, hset]
  have hdue : due.any (· == q) = true → toLint.any (· == q) = true := by
    simp only [List.any_eq_true]
    rintro ⟨p, hp, hpq⟩
    exact ⟨p, hl p hp, hpq⟩
  obtain ⟨hs, hq⟩ := h q
  -- forgotten, linted, or settled before: linting it makes no difference any more
  have hwork : ∃ r, (b.store.file q).worked b.settings (toLint.any (· == q))
      (deleted.any (· == q)) = r.lint b.settings ∧
      (r = {} ∨ r = b.store.file q) := by
    cases hdel : deleted.any (· == q) with
    | true =>
      refine ⟨{}, ?_, Or.inl rfl⟩
      cases toLint.any (· == q) <;> rfl
    | false =>
      refine ⟨b.store.file q, ?_, Or.inr rfl⟩
      cases htl : toLint.any (· == q) with
      | true => rfl
      | false =>
        rcases hq with hq | hq
        · exact hq.linted.symm
        · rw [hdue hq] at htl
          cases htl
  obtain ⟨r, hr, hcase⟩ := hwork
  have hsound : (r.lint b.settings).Sound (lastGood (good q) r.text?) := by
    rcases hcase with rfl | rfl
    · exact sound_empty
    · exact hs.lint b.settings
  have hsettled := settled_lint b.settings (good q) r
  rw [← text?_lint b.settings r] at hsound hsettled
  rw [hr]
  refine ⟨?_, hsettled.withCrossFindings _, rfl⟩
  refine hsound.withFindings (fun ht => ?_) fun ht => ?_
  · rw [hsound.absent ht]
  · rw [hsound.absent ht]
    rfl

theorem Coherent.noteGood_eq (hc : Coherent good a) {ps : List Publication} :
    noteGood good (ps, a) = good := by
  funext q
  exact (hc q).2.1.latest

/-- What is still to be done when all findings are dropped: every file that has a text. -/
theorem Coherent.pending_relint (hc : Coherent good a) (settings : Settings) :
    Pending good (a.dropFindings settings) a.store.documents.keys := by
  intro q
  obtain ⟨hs, -, -⟩ := hc q
  refine ⟨hs.withFindings (fun _ => rfl) (fun _ => rfl), ?_⟩
  cases ht : (a.store.file q).text? with
  | none =>
    left
    have hr := hs.absent ht
    rw [hs.good_of_absent ht]
    change Settled settings none { a.store.file q with findings? := none, crossFindings? := none }
    rw [hr]
    exact settled_empty settings
  | some text =>
    right
    have : a.store.documents.contains q = true := by
      rw [Store.contains_documents, ht]
      rfl
    rw [PathMap.contains_iff] at this
    rwa [List.any_eq_true]

theorem Coherent.step {r : List Publication × Analyzer Unit} (hc : Coherent good a)
    (hr : PassStep Q .standard d a r) : Coherent (noteGood good r) r.2 := by
  cases hr with
  | @work b due toLint deleted h hl hd =>
    by_cases hne : toLint = [] ∧ deleted = []
    · rw [hne.1, hne.2, pass_nil]
      have hb : Coherent good b := by
        intro q
        rw [h.store_eq hl hne.1, h.settings]
        exact hc q
      rw [hb.noteGood_eq]
      exact hb
    · exact (h.pending hc).pass hl hne
  | relint settings =>
    have hp := hc.pending_relint settings
    by_cases hk : a.store.documents.keys = []
    · rw [hk] at hp ⊢
      rw [pass_nil]
      have hb : Coherent good (a.dropFindings settings) := by
        intro q
        have hs := (hp q).1
        have hq : (a.dropFindings settings).store.documents.get? q = none := by
          cases hq : (a.dropFindings settings).store.documents.get? q with
          | none => rfl
          | some text =>
            obtain ⟨e, he, -⟩ := PathMap.get?_eq_some_iff.1 hq
            have hk' : e.1 ∈ a.store.documents.keys := List.mem_map_of_mem he
            rw [hk] at hk'
            cases hk'
        have hr := hs.absent hq
        refine ⟨hs, (hp q).2.resolve_right (by simp), ?_⟩
        rw [hr]
        rfl
      rw [hb.noteGood_eq]
      exact hb
    · exact hp.pass (fun _ h => h) fun h => hk h.1

theorem coherent_fresh : Coherent (fun _ => none) (fresh ()) :=
  fun _ => ⟨sound_empty, settled_empty _, rfl⟩

/-! ## Runs -/

/-- The module of the last text of a file that parsed, since the file was last forgotten. -/
def lastParsed (run : List (Disk × Event)) (p : Path) : Option Rego.Module :=
  ((fresh ()).history .standard run).foldl noteGood (fun _ => none) p

theorem coherent_after (run : List (Disk × Event)) :
    Coherent (lastParsed run) ((fresh ()).after .standard run) :=
  (history_invariant (Q := fun _ => True) (fun _ _ _ _ _ hc hr => hc.step hr)
    (fun _ _ _ _ => trivial) ⟨fun _ _ => trivial, fun _ _ => trivial⟩
    (fun _ _ _ _ => trivial) coherent_fresh).1

/-- After every run, a file without a text has no entry in any store. A file whose text parses has
the module of that text and what follows from it under the current settings. A file whose text does
not parse has the parse errors and no module; where it calls built-in functions and what it
contributes is that of its last text that parsed. -/
theorem stores_agree_with_texts (run : List (Disk × Event)) (p : Path) :
    let a := (fresh ()).after .standard run
    match a.store.documents.get? p with
    | none => a.store.file p = {}
    | some text =>
      match Rego.parse text with
      | .ok m =>
        a.store.modules.get? p = some m ∧
        a.store.parseErrors.get? p = some [] ∧
        a.store.fileFindings.get? p =
          some (Report.of FileRule.standard m text a.settings).diagnostics ∧
        a.store.calls.get? p = some (.ofModule m) ∧
        a.store.contributions.get? p =
          some { metadata? := some (.ofModule m), imports? := some (.ofModule m) } ∧
        a.store.crossFindings.get? p = some (a.store.crossFindingsFor a.settings p)
      | .error errors =>
        a.store.modules.get? p = none ∧
        a.store.parseErrors.get? p = some (errors.map .ofParseError) ∧
        a.store.calls.get? p = (lastParsed run p).map .ofModule ∧
        a.store.contributions.get? p = (lastParsed run p).map (fun m =>
          { metadata? := some (.ofModule m), imports? := some (.ofModule m) }) ∧
        a.store.crossFindings.get? p =
          (lastParsed run p).map fun _ => a.store.crossFindingsFor a.settings p := by
  intro a
  obtain ⟨hs, hq, hx⟩ := coherent_after run p
  cases ht : a.store.documents.get? p with
  | none => exact hs.absent ht
  | some text =>
    dsimp only
    cases hp : Rego.parse text with
    | ok m =>
      have hr := hq.noted hs ht hp
      have hc : (a.store.file p).contributed? = some (.ofModule m) :=
        congrArg FileRecord.contributed? hr
      refine ⟨congrArg FileRecord.module? hr, congrArg FileRecord.parseErrors? hr,
        congrArg FileRecord.findings? hr, congrArg FileRecord.calls? hr, hc, ?_⟩
      exact hx.trans (by rw [hc]; rfl)
    | error errors =>
      refine ⟨hs.module_of_error ht hp, hq.broken hs ht hp, hs.calls, hs.contributed, ?_⟩
      exact hx.trans (by rw [hs.contributed, Option.map_map]; rfl)

/-! ## The diagnostics of a text -/

theorem parse_error_ne_nil {text : String} {errors : List Rego.ParseError}
    (h : Rego.parse text = .error errors) : errors ≠ [] := by
  unfold Rego.parse Rego.tokenize Rego.parseTokens at h
  rintro rfl
  dsimp only at h
  split at h
  · split at h
    · cases h
    · next hne =>
      injection h with h
      exact hne h
  · next herr =>
    split at herr
    · cases herr
    · next hne =>
      injection herr with herr
      injection h with h
      exact hne (herr.trans h)

/-- The diagnostics that belong to a file with the given text: its parse errors, or the findings
across files that are about it and then the findings in its module. -/
def diagnosticsOf (a : Analyzer Unit) (p : Path) (text : String) : List Diagnostic :=
  match Rego.parse text with
  | .ok m => a.store.crossFindingsFor a.settings p ++
      (Report.of FileRule.standard m text a.settings).diagnostics
  | .error errors => errors.map .ofParseError

theorem Coherent.merged_eq (hc : Coherent good a) {p : Path} {text : String}
    (ht : a.store.documents.get? p = some text) : a.store.merged p = a.diagnosticsOf p text := by
  obtain ⟨hs, hq, hx⟩ := hc p
  unfold diagnosticsOf Store.merged
  cases hp : Rego.parse text with
  | ok m =>
    have hr := hq.noted hs ht hp
    have he : a.store.parseErrors.get? p = some [] := congrArg FileRecord.parseErrors? hr
    have hf : a.store.fileFindings.get? p =
        some (Report.of FileRule.standard m text a.settings).diagnostics :=
      congrArg FileRecord.findings? hr
    have hcon : (a.store.file p).contributed? = some (.ofModule m) :=
      congrArg FileRecord.contributed? hr
    rw [hcon] at hx
    have hcross : a.store.crossFindings.get? p = some (a.store.crossFindingsFor a.settings p) := hx
    rw [he, hf, hcross]
    rfl
  | error errors =>
    have he : a.store.parseErrors.get? p = some (errors.map .ofParseError) :=
      hq.broken hs ht hp
    rw [he]
    cases errors with
    | nil => exact absurd rfl (parse_error_ne_nil hp)
    | cons e es => rfl

end Analyzer

end PolicyLint
