import PolicyLint.Proofs.Workspace.Run
/-!
# One version of each file

While a parser or a linter is at work on a file, the file may be given other texts, and a linter may
fail. Still all that is stored about a file comes from one text, that of the last report that was
noted (`results_come_from_one_text`): its module and its findings are of that text or they are
missing, and what it contributes and where it calls built-in functions is of that text throughout.
A module is stored only as long as that text is the text of the file.

A linting first makes its calls and then notes what came of them (`lintFile_eq`). The calls can do no
more than drop the module (`From.setText`), and a report is noted only if the text is the one the
linting started from (`calls_spec`).
-/

namespace PolicyLint

theorem Capabilities.faithful_disturbed (categories : List Category) :
    (disturbed categories).Faithful := by
  constructor
  · intro host p text
    rfl
  · intro host p m text s report h
    exact eq_of_ite_error_eq_ok h

/-! ## Records whose results come from one text -/

namespace FileRecord

/-- The results in a record come from the given text, linted under the given settings, or there are
none. Findings and the module may be missing. -/
def From (r : FileRecord) : Option (String × Settings) → Prop
  | none => r.module? = none ∧ r.findings? = none ∧ r.calls? = none ∧ r.contributed? = none
  | some (text, s) => ∃ m, Rego.parse text = .ok m ∧
      r.contributed? = some (.ofModule m) ∧ r.calls? = some (.ofModule m) ∧
      (r.findings? = none ∨
        r.findings? = some (Report.of FileRule.standard m text s).diagnostics) ∧
      ∀ m', r.module? = some m' → r.text? = some text ∧ m' = m

variable {r : FileRecord} {x : Option (String × Settings)}

theorem From.empty : From {} none := ⟨rfl, rfl, rfl, rfl⟩

/-- A new text drops the module and leaves all other results in place. -/
theorem From.setText (h : r.From x) (text : String) : (r.setText text).From x := by
  unfold FileRecord.setText
  split
  · exact h
  · match x, h with
    | none, ⟨_, hf, hc, hk⟩ => exact ⟨rfl, hf, hc, hk⟩
    | some (_, _), ⟨m, hp, hk, hc, hf, _⟩ =>
      refine ⟨m, hp, hk, hc, hf, ?_⟩
      intro m' hm'
      cases hm'

theorem From.foldl_setText (h : r.From x) (texts : List String) :
    (texts.foldl FileRecord.setText r).From x := by
  induction texts generalizing r with
  | nil => exact h
  | cons text texts ih => exact ih (h.setText text)

/-- Parse errors and findings across files are no results of one text. -/
theorem From.withOthers (h : r.From x) (parseErrors? crossFindings? : Option (List Diagnostic)) :
    From { r with parseErrors?, crossFindings? } x := by
  cases x with
  | none => exact h
  | some x => exact h

theorem From.dropFindings (h : r.From x) :
    From { r with findings? := none, crossFindings? := none } x := by
  match x, h with
  | none, ⟨hm, _, hc, hk⟩ => exact ⟨hm, rfl, hc, hk⟩
  | some (_, _), ⟨m, hp, hk, hc, _, hm⟩ => exact ⟨m, hp, hk, hc, Or.inl rfl, hm⟩

/-- A report replaces all results at once. -/
theorem From.of_note {text : String} {m : Rego.Module} (ht : r.text? = some text)
    (hp : Rego.parse text = .ok m) (s : Settings) : (r.note s text m).From (some (text, s)) := by
  refine ⟨m, hp, rfl, rfl, Or.inr rfl, fun m' hm' => ⟨ht, ?_⟩⟩
  exact (Option.some.inj hm').symm

theorem From.parse_module {text : String} {m : Rego.Module} (h : r.From x)
    (ht : r.text? = some text) (hm : r.module? = some m) : Rego.parse text = .ok m := by
  match x, h with
  | none, ⟨hnone, _⟩ =>
    rw [hnone] at hm
    cases hm
  | some (_, _), ⟨_, hp, _, _, _, hmod⟩ =>
    obtain ⟨htext, rfl⟩ := hmod m hm
    rw [ht] at htext
    cases htext
    exact hp

end FileRecord

namespace Analyzer

variable {σ : Type} {cap : Capabilities σ} {a : Analyzer σ} {p q : Path}
variable {x : Option (String × Settings)}

/-! ## The calls of a linting and what it notes -/

/-- What a linting is to note once it has made its calls. -/
inductive Verdict
  | nothing
  | broken (errors : List Rego.ParseError)
  | sound (text : String) (m : Rego.Module) (report : Report)

/-- Makes the calls of a linting: what there is to note, and the state after the calls. -/
def calls (cap : Capabilities σ) (a : Analyzer σ) (p : Path) : Verdict × Analyzer σ :=
  match a.store.documents.get? p with
  | none => (.nothing, a)
  | some text =>
    match a.moduleOf cap p text with
    | (.error errors, b) => (if b.store.holds p text then .broken errors else .nothing, b)
    | (.ok m, b) =>
      let out := cap.lint b.host p m text b.settings
      let c := b.takeEdits p out.edits out.host
      match out.value with
      | .error _ => (.nothing, c)
      | .ok report => (if c.store.holds p text then .sound text m report else .nothing, c)

def note (a : Analyzer σ) (p : Path) : Verdict → Analyzer σ
  | .nothing => a
  | .broken errors => a.noteErrors p errors
  | .sound _ m report => a.noteReport p m report

/-- A linting makes its calls and then notes what came of them. -/
theorem lintFile_eq (cap : Capabilities σ) (a : Analyzer σ) (p : Path) :
    a.lintFile cap p = (a.calls cap p).2.note p (a.calls cap p).1 := by
  unfold lintFile calls
  cases a.store.documents.get? p with
  | none => rfl
  | some text =>
    dsimp only
    obtain ⟨parsed, b⟩ := a.moduleOf cap p text
    cases parsed with
    | error errors =>
      dsimp only
      by_cases hholds : b.store.holds p text = true
      · rw [if_pos hholds, if_pos hholds]
        rfl
      · rw [if_neg hholds, if_neg hholds]
        rfl
    | ok m =>
      dsimp only
      cases (cap.lint b.host p m text b.settings).value with
      | error fault => rfl
      | ok report =>
        dsimp only
        split
        · rfl
        · rfl

theorem file_takeEdits (a : Analyzer σ) (p : Path) (edits : List String) (host : σ) :
    (a.takeEdits p edits host).store.file p =
      edits.foldl FileRecord.setText (a.store.file p) := by
  induction edits generalizing a with
  | nil => rfl
  | cons text edits ih =>
    have htext : (a.store.updateText p text).file p = (a.store.file p).setText text := by
      rw [Store.file_updateText, if_pos BEq.rfl]
    refine (ih { a with store := a.store.updateText p text }).trans ?_
    rw [List.foldl_cons, ← htext]

theorem from_takeEdits (h : (a.store.file p).From x) (edits : List String) (host : σ) :
    ((a.takeEdits p edits host).store.file p).From x := by
  rw [file_takeEdits]
  exact h.foldl_setText edits

/-- The module that a linting works with is that of the text it started from. -/
theorem moduleOf_spec (hcap : cap.Faithful) (h : (a.store.file p).From x) {text : String}
    (ht : (a.store.file p).text? = some text) :
    ((a.moduleOf cap p text).2.store.file p).From x ∧
      ∀ m, (a.moduleOf cap p text).1 = .ok m → Rego.parse text = .ok m := by
  unfold moduleOf
  split
  · next m hm =>
    refine ⟨h, ?_⟩
    intro m' hm'
    cases hm'
    exact h.parse_module ht hm
  · refine ⟨from_takeEdits h _ _, ?_⟩
    intro m hm
    rw [← hcap.parse a.host p text]
    exact hm

/-- The calls of a linting keep where the results of a file come from. A report that they leave to
be noted is the report on the text that the file still has. -/
theorem calls_spec (hcap : cap.Faithful) (h : (a.store.file p).From x) :
    ((a.calls cap p).2.store.file p).From x ∧
      ∀ text m report, (a.calls cap p).1 = .sound text m report →
        ((a.calls cap p).2.store.file p).text? = some text ∧ Rego.parse text = .ok m ∧
          report = .of FileRule.standard m text a.settings := by
  unfold calls
  cases ht : a.store.documents.get? p with
  | none =>
    refine ⟨h, ?_⟩
    intro _ _ _ hv
    cases hv
  | some text =>
    have hdoc : a.store.documents.contains p = true := by rw [PathMap.contains, ht]; rfl
    obtain ⟨hfrom, hparse⟩ := moduleOf_spec hcap h ht
    have hsettings := (sameBut_moduleOf cap text hdoc).settings
    dsimp only
    split
    · next errors b hb =>
      rw [hb] at hfrom
      refine ⟨hfrom, ?_⟩
      intro _ _ _ hv
      dsimp only at hv
      split at hv <;> cases hv
    · next m b hb =>
      rw [hb] at hfrom hparse hsettings
      have hedits := from_takeEdits hfrom (cap.lint b.host p m text b.settings).edits
        (cap.lint b.host p m text b.settings).host
      split
      · refine ⟨hedits, ?_⟩
        intro _ _ _ hv
        cases hv
      · next report hreport =>
        refine ⟨hedits, ?_⟩
        intro _ _ _ hv
        dsimp only at hv
        split at hv
        · next hholds =>
          -- the text is still the one that was linted, so the report may be noted
          cases hv
          have hsame : b.settings = a.settings := hsettings
          refine ⟨Store.holds_iff.1 hholds, hparse m rfl, ?_⟩
          rw [hcap.lint _ _ _ _ _ _ hreport, hsame]
        · cases hv

/-! ## What was done to the files -/

/-- What passes do to files that tells where their results come from. -/
inductive Deed
  | forgot (p : Path)
  /-- the report on a text, made under some settings, was noted -/
  | noted (p : Path) (text : String) (settings : Settings)

/-- The text and the settings of the last report on a file, unless the file was forgotten since. -/
def lastReport (p : Path) (deeds : List Deed) (x : Option (String × Settings) := none) :
    Option (String × Settings) :=
  deeds.foldl (fun x deed =>
    match deed with
    | .forgot q => if q == p then none else x
    | .noted q text s => if q == p then some (text, s) else x) x

/-- The report that a linting notes, if it notes one. -/
def reported (cap : Capabilities σ) (a : Analyzer σ) (p : Path) : List Deed :=
  match (a.calls cap p).1 with
  | .sound text _ _ => [.noted p text a.settings]
  | _ => []

/-- The reports that are noted when files are linted one after the other. -/
def reports (cap : Capabilities σ) : Analyzer σ → List Path → List Deed
  | _, [] => []
  | a, p :: ps => a.reported cap p ++ reports cap (a.lintFile cap p) ps

/-- What is done in a pass: files are forgotten before others are linted. -/
def deedsOf (cap : Capabilities σ) (w : Work σ) : List Deed :=
  w.deleted.map .forgot ++ (w.deleted.foldl forget w.start).reports cap w.toLint

def deeds (cap : Capabilities σ) (a : Analyzer σ) (run : List (Disk × Event)) : List Deed :=
  (a.asks cap run).flatMap fun y => deedsOf cap y.2

theorem lastReport_append (deeds more : List Deed) :
    lastReport p (deeds ++ more) x = lastReport p more (lastReport p deeds x) :=
  List.foldl_append

theorem lastReport_forgot (ps : List Path) :
    lastReport p (ps.map .forgot) x = if ps.any (· == p) then none else x := by
  induction ps generalizing x with
  | nil => rfl
  | cons q ps ih =>
    change lastReport p (ps.map .forgot) (if q == p then none else x) = _
    rw [ih, List.any_cons]
    cases q == p <;> cases ps.any (· == p) <;> rfl

/-! ## Passes -/

/-- A linting keeps the results of every file from one text: the text of the report, if it notes one
on the file, and else the text from before. -/
theorem from_lintFile (hcap : cap.Faithful) (h : (a.store.file p).From x) :
    ((a.lintFile cap q).store.file p).From (lastReport p (a.reported cap q) x) := by
  by_cases hqp : (q == p) = true
  · rw [← Store.file_congr _ hqp] at h ⊢
    obtain ⟨hfrom, hsound⟩ := calls_spec hcap h
    rw [lintFile_eq, reported]
    cases hv : (a.calls cap q).1 with
    | nothing => exact hfrom
    | broken errors =>
      change FileRecord.From ((noteErrors _ q errors).store.file q) x
      rw [file_noteErrors, if_pos BEq.rfl]
      exact hfrom.withOthers _ _
    | sound text m report =>
      obtain ⟨ht, hp, hreport⟩ := hsound text m report hv
      change FileRecord.From ((noteReport _ q m report).store.file q)
        (if q == p then some (text, a.settings) else x)
      rw [hreport, file_noteReport, if_pos BEq.rfl, if_pos hqp]
      exact .of_note ht hp a.settings
  · replace hqp : (q == p) = false := Bool.eq_false_iff.2 hqp
    have hlast : lastReport p (a.reported cap q) x = x := by
      unfold reported
      split
      · change (if q == p then _ else x) = x
        rw [hqp]
        rfl
      · rfl
    rw [hlast, (sameBut_lintFile cap a q).file p hqp]
    exact h

theorem from_foldl_lintFile (hcap : cap.Faithful) (ps : List Path) (h : (a.store.file p).From x) :
    ((ps.foldl (lintFile cap) a).store.file p).From (lastReport p (a.reports cap ps) x) := by
  induction ps generalizing a x with
  | nil => exact h
  | cons q ps ih =>
    rw [reports, lastReport_append]
    exact ih (from_lintFile hcap h)

/-- The results of a file come from one text after a pass, if they did when it started. -/
theorem from_run (hcap : cap.Faithful) (d : Disk) (w : Work σ) (h : (w.start.store.file p).From x) :
    ((w.run cap d).2.store.file p).From (lastReport p (deedsOf cap w) x) := by
  by_cases hidle : w.toLint = [] ∧ w.deleted = []
  · unfold deedsOf Work.run
    rw [hidle.1, hidle.2]
    exact h
  · have hforgot : ((w.deleted.foldl forget w.start).store.file p).From
        (if w.deleted.any (· == p) then none else x) := by
      rw [file_foldl_forget]
      split
      · exact .empty
      · exact h
    have hlinted := from_foldl_lintFile hcap w.toLint hforgot
    unfold deedsOf Work.run
    rw [pass_eq cap d w.start hidle, publish_eq, lastReport_append, lastReport_forgot]
    exact hlinted.withOthers _ _

/-! ## Runs -/

theorem Prepared.from {Q : Path → Prop} {b : Analyzer σ} {due : List Path}
    (h : Prepared Q a b due) (hfrom : (a.store.file p).From x) : (b.store.file p).From x := by
  induction h with
  | start => exact hfrom
  | rest _ _ _ _ ih => exact ih
  | @text b _ _ q _ text ih =>
    change ((b.store.updateText q text).file p).From x
    rw [Store.file_updateText]
    split
    · exact ih.setText text
    · exact ih

theorem Asked.from {Q : Path → Prop} {w : Work σ} (h : Asked Q a w)
    (hfrom : (a.store.file p).From x) : (w.start.store.file p).From x := by
  cases h with
  | work h _ _ => exact h.from hfrom
  | relint settings => exact hfrom.dropFindings

/-- After every run, however the parser and the linter were disturbed, what is stored about a file
comes from one text: that of the last report on the file that was noted since the file was last
forgotten. What the file contributes and where it calls built-in functions is that of the module of
this text, its findings are those of that report or were dropped, and if a module is stored, it is
the module of this text, and this is the text of the file. Without such a report nothing is
stored. -/
theorem results_come_from_one_text (hcap : cap.Faithful) (host : σ) (run : List (Disk × Event))
    (p : Path) :
    let s := ((fresh host).after cap run).store
    match lastReport p ((fresh host).deeds cap run) with
    | none =>
      s.modules.get? p = none ∧ s.fileFindings.get? p = none ∧ s.calls.get? p = none ∧
        s.contributions.get? p = none
    | some (text, settings) => ∃ m, Rego.parse text = .ok m ∧
      s.contributions.get? p = some (.ofModule m) ∧ s.calls.get? p = some (.ofModule m) ∧
      (s.fileFindings.get? p = none ∨
        s.fileFindings.get? p = some (Report.of FileRule.standard m text settings).diagnostics) ∧
      ∀ m', s.modules.get? p = some m' → s.documents.get? p = some text ∧ m' = m := by
  have hall : (((fresh host).after cap run).store.file p).From
      (((fresh host).asks cap run).foldl (fun x y => lastReport p (deedsOf cap y.2) x) none) ∧
      Within (fun _ => True) ((fresh host).after cap run) :=
    asks_invariant (I := fun x a => (a.store.file p).From x)
      (fun d _ _ w _ hx hask => from_run hcap d w (hask.from hx)) (fun _ _ _ _ => trivial)
      ⟨fun _ _ => trivial, fun _ _ => trivial⟩ (fun _ _ _ _ => trivial) FileRecord.From.empty
  have hfrom : (((fresh host).after cap run).store.file p).From
      (lastReport p ((fresh host).deeds cap run)) := by
    unfold deeds lastReport
    rw [List.foldl_flatMap]
    exact hall.1
  intro s
  cases hlast : lastReport p ((fresh host).deeds cap run) with
  | none =>
    rw [hlast] at hfrom
    exact hfrom
  | some x =>
    rw [hlast] at hfrom
    exact hfrom

/-- A file gets a third text while its second one is linted: what is stored is still that of the
first, and the module is gone. -/
theorem results_outlive_a_text_that_was_overtaken :
    let uri : Uri := { scheme? := some "file", authority? := some "", path := "/ws/a.rego" }
    let host : Disturbances := { edits := [
      ⟨.lint, ⟨"/ws/a.rego"⟩, "package a"⟩, ⟨.lint, ⟨"/ws/a.rego"⟩, "package c"⟩] }
    let run : List (Disk × Event) :=
      [({}, .opened uri "package a"), ({}, .edited uri "package b")]
    let s := ((fresh host).after (.disturbed Category.all) run).store
    s.documents.get? ⟨"/ws/a.rego"⟩ = some "package c" ∧
      s.modules.get? ⟨"/ws/a.rego"⟩ = none ∧
      ∃ m, Rego.parse "package a" = .ok m ∧
        s.contributions.get? ⟨"/ws/a.rego"⟩ = some (.ofModule m) ∧
        s.calls.get? ⟨"/ws/a.rego"⟩ = some (.ofModule m) := by
  intro uri host run
  dsimp only
  have hlast : lastReport ⟨"/ws/a.rego"⟩ ((fresh host).deeds (.disturbed Category.all) run) =
      some ("package a", {}) := by decide +kernel
  have hdoc : ((fresh host).after (.disturbed Category.all) run).store.documents.get?
      ⟨"/ws/a.rego"⟩ = some "package c" := by decide +kernel
  have hone := results_come_from_one_text (Capabilities.faithful_disturbed Category.all) host run
    ⟨"/ws/a.rego"⟩
  rw [hlast] at hone
  obtain ⟨m, hp, hk, hc, -, hm⟩ := hone
  refine ⟨hdoc, ?_, m, hp, hk, hc⟩
  -- a stored module would be that of the text of the file, which is another text
  apply Option.eq_none_iff_forall_ne_some.2
  intro m' hm'
  obtain ⟨htext, -⟩ := hm m' hm'
  rw [hdoc] at htext
  revert htext
  decide

end Analyzer

end PolicyLint
