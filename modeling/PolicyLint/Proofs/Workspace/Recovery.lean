import PolicyLint.Proofs.Workspace.BatchOrder
import PolicyLint.Proofs.Workspace.Scan
import PolicyLint.Proofs.Workspace.Versions
/-!
# Recovery from failures of the linter

A linter that fails leaves the record of a file as it is. When it works again and the text of the
file is delivered once more, the file is linted only if it is in need of it, which is judged from the
module and the parse errors alone. Two histories deceive that judgement: a text that did not parse is
replaced by one that does while the linter is down, and the old parse errors stay; and findings are
dropped while the linter is down, and the module stays. In all other cases the file recovers
(`redelivery_recovers_iff`).

The invariant is that a stored module is never alone: what is stored beside it belongs to it, and
findings are at most missing (`Consistent`).
-/

namespace PolicyLint

variable {σ : Type}

/-- The standard capabilities, with a linter that counts its calls and fails on some of them. -/
def Capabilities.failingOn (fails : Nat → Bool) : Capabilities Nat where
  parse host _ text := { value := Rego.parse text, host }
  lint host _ m text s :=
    { value :=
        if fails host then .error (Disturbances.failure "lint")
        else .ok (.of FileRule.standard m text s)
      host := host + 1 }
  categories := Category.all
  evaluate host c state := (.ok (c.evaluate state), host)

theorem Capabilities.faithful_failingOn (fails : Nat → Bool) : (failingOn fails).Faithful := by
  constructor
  · intro host p text
    rfl
  · intro host p m text s report h
    exact eq_of_ite_error_eq_ok h

theorem Capabilities.quiet_failingOn (fails : Nat → Bool) : (failingOn fails).Quiet :=
  ⟨fun _ _ _ => rfl, fun _ _ _ _ _ => rfl⟩

theorem Capabilities.neverFails_failingOn : (failingOn fun _ => false).NeverFails :=
  fun _ _ _ _ _ => rfl

namespace FileRecord

/-- A stored module is that of the text. Nothing is wrong with the text then, the calls and the
contributions are those of the module, and the findings are those under the given settings, unless
they are missing. -/
def Consistent (s : Settings) (r : FileRecord) : Prop :=
  ∀ m, r.module? = some m → ∃ text, r.text? = some text ∧ Rego.parse text = .ok m ∧
    r.parseErrors? = some [] ∧ r.calls? = some (.ofModule m) ∧
    r.contributed? = some (.ofModule m) ∧
    (r.findings? = none ∨ r.findings? = some (Report.of FileRule.standard m text s).diagnostics)

/-- All results of a text that parses are stored. -/
structure Complete (s : Settings) (text : String) (m : Rego.Module) (r : FileRecord) : Prop where
  module : r.module? = some m
  parseErrors : r.parseErrors? = some []
  findings : r.findings? = some (Report.of FileRule.standard m text s).diagnostics
  calls : r.calls? = some (.ofModule m)
  contributed : r.contributed? = some (.ofModule m)

variable {s : Settings} {r : FileRecord} {text : String} {m : Rego.Module}

theorem consistent_of_no_module (h : r.module? = none) : Consistent s r := by
  intro m hm
  rw [h] at hm
  cases hm

theorem Consistent.setText (h : r.Consistent s) (text : String) :
    (r.setText text).Consistent s := by
  unfold FileRecord.setText
  split
  · exact h
  · exact consistent_of_no_module rfl

theorem consistent_note (ht : r.text? = some text) (hp : Rego.parse text = .ok m) :
    (r.note s text m).Consistent s := by
  intro m' hm'
  cases hm'
  exact ⟨text, ht, hp, rfl, rfl, rfl, Or.inr rfl⟩

theorem Consistent.lint (h : r.Consistent s) : (r.lint s).Consistent s := by
  cases ht : r.text? with
  | none =>
    rw [FileRecord.lint, ht]
    exact h
  | some text =>
    cases hm : r.module? with
    | some m =>
      obtain ⟨text', ht', hp, -⟩ := h m hm
      rw [ht] at ht'
      cases ht'
      rw [FileRecord.lint, ht, hm]
      exact consistent_note ht hp
    | none =>
      cases hp : Rego.parse text with
      | ok m =>
        simp only [FileRecord.lint, ht, hm, hp]
        exact consistent_note ht hp
      | error errors =>
        simp only [FileRecord.lint, ht, hm, hp]
        exact consistent_of_no_module rfl

theorem Consistent.dropFindings (h : r.Consistent s) (s' : Settings) :
    Consistent s' { r with findings? := none, crossFindings? := none } := by
  intro m hm
  obtain ⟨text, ht, hp, he, hc, hk, -⟩ := h m hm
  exact ⟨text, ht, hp, he, hc, hk, Or.inl rfl⟩

theorem Consistent.withCrossFindings (h : r.Consistent s)
    (crossFindings? : Option (List Diagnostic)) : Consistent s { r with crossFindings? } := h

theorem complete_withCrossFindings {crossFindings? : Option (List Diagnostic)} :
    Complete s text m { r with crossFindings? } ↔ r.Complete s text m :=
  ⟨fun ⟨hm, he, hf, hc, hk⟩ => ⟨hm, he, hf, hc, hk⟩,
    fun ⟨hm, he, hf, hc, hk⟩ => ⟨hm, he, hf, hc, hk⟩⟩

theorem complete_note : (r.note s text m).Complete s text m :=
  ⟨rfl, rfl, rfl, rfl, rfl⟩

/-- A record with a text that parses, linted if it is in need of that, has all results of the text
unless it was deceived: by parse errors of another text, or by a module without findings. -/
theorem Consistent.complete_iff (h : r.Consistent s) (ht : r.text? = some text)
    (hp : Rego.parse text = .ok m) :
    (if r.needsLint then r.lint s else r).Complete s text m ↔
      (r.module?.isSome = true → r.findings?.isSome = true) ∧
      (r.module?.isSome = false → r.parseErrors?.getD [] = []) := by
  cases hm : r.module? with
  | some m' =>
    obtain ⟨text', ht', hp', he, hc, hk, hf⟩ := h m' hm
    rw [ht] at ht'
    cases ht'
    rw [hp] at hp'
    cases hp'
    have hneeds : r.needsLint = false := by
      rw [needsLint, hm]
      rfl
    rw [hneeds]
    constructor
    · intro hcomplete
      refine ⟨fun _ => ?_, fun hnone => absurd hnone Bool.true_eq_false.mp⟩
      have hfindings := hcomplete.findings
      change r.findings? = _ at hfindings
      rw [hfindings]
      rfl
    · rintro ⟨hsome, -⟩
      refine ⟨hm, he, ?_, hc, hk⟩
      rcases hf with hf | hf
      · have hmissing := hsome rfl
        rw [hf] at hmissing
        cases hmissing
      · exact hf
  | none =>
    by_cases he : r.parseErrors?.getD [] = []
    · have hneeds : r.needsLint = true := by
        rw [needsLint, hm, he]
        rfl
      rw [hneeds, if_pos rfl]
      simp only [FileRecord.lint, ht, hm, hp]
      constructor
      · intro _
        exact ⟨fun hsome => absurd hsome Bool.false_ne_true, fun _ => he⟩
      · intro _
        exact complete_note
    · have hneeds : r.needsLint = false := by
        rw [needsLint, hm]
        cases hl : r.parseErrors?.getD [] with
        | nil => exact absurd hl he
        | cons x xs => rfl
      rw [hneeds]
      constructor
      · intro hcomplete
        have hmodule := hcomplete.module
        change r.module? = some m at hmodule
        rw [hm] at hmodule
        cases hmodule
      · rintro ⟨-, hempty⟩
        exact absurd (hempty rfl) he

end FileRecord

namespace Analyzer

open FileRecord

variable {cap : Capabilities σ} {a b : Analyzer σ} {d : Disk} {p q : Path} {text : String}

/-! ## Linting with a linter that may fail -/

theorem consistent_lintFile (hcap : cap.Faithful) (hquiet : cap.Quiet) (q : Path)
    (h : (a.store.file p).Consistent a.settings) :
    ((a.lintFile cap q).store.file p).Consistent (a.lintFile cap q).settings := by
  rw [(sameBut_lintFile cap a q).settings]
  by_cases hqp : (q == p) = true
  · rw [← Store.file_congr _ hqp] at h ⊢
    rcases file_lintFile_or hcap hquiet a q with hf | ⟨hf, -⟩
    · rw [hf]
      exact h.lint
    · rw [hf]
      exact h
  · rw [(sameBut_lintFile cap a q).file p (Bool.eq_false_iff.2 hqp)]
    exact h

/-! ## Runs -/

theorem consistent_foldl_lintFile (hcap : cap.Faithful) (hquiet : cap.Quiet) (ps : List Path)
    (h : (a.store.file p).Consistent a.settings) :
    ((ps.foldl (lintFile cap) a).store.file p).Consistent
      (ps.foldl (lintFile cap) a).settings := by
  induction ps generalizing a with
  | nil => exact h
  | cons q ps ih => exact ih (consistent_lintFile hcap hquiet q h)

/-- A pass keeps every record consistent. -/
theorem consistent_run (hcap : cap.Faithful) (hquiet : cap.Quiet) (d : Disk) (w : Work σ)
    (h : (w.start.store.file p).Consistent w.start.settings) :
    ((w.run cap d).2.store.file p).Consistent (w.run cap d).2.settings := by
  by_cases hidle : w.toLint = [] ∧ w.deleted = []
  · unfold Work.run
    rw [hidle.1, hidle.2]
    exact h
  · have hforgot : ((w.deleted.foldl forget w.start).store.file p).Consistent
        (w.deleted.foldl forget w.start).settings := by
      rw [file_foldl_forget, settings_foldl_forget]
      split
      · exact consistent_of_no_module rfl
      · exact h
    have hlinted := consistent_foldl_lintFile hcap hquiet w.toLint hforgot
    unfold Work.run
    rw [pass_eq cap d w.start hidle, publish_eq]
    exact hlinted.withCrossFindings _

theorem Prepared.consistent {Q : Path → Prop} {due : List Path} (h : Prepared Q a b due)
    (ha : (a.store.file p).Consistent a.settings) : (b.store.file p).Consistent b.settings := by
  induction h with
  | start => exact ha
  | rest _ _ _ _ ih => exact ih
  | @text b _ _ q _ text ih =>
    change ((b.store.updateText q text).file p).Consistent b.settings
    rw [Store.file_updateText]
    split
    · exact ih.setText text
    · exact ih

theorem Asked.consistent {Q : Path → Prop} {w : Work σ} (h : Asked Q a w)
    (ha : (a.store.file p).Consistent a.settings) :
    (w.start.store.file p).Consistent w.start.settings := by
  cases h with
  | work h _ _ => exact h.consistent ha
  | relint settings => exact FileRecord.Consistent.dropFindings ha settings

/-- After every run, whatever the linter failed on, every record is consistent. -/
theorem consistent_after (hcap : cap.Faithful) (hquiet : cap.Quiet) (host : σ)
    (run : List (Disk × Event)) (p : Path) :
    (((fresh host).after cap run).store.file p).Consistent
      ((fresh host).after cap run).settings :=
  (asks_invariant (f := fun (_ : Unit) _ => ()) (g := ())
    (I := fun _ a => (a.store.file p).Consistent a.settings)
    (fun d _ _ w _ ha hask => consistent_run hcap hquiet d w (hask.consistent ha))
    (fun _ _ _ _ => trivial) (Q := fun _ => True) ⟨fun _ _ => trivial, fun _ _ => trivial⟩
    (fun _ _ _ _ => trivial) (consistent_of_no_module rfl)).1

/-! ## Delivering a text again -/

theorem isDue_eq (h : (a.store.file p).text? = some text) (hqp : (q == p) = true) :
    a.isDue q text = (a.store.file p).needsLint := by
  have hq : (a.store.file q).text? = some text := by
    rw [Store.file_congr _ hqp]
    exact h
  have hsame : a.withText q text = a := by
    unfold withText
    rw [Store.updateText, if_pos (Store.holds_iff.2 hq)]
  have hneeds : a.needsLint q = (a.store.file q).needsLint := by
    change (!(a.store.modules.get? q).isSome && _) = ((a.store.modules.get? q).isNone && _)
    rw [Option.not_isSome]
    rfl
  rw [isDue, Store.holds_iff.2 hq, hsame, hneeds, Store.file_congr _ hqp]
  rfl

/-- A work delivers a text of a file again: it leaves the record of the file as it is, keeps the
file, and lints it if it is in need of that. -/
structure Offers (p : Path) (a : Analyzer σ) (w : Work σ) : Prop where
  file : w.start.store.file p = a.store.file p
  settings : w.start.settings = a.settings
  kept : w.deleted.any (· == p) = false
  due : w.toLint.any (· == p) = (a.store.file p).needsLint

/-- With a linter that works again, a file to which its text is delivered is linted if it is in need
of that; nothing else is done to its record. -/
theorem Offers.run (hcap : cap.Faithful) (hquiet : cap.Quiet) (hnever : cap.NeverFails)
    {w : Work σ} (h : Offers p a w) :
    ∃ crossFindings?, (w.run cap d).2.store.file p =
      { (if (a.store.file p).needsLint then (a.store.file p).lint a.settings
          else a.store.file p) with crossFindings? } := by
  refine ⟨((w.run cap d).2.store.file p).crossFindings?, ?_⟩
  by_cases hidle : w.toLint = [] ∧ w.deleted = []
  · have hneeds : (a.store.file p).needsLint = false := by
      rw [← h.due, hidle.1]
      rfl
    unfold Work.run
    rw [hidle.1, hidle.2, hneeds, pass_nil, h.file]
    rfl
  · have hlinted := file_foldl_lintFile hcap hquiet hnever w.toLint
      (w.deleted.foldl forget w.start) p
    rw [file_foldl_forget, settings_foldl_forget, h.kept, h.due, if_neg Bool.false_ne_true,
      h.file, h.settings] at hlinted
    unfold Work.run
    rw [pass_eq cap d w.start hidle, publish_eq, ← hlinted]
    rfl

theorem offers_giveText (hstore : b.store = a.store) (hsettings : b.settings = a.settings)
    (h : (a.store.file p).text? = some text) (hqp : (q == p) = true) :
    Offers p a (b.giveText q text) := by
  rw [← hstore] at h
  have hq : (b.store.file q).text? = some text := by
    rw [Store.file_congr _ hqp]
    exact h
  have hsame : (b.withText q text).store = b.store := by
    change b.store.updateText q text = b.store
    rw [Store.updateText, if_pos (Store.holds_iff.2 hq)]
  refine ⟨?_, hsettings, rfl, ?_⟩
  · change (b.withText q text).store.file p = _
    rw [hsame, hstore]
  · change (if b.isDue q text then [q] else []).any (· == p) = _
    rw [isDue_eq h hqp, hstore]
    cases (a.store.file p).needsLint with
    | true => simpa using hqp
    | false => rfl

/-- An event by which the editor gives a file the text that it has. -/
theorem offers_of_text? {e : Event} (he : e.text? d p = some text)
    (h : (a.store.file p).text? = some text) : Offers p a (a.work d e) := by
  obtain ⟨b, q, hwork, hstore, hsettings, hqp⟩ := work_of_text? he
  rw [hwork]
  exact offers_giveText hstore hsettings h hqp

/-- A batch has done no more about a file than to deliver the text that it has, if `offered`. -/
structure Offering (p : Path) (a : Analyzer σ) (offered : Prop) (b : Batch σ) : Prop where
  file : b.analyzer.store.file p = a.store.file p
  settings : b.analyzer.settings = a.settings
  openFiles : b.analyzer.openFiles = a.openFiles
  kept : b.deleted.any (· == p) = false
  due : b.toLint.any (· == p) = true ↔ (a.store.file p).needsLint = true ∧ offered

variable {offered : Prop}

theorem offering_start (p : Path) (a : Analyzer σ) : Offering p a False { analyzer := a } :=
  ⟨rfl, rfl, rfl, rfl, by simp⟩

theorem Offering.congr {more : Prop} {b : Batch σ} (h : Offering p a offered b)
    (hsame : more ↔ offered) : Offering p a more b :=
  ⟨h.file, h.settings, h.openFiles, h.kept, by rw [h.due, hsame]⟩

/-- A file is read from the disk: the file itself, with the text that it has, or another one. -/
theorem Offering.read {b : Batch σ} (h : Offering p a offered b)
    (ht : (a.store.file p).text? = some text) {t : String} (htext : (q == p) = true → t = text) :
    Offering p a (offered ∨ (q == p) = true)
      { b with
        analyzer := b.analyzer.withText q t
        toLint := if b.analyzer.isDue q t then b.toLint ++ [q] else b.toLint } := by
  have hfile : (b.analyzer.withText q t).store.file p = a.store.file p := by
    refine (Store.file_updateText ..).trans ?_
    rw [h.file]
    split
    · next hqp => rw [FileRecord.setText, htext hqp, if_pos ht]
    · rfl
  refine ⟨hfile, h.settings, h.openFiles, h.kept, ?_⟩
  dsimp only
  by_cases hqp : (q == p) = true
  · rw [← h.file] at ht
    rw [htext hqp, isDue_eq ht hqp, h.file]
    cases hneeds : (a.store.file p).needsLint with
    | true => simp [hqp]
    | false =>
      have hnot : b.toLint.any (· == p) = false := by
        rw [Bool.eq_false_iff]
        intro hany
        have hdue := (h.due.1 hany).1
        rw [hneeds] at hdue
        cases hdue
      simp [hnot]
  · have hsame : (if b.analyzer.isDue q t then b.toLint ++ [q] else b.toLint).any (· == p) =
        b.toLint.any (· == p) := by
      split
      · rw [List.any_append, List.any_cons, Bool.eq_false_iff.2 hqp]
        exact Bool.or_false _
      · rfl
    rw [hsame, h.due]
    simp [hqp]

theorem Offering.scan {b : Batch σ} (h : Offering p a offered b)
    (ht : (a.store.file p).text? = some text) (hclosed : a.openFiles.contains p = false)
    (hread : d.readText p = .ok text) (hspelled : (q == p) = true → q = p) :
    Offering p a (offered ∨ (q == p) = true) (b.scan d q) := by
  rw [scan_eq]
  by_cases hopen : b.analyzer.openFiles.contains q = true
  · rw [if_pos hopen]
    refine h.congr (or_iff_left fun hqp => ?_)
    rw [h.openFiles, PathMap.contains_congr _ hqp, hclosed] at hopen
    cases hopen
  · rw [if_neg hopen]
    cases hr : d.readText q with
    | error fault =>
      refine h.congr (or_iff_left fun hqp => ?_)
      rw [hspelled hqp, hread] at hr
      cases hr
    | ok t =>
      refine h.read ht fun hqp => ?_
      rw [hspelled hqp, hread] at hr
      exact (Except.ok.inj hr).symm

theorem Offering.foldl_scan {files : List Path} {b : Batch σ} (h : Offering p a offered b)
    (ht : (a.store.file p).text? = some text) (hclosed : a.openFiles.contains p = false)
    (hread : d.readText p = .ok text) (hspelled : ∀ q ∈ files, (q == p) = true → q = p) :
    Offering p a (offered ∨ ∃ q ∈ files, (q == p) = true) (files.foldl (Batch.scan d) b) := by
  induction files generalizing b offered with
  | nil => exact h.congr (by simp)
  | cons q files ih =>
    have hstep := h.scan ht hclosed hread (hspelled q (List.mem_cons_self ..))
    have hrest := ih hstep fun r hr => hspelled r (List.mem_cons_of_mem _ hr)
    refine hrest.congr ?_
    simp only [List.mem_cons, exists_eq_or_imp, or_assoc]

/-- A scan that finds a file with the text that it has. -/
theorem offers_scanWork (ht : (a.store.file p).text? = some text) (hp : p ∈ a.listed d)
    (hclosed : a.openFiles.contains p = false) (hread : d.readText p = .ok text) :
    Offers p a (a.scanWork d) := by
  have hplain : ∀ q ∈ a.listed d, q.isPlain = true := fun q hq => Discovery.isPlain_discover hq
  have hstart : Offering p a False { analyzer := a.discovered d } := ⟨rfl, rfl, rfl, rfl, by simp⟩
  have hfold : Offering p a (False ∨ ∃ q ∈ a.listed d, (q == p) = true)
      ((a.listed d).foldl (Batch.scan d) { analyzer := a.discovered d }) :=
    hstart.foldl_scan ht hclosed hread fun q hq hqp =>
      Path.eq_of_isPlain (hplain q hq) (hplain p hp) hqp
  refine ⟨hfold.file, hfold.settings, any_stale_of_listed hp, ?_⟩
  rw [Bool.eq_iff_iff]
  exact hfold.due.trans (and_iff_left (Or.inr ⟨p, hp, BEq.rfl⟩))

theorem Offering.load {b : Batch σ} (h : Offering p a offered b)
    (ht : (a.store.file p).text? = some text) (hreadable : Readable d a.openFiles p text)
    {uri : Uri} (hq : d.pathOfUri uri = .ok q) :
    Offering p a (offered ∨ q = p) (b.load d q) := by
  unfold Batch.load
  rw [h.openFiles]
  split
  · next hskip =>
    refine h.congr (or_iff_left fun hqp => ?_)
    rw [hqp, hreadable.policy, hreadable.closed] at hskip
    exact Bool.false_ne_true hskip
  · rw [reload_eq]
    cases hr : d.readText q with
    | error fault =>
      refine h.congr (or_iff_left fun hqp => ?_)
      rw [hqp, hreadable.read] at hr
      cases hr
    | ok t =>
      -- both names are plain, so they are the same file only if they are the same name
      have hsame : (q == p) = true ↔ q = p := by
        obtain ⟨x, -, hx⟩ := Disk.pathOfUri_eq_ok_iff.1 hq
        refine ⟨Path.eq_of_isPlain (Disk.isPlain_of_readText hx hr) hreadable.plain, fun he => ?_⟩
        rw [he]
        exact BEq.rfl
      have hgiven := h.read ht (t := t) fun hqp => by
        rw [hsame.1 hqp, hreadable.read] at hr
        exact (Except.ok.inj hr).symm
      have hdue := (hgiven.congr (or_congr_right hsame.symm)).due
      exact ⟨hgiven.file, hgiven.settings, hgiven.openFiles, hgiven.kept, hdue⟩

theorem Offering.delete {b : Batch σ} (h : Offering p a offered b)
    (hclosed : a.openFiles.contains p = false) (hp : p.isWithin q = false) :
    Offering p a offered (b.delete q) := by
  refine ⟨h.file, h.settings, h.openFiles, ?_, h.due⟩
  rw [Bool.eq_false_iff, Ne, any_delete q (by rw [h.openFiles, hclosed]), h.kept, hp]
  simp

/-- A change that does not cover a file that can be read delivers its text, or is about another
file. -/
theorem Offering.add {b : Batch σ} (h : Offering p a offered b)
    (ht : (a.store.file p).text? = some text) (hreadable : Readable d a.openFiles p text)
    {c : Uri × Change} (hc : ¬Covers d p c) :
    Offering p a (offered ∨ Loads d p c) (b.add d c) := by
  unfold Batch.add
  cases hq : d.pathOfUri c.1 with
  | error e => exact h.congr (or_iff_left (by simp [Loads, hq]))
  | ok q =>
    dsimp only
    by_cases hext : q.extension?.isSome = true → q.isPolicy = true
    · rw [looked_at_iff.2 hext]
      have hloads := loads_iff (p := p) hq
      cases hkind : c.2 with
      | created =>
        rw [hkind] at hloads
        exact (h.load ht hreadable hq).congr (or_congr_right (hloads.trans (by simp)))
      | changed =>
        rw [hkind] at hloads
        exact (h.load ht hreadable hq).congr (or_congr_right (hloads.trans (by simp)))
      | deleted =>
        rw [hkind] at hloads
        have hnot : ¬Loads d p c := fun hl => by simpa using hloads.1 hl
        have hapart : p.isWithin q = false := by
          rw [Bool.eq_false_iff]
          exact fun hp => hc ((covers_iff hq).2 ⟨hkind, hext, hp⟩)
        exact (h.delete hreadable.closed hapart).congr (or_iff_left hnot)
      | other =>
        rw [hkind] at hloads
        exact h.congr (or_iff_left fun hl => by simpa using hloads.1 hl)
    · rw [passed_over_iff.2 hext]
      refine h.congr (or_iff_left fun hl => hext fun _ => ?_)
      rw [((loads_iff hq).1 hl).2]
      exact hreadable.policy

theorem Offering.foldl_add {changes : List (Uri × Change)} {b : Batch σ}
    (h : Offering p a offered b) (ht : (a.store.file p).text? = some text)
    (hreadable : Readable d a.openFiles p text) (hc : ∀ c ∈ changes, ¬Covers d p c) :
    Offering p a (offered ∨ ∃ c ∈ changes, Loads d p c) (changes.foldl (Batch.add d) b) := by
  induction changes generalizing b offered with
  | nil => exact h.congr (by simp)
  | cons c changes ih =>
    have hstep := h.add ht hreadable (hc c (List.mem_cons_self ..))
    have hrest := ih hstep fun x hx => hc x (List.mem_cons_of_mem _ hx)
    refine hrest.congr ?_
    simp only [List.mem_cons, exists_eq_or_imp, or_assoc]

/-- A batch of changes that reads a file, with the text that it has, and deletes nothing above it. -/
theorem offers_filesWork {changes : List (Uri × Change)} (ht : (a.store.file p).text? = some text)
    (hreadable : Readable d a.openFiles p text) (hloads : ∃ c ∈ changes, Loads d p c)
    (hc : ∀ c ∈ changes, ¬Covers d p c) : Offers p a (a.filesWork d changes) := by
  have hfold := (offering_start p a).foldl_add ht hreadable hc
  refine ⟨hfold.file, hfold.settings, ?_, ?_⟩
  · change (PathSet.ofList (a.batch d changes).deleted).keys.any (· == p) = false
    rw [← PathMap.contains_eq_any, PathSet.contains_ofList]
    exact hfold.kept
  · rw [Bool.eq_iff_iff]
    exact hfold.due.trans (and_iff_left (Or.inr hloads))

/-! ## Recovery -/

/-- An event delivers a text of a file: the editor gives it, or it is read from the disk. -/
def Delivers (d : Disk) (a : Analyzer σ) (p : Path) (text : String) : Event → Prop
  | .scan => p ∈ a.listed d ∧ a.openFiles.contains p = false ∧ d.readText p = .ok text
  | .filesChanged changes =>
    p.isPolicy = true ∧ a.openFiles.contains p = false ∧ d.readText p = .ok text ∧
      (∃ c ∈ changes, Loads d p c) ∧ ∀ c ∈ changes, ¬Covers d p c
  | e => e.text? d p = some text

theorem Delivers.offers {e : Event} (he : Delivers d a p text e)
    (ht : (a.store.file p).text? = some text) :
    Offers p a (a.work d e) ∧ ∀ added removed, e ≠ .foldersChanged added removed := by
  cases e with
  | scan =>
    obtain ⟨hp, hclosed, hread⟩ := he
    exact ⟨offers_scanWork ht hp hclosed hread, by simp⟩
  | filesChanged changes =>
    obtain ⟨hpolicy, hclosed, hread, ⟨c, hc, hloads⟩, hkept⟩ := he
    have hplain : p.isPlain = true := by
      obtain ⟨x, -, hx⟩ := Disk.pathOfUri_eq_ok_iff.1 hloads.2
      exact Disk.isPlain_of_readText hx hread
    exact ⟨offers_filesWork ht ⟨hpolicy, hclosed, hplain, hread⟩ ⟨c, hc, hloads⟩ hkept, by simp⟩
  | opened uri t => exact ⟨offers_of_text? he ht, by simp⟩
  | edited uri t => exact ⟨offers_of_text? he ht, by simp⟩
  | saved uri t? => exact ⟨offers_of_text? he ht, by simp⟩
  | _ => cases he

/-- After a run in which the linter may have failed on any calls, the text of a file parses. Then the
linter works again, and an event delivers this text once more. After the event all results of the
file are those of its text under the current settings, if and only if before it the file had neither
a module without findings nor parse errors without a module. -/
theorem redelivery_recovers_iff {cap working : Capabilities σ} (hcap : cap.Faithful)
    (hquiet : cap.Quiet) (hworking : working.Faithful) (hquiet' : working.Quiet)
    (hnever : working.NeverFails) (host : σ) (run : List (Disk × Event)) (d : Disk) (e : Event)
    (p : Path) (text : String) (m : Rego.Module)
    (htext : ((fresh host).after cap run).store.documents.get? p = some text)
    (hparse : Rego.parse text = .ok m)
    (he : Delivers d ((fresh host).after cap run) p text e) :
    let a := (fresh host).after cap run
    ((a.handle working d e).2.store.file p).Complete a.settings text m ↔
      (a.store.modules.contains p = true → a.store.fileFindings.contains p = true) ∧
      (a.store.modules.contains p = false → (a.store.parseErrors.get? p).getD [] = []) := by
  intro a
  have ht : (a.store.file p).text? = some text := htext
  have hconsistent : (a.store.file p).Consistent a.settings :=
    consistent_after hcap hquiet host run p
  obtain ⟨hoffers, hsingle⟩ := he.offers ht
  obtain ⟨crossFindings?, hfile⟩ := hoffers.run (d := d) hworking hquiet' hnever
  rw [handle_eq_run a hsingle, hfile, complete_withCrossFindings]
  exact hconsistent.complete_iff ht hparse

/-- The linter works once and is down from then on. One file is broken in the editor and mended, one
is opened, and one that was linted before loses its findings when the settings change. When the
linter works again and each text is delivered once more, only the second file recovers. -/
theorem stale_parse_errors_and_missing_findings :
    let uri (path : String) : Uri := { scheme? := some "file", authority? := some "", path }
    let run : List (Disk × Event) := [
      ({}, .opened (uri "/ws/c.rego") "package c"), ({}, .opened (uri "/ws/a.rego") "package"),
      ({}, .edited (uri "/ws/a.rego") "package a"), ({}, .opened (uri "/ws/b.rego") "package b"),
      ({}, .configure { maxLineLength := 80 })]
    let a := (fresh 0).after (.failingOn (1 ≤ ·)) run
    let again (path text : String) : Store :=
      (a.handle (.failingOn fun _ => false) {} (.edited (uri path) text)).2.store
    ∃ m₁ m₂ m₃,
      ¬((again "/ws/a.rego" "package a").file ⟨"/ws/a.rego"⟩).Complete a.settings "package a" m₁ ∧
      ((again "/ws/b.rego" "package b").file ⟨"/ws/b.rego"⟩).Complete a.settings "package b" m₂ ∧
      ¬((again "/ws/c.rego" "package c").file ⟨"/ws/c.rego"⟩).Complete a.settings "package c" m₃ := by
  intro uri run a again
  have hparsed : ∀ text, (Rego.parse text).isOk = true → ∃ m, Rego.parse text = .ok m := by
    intro text hok
    cases hp : Rego.parse text with
    | ok m => exact ⟨m, rfl⟩
    | error errors =>
      rw [hp] at hok
      cases hok
  have hrecovers : ∀ path text m, a.store.documents.get? ⟨path⟩ = some text →
      Rego.parse text = .ok m →
      (Event.edited (uri path) text).text? {} ⟨path⟩ = some text →
      (((again path text).file ⟨path⟩).Complete a.settings text m ↔
        (a.store.modules.contains ⟨path⟩ = true → a.store.fileFindings.contains ⟨path⟩ = true) ∧
        (a.store.modules.contains ⟨path⟩ = false →
          (a.store.parseErrors.get? ⟨path⟩).getD [] = [])) := by
    intro path text m htext hparse hdelivers
    exact redelivery_recovers_iff (Capabilities.faithful_failingOn _)
      (Capabilities.quiet_failingOn _) (Capabilities.faithful_failingOn _)
      (Capabilities.quiet_failingOn _) Capabilities.neverFails_failingOn 0 run {} _ ⟨path⟩ text m
      htext hparse hdelivers
  obtain ⟨m₁, hm₁⟩ := hparsed "package a" (by decide +kernel)
  obtain ⟨m₂, hm₂⟩ := hparsed "package b" (by decide +kernel)
  obtain ⟨m₃, hm₃⟩ := hparsed "package c" (by decide +kernel)
  have hstored : a.store.documents.get? ⟨"/ws/a.rego"⟩ = some "package a" ∧
      a.store.documents.get? ⟨"/ws/b.rego"⟩ = some "package b" ∧
      a.store.documents.get? ⟨"/ws/c.rego"⟩ = some "package c" ∧
      a.store.modules.contains ⟨"/ws/a.rego"⟩ = false ∧
      ((a.store.parseErrors.get? ⟨"/ws/a.rego"⟩).getD []).isEmpty = false ∧
      a.store.modules.contains ⟨"/ws/b.rego"⟩ = false ∧
      ((a.store.parseErrors.get? ⟨"/ws/b.rego"⟩).getD []).isEmpty = true ∧
      a.store.modules.contains ⟨"/ws/c.rego"⟩ = true ∧
      a.store.fileFindings.contains ⟨"/ws/c.rego"⟩ = false := by decide +kernel
  obtain ⟨hta, htb, htc, ha, herrors, hb, hempty, hc, hmissing⟩ := hstored
  refine ⟨m₁, m₂, m₃, ?_, ?_, ?_⟩
  · rw [hrecovers _ _ m₁ hta hm₁ (by decide +kernel)]
    rintro ⟨-, hnone⟩
    rw [hnone ha] at herrors
    cases herrors
  · rw [hrecovers _ _ m₂ htb hm₂ (by decide +kernel), hb]
    exact ⟨fun h => absurd h Bool.false_ne_true, fun _ => List.isEmpty_iff.1 hempty⟩
  · rw [hrecovers _ _ m₃ htc hm₃ (by decide +kernel)]
    rintro ⟨hsome, -⟩
    rw [hsome hc] at hmissing
    cases hmissing

end Analyzer

end PolicyLint
