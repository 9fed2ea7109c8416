import PolicyLint.Workspace.Analyzer
/-!
# The record of one file

Every part of the store is keyed by paths, and every operation but the findings across files looks
at one path. So the store is seen one file at a time: `Store.file s p` is all it holds about `p`,
each operation on the store is an operation on the record of its path, and every other record stays
as it is. Linting with the standard capabilities is `FileRecord.lint`.
-/

namespace PolicyLint

/-- All that a store holds about one file. -/
@[ext] structure FileRecord where
  text? : Option String := none
  module? : Option Rego.Module := none
  parseErrors? : Option (List Diagnostic) := none
  findings? : Option (List Diagnostic) := none
  crossFindings? : Option (List Diagnostic) := none
  calls? : Option Rego.CallIndex := none
  contributed? : Option Contributed := none
deriving DecidableEq, Inhabited

def Contributed.ofModule (m : Rego.Module) : Contributed :=
  { metadata? := some (.ofModule m), imports? := some (.ofModule m) }

theorem Contributed.ofList_ofModule (m : Rego.Module) :
    Contributed.ofList (Category.all.map fun c => Contribution.ofModule c m) = .ofModule m := rfl

namespace FileRecord

def setText (r : FileRecord) (text : String) : FileRecord :=
  if r.text? = some text then r else { r with text? := some text, module? := none }

def note (s : Settings) (text : String) (m : Rego.Module) (r : FileRecord) : FileRecord :=
  { r with
    module? := some m
    parseErrors? := some []
    findings? := some (Report.of FileRule.standard m text s).diagnostics
    calls? := some (.ofModule m)
    contributed? := some (.ofModule m) }

/-- Lints a file from its text: with the module at hand, or else the one that is parsed. -/
def lint (s : Settings) (r : FileRecord) : FileRecord :=
  match r.text?, r.module? with
  | none, _ => r
  | some text, some m => r.note s text m
  | some text, none =>
    match Rego.parse text with
    | .ok m => r.note s text m
    | .error errors => { r with parseErrors? := some (errors.map .ofParseError) }

def needsLint (r : FileRecord) : Bool :=
  r.module?.isNone && (r.parseErrors?.getD []).isEmpty

@[simp] theorem text?_lint (s : Settings) (r : FileRecord) : (r.lint s).text? = r.text? := by
  unfold lint
  split
  · rfl
  · rfl
  · split <;> rfl

theorem lint_lint (s : Settings) (r : FileRecord) : (r.lint s).lint s = r.lint s := by
  match ht : r.text?, hm : r.module? with
  | none, _ => simp [lint, ht]
  | some text, some m => simp [lint, note, ht, hm]
  | some text, none =>
    cases hp : Rego.parse text with
    | ok m => simp [lint, note, ht, hm, hp]
    | error errors => simp [lint, ht, hm, hp]

end FileRecord

namespace Store

def file (s : Store) (p : Path) : FileRecord :=
  { text? := s.documents.get? p
    module? := s.modules.get? p
    parseErrors? := s.parseErrors.get? p
    findings? := s.fileFindings.get? p
    crossFindings? := s.crossFindings.get? p
    calls? := s.calls.get? p
    contributed? := s.contributions.get? p }

theorem file_congr (s : Store) {p q : Path} (h : (p == q) = true) : s.file p = s.file q := by
  simp only [file, PathMap.get?_congr _ h]

theorem holds_iff {s : Store} {p : Path} {text : String} :
    s.holds p text = true ↔ (s.file p).text? = some text := by
  simp [holds, file]

theorem contains_documents {s : Store} {p : Path} :
    s.documents.contains p = (s.file p).text?.isSome := rfl

theorem file_updateText (s : Store) (p : Path) (text : String) (q : Path) :
    (s.updateText p text).file q = if p == q then (s.file q).setText text else s.file q := by
  unfold updateText
  split
  · next h =>
    split
    · next hpq =>
      rw [holds_iff, file_congr s hpq] at h
      rw [FileRecord.setText, if_pos h]
    · rfl
  · next h =>
    cases hpq : p == q with
    | false => simp [file, PathMap.get?_insert, PathMap.get?_erase, hpq]
    | true =>
      rw [holds_iff, file_congr s hpq] at h
      rw [if_pos rfl, FileRecord.setText, if_neg h]
      simp [file, PathMap.get?_insert, PathMap.get?_erase, hpq]

/-- A forgotten file has nothing left, and no other file loses anything. -/
theorem file_delete (s : Store) (p q : Path) :
    (s.delete p).file q = if p == q then {} else s.file q := by
  cases h : p == q <;> simp [delete, file, PathMap.get?_erase, h]

end Store

/-- A parser and a linter that give no file a text while they are at work. -/
structure Capabilities.Quiet {σ : Type} (cap : Capabilities σ) : Prop where
  parse : ∀ host p text, (cap.parse host p text).edits = []
  lint : ∀ host p m text s, (cap.lint host p m text s).edits = []

theorem Capabilities.quiet_standard : standard.Quiet :=
  ⟨fun _ _ _ => rfl, fun _ _ _ _ _ => rfl⟩

/-- A parser that parses, and a linter that fails or reports what the rules find. Nothing is said of
the texts that files are given meanwhile, nor of the evaluators. -/
structure Capabilities.Faithful {σ : Type} (cap : Capabilities σ) : Prop where
  parse : ∀ host p text, (cap.parse host p text).value = Rego.parse text
  lint : ∀ host p m text s report, (cap.lint host p m text s).value = .ok report →
    report = .of FileRule.standard m text s

theorem Capabilities.faithful_standard : standard.Faithful :=
  ⟨fun _ _ _ => rfl, fun _ _ _ _ _ _ h => (Except.ok.inj h).symm⟩

/-- What is either an error or a fixed value, and no error, is that value. -/
theorem eq_of_ite_error_eq_ok {ε α : Type} {c : Prop} [Decidable c] {e : ε} {x y : α}
    (h : (if c then Except.error e else .ok x) = .ok y) : y = x := by
  split at h
  · cases h
  · exact (Except.ok.inj h).symm

def Capabilities.NeverFails {σ : Type} (cap : Capabilities σ) : Prop :=
  ∀ host p m text s, (cap.lint host p m text s).value.isOk = true

theorem Capabilities.neverFails_standard : standard.NeverFails :=
  fun _ _ _ _ _ => rfl

namespace Analyzer

variable {σ : Type}

/-! ## What linting leaves alone -/

/-- `b` is `a` but for the store and the state of the capabilities. -/
structure SameRest (a b : Analyzer σ) : Prop where
  settings : b.settings = a.settings
  layout : b.layout = a.layout
  openFiles : b.openFiles = a.openFiles
  published : b.published = a.published

theorem SameRest.refl (a : Analyzer σ) : SameRest a a := ⟨rfl, rfl, rfl, rfl⟩

theorem SameRest.trans {a b c : Analyzer σ} (h : SameRest a b) (k : SameRest b c) :
    SameRest a c where
  settings := k.settings.trans h.settings
  layout := k.layout.trans h.layout
  openFiles := k.openFiles.trans h.openFiles
  published := k.published.trans h.published

/-- `b` is `a` but for the state of the capabilities and the record of `p`, and both have texts for
the same files. -/
structure SameBut (p : Path) (a b : Analyzer σ) : Prop extends SameRest a b where
  keys : b.store.documents.keys = a.store.documents.keys
  file : ∀ q, (p == q) = false → b.store.file q = a.store.file q

theorem SameBut.refl (p : Path) (a : Analyzer σ) : SameBut p a a :=
  ⟨.refl a, rfl, fun _ _ => rfl⟩

theorem SameBut.trans {p : Path} {a b c : Analyzer σ} (h : SameBut p a b) (k : SameBut p b c) :
    SameBut p a c where
  toSameRest := h.toSameRest.trans k.toSameRest
  keys := k.keys.trans h.keys
  file q hq := (k.file q hq).trans (h.file q hq)

theorem sameBut_withText {a : Analyzer σ} {p : Path} (hp : a.store.documents.contains p = true)
    (text : String) : SameBut p a { a with store := a.store.updateText p text } := by
  refine ⟨⟨rfl, rfl, rfl, rfl⟩, ?_, fun q hq => ?_⟩
  · simp only [Store.updateText]
    split
    · rfl
    · exact PathMap.keys_insert _ _ hp
  · simp [Store.file_updateText, hq]

theorem sameBut_takeEdits {a : Analyzer σ} {p : Path} (hp : a.store.documents.contains p = true)
    (edits : List String) (host : σ) : SameBut p a (a.takeEdits p edits host) := by
  induction edits generalizing a with
  | nil => exact ⟨⟨rfl, rfl, rfl, rfl⟩, rfl, fun _ _ => rfl⟩
  | cons text edits ih =>
    have h : SameBut p a { a with store := a.store.updateText p text } := sameBut_withText hp text
    refine h.trans (ih ?_)
    rw [PathMap.contains_iff, h.keys, ← PathMap.contains_iff]
    exact hp

theorem sameBut_noteErrors (a : Analyzer σ) (p : Path) (errors : List Rego.ParseError) :
    SameBut p a (a.noteErrors p errors) := by
  refine ⟨⟨rfl, rfl, rfl, rfl⟩, rfl, fun q hq => ?_⟩
  simp [noteErrors, Store.file, PathMap.get?_insert, hq]

theorem sameBut_noteReport (a : Analyzer σ) (p : Path) (m : Rego.Module) (r : Report) :
    SameBut p a (a.noteReport p m r) := by
  refine ⟨⟨rfl, rfl, rfl, rfl⟩, rfl, fun q hq => ?_⟩
  simp [noteReport, Store.file, PathMap.get?_insert, hq]

theorem sameBut_moduleOf (cap : Capabilities σ) {a : Analyzer σ} {p : Path} (text : String)
    (hp : a.store.documents.contains p = true) : SameBut p a (a.moduleOf cap p text).2 := by
  unfold moduleOf
  split
  · exact .refl p a
  · exact sameBut_takeEdits hp _ _

/-- Whatever the capabilities do, linting a file changes no other file and forgets none. -/
theorem sameBut_lintFile (cap : Capabilities σ) (a : Analyzer σ) (p : Path) :
    SameBut p a (a.lintFile cap p) := by
  unfold lintFile
  cases ht : a.store.documents.get? p with
  | none => exact .refl p a
  | some text =>
    have hp : a.store.documents.contains p = true := by simp [PathMap.contains, ht]
    have hm := sameBut_moduleOf cap text hp
    dsimp only
    split
    · next errors b hb =>
      rw [hb] at hm
      split
      · exact hm.trans (sameBut_noteErrors b p errors)
      · exact hm
    · next m b hb =>
      rw [hb] at hm
      have hp' : b.store.documents.contains p = true := by
        rw [PathMap.contains_iff, hm.keys, ← PathMap.contains_iff]
        exact hp
      have hl := hm.trans (sameBut_takeEdits hp' (cap.lint b.host p m text b.settings).edits
        (cap.lint b.host p m text b.settings).host)
      split
      · exact hl
      · split
        · exact hl.trans (sameBut_noteReport _ p m _)
        · exact hl

theorem documents_moduleOf {cap : Capabilities σ} (hcap : cap.Quiet) (a : Analyzer σ) (p : Path)
    (text : String) : (a.moduleOf cap p text).2.store.documents = a.store.documents := by
  unfold moduleOf
  split
  · rfl
  · simp [takeEdits, hcap.parse]

/-- Linting gives no file a text, unless the parser or the linter does. -/
theorem documents_lintFile {cap : Capabilities σ} (hcap : cap.Quiet) (a : Analyzer σ) (p : Path) :
    (a.lintFile cap p).store.documents = a.store.documents := by
  unfold lintFile
  cases ht : a.store.documents.get? p with
  | none => rfl
  | some text =>
    have hm := documents_moduleOf hcap a p text
    dsimp only
    split
    · next errors b hb =>
      rw [hb] at hm
      split
      · exact hm
      · exact hm
    · next m b hb =>
      rw [hb] at hm
      have hl : (b.takeEdits p (cap.lint b.host p m text b.settings).edits
          (cap.lint b.host p m text b.settings).host).store.documents = a.store.documents := by
        rw [hcap.lint]
        exact hm
      split
      · exact hl
      · split
        · exact hl
        · exact hl

/-! ## What linting notes -/

theorem file_noteErrors (a : Analyzer σ) (p q : Path) (errors : List Rego.ParseError) :
    (a.noteErrors p errors).store.file q =
      if p == q then { a.store.file q with parseErrors? := some (errors.map .ofParseError) }
      else a.store.file q := by
  cases h : p == q <;> simp [noteErrors, Store.file, PathMap.get?_insert, h]

theorem file_noteReport (a : Analyzer σ) (p q : Path) (m : Rego.Module) (text : String)
    (s : Settings) :
    (a.noteReport p m (.of FileRule.standard m text s)).store.file q =
      if p == q then (a.store.file q).note s text m else a.store.file q := by
  cases h : p == q with
  | false => simp [noteReport, Store.file, PathMap.get?_insert, h]
  | true =>
    simp [noteReport, Store.file, PathMap.get?_insert, h, FileRecord.note, Report.of,
      Contributed.ofList_ofModule]

variable {cap : Capabilities σ} {a : Analyzer σ} {p : Path} {text : String}

/-- A module is noted with the report on it, unless the linter fails. -/
theorem file_reported_or (hcap : cap.Faithful) (hquiet : cap.Quiet) (m : Rego.Module)
    (ht : (a.store.file p).text? = some text) :
    let out := cap.lint a.host p m text a.settings
    let b := a.takeEdits p out.edits out.host
    let c := match out.value with
      | .error _ => b
      | .ok report => if b.store.holds p text then b.noteReport p m report else b
    c.store.file p = (a.store.file p).note a.settings text m ∨
      c.store.file p = a.store.file p ∧ ¬cap.NeverFails := by
  intro out b c
  have hb : b.store = a.store := by
    change (a.takeEdits p out.edits out.host).store = a.store
    rw [hquiet.lint]
    rfl
  have hholds : b.store.holds p text = true := by
    rw [hb]
    exact Store.holds_iff.2 ht
  cases hv : out.value with
  | error fault =>
    right
    have hc : c = b := by
      change (match out.value with | .error _ => b | .ok report => _) = b
      rw [hv]
    rw [hc, hb]
    refine ⟨rfl, fun hnever => ?_⟩
    have hok := hnever a.host p m text a.settings
    change out.value.isOk = true at hok
    rw [hv] at hok
    cases hok
  | ok report =>
    left
    have hc : c = b.noteReport p m (.of FileRule.standard m text a.settings) := by
      change (match out.value with
        | .error _ => b
        | .ok report => if b.store.holds p text then b.noteReport p m report else b) = _
      rw [hv, hcap.lint _ _ _ _ _ _ hv]
      exact if_pos hholds
    rw [hc, file_noteReport, if_pos BEq.rfl, hb]

/-- Linting a file makes of its record what the standard capabilities do, unless the linter failed:
then the record stays as it is. -/
theorem file_lintFile_or (hcap : cap.Faithful) (hquiet : cap.Quiet) (a : Analyzer σ) (p : Path) :
    (a.lintFile cap p).store.file p = (a.store.file p).lint a.settings ∨
      (a.lintFile cap p).store.file p = a.store.file p ∧ ¬cap.NeverFails := by
  unfold lintFile
  cases ht : a.store.documents.get? p with
  | none =>
    left
    have htext : (a.store.file p).text? = none := ht
    rw [FileRecord.lint, htext]
  | some text =>
    have htext : (a.store.file p).text? = some text := ht
    unfold moduleOf
    cases hm : a.store.modules.get? p with
    | some m =>
      have hmodule : (a.store.file p).module? = some m := hm
      have hlint : (a.store.file p).lint a.settings = (a.store.file p).note a.settings text m := by
        rw [FileRecord.lint, htext, hmodule]
      rw [hlint]
      exact file_reported_or hcap hquiet m htext
    | none =>
      have hmodule : (a.store.file p).module? = none := hm
      have hb : ∀ host, (a.takeEdits p (cap.parse a.host p text).edits host).store = a.store := by
        intro host
        rw [hquiet.parse]
        rfl
      dsimp only
      rw [hcap.parse]
      cases hp : Rego.parse text with
      | ok m =>
        have hlint : (a.store.file p).lint a.settings =
            (a.store.file p).note a.settings text m := by
          simp only [FileRecord.lint, htext, hmodule, hp]
        rw [hlint, ← hb (cap.parse a.host p text).host]
        refine file_reported_or (a := a.takeEdits p (cap.parse a.host p text).edits
          (cap.parse a.host p text).host) hcap hquiet m ?_
        rw [hb]
        exact htext
      | error errors =>
        left
        have hlint : (a.store.file p).lint a.settings =
            { a.store.file p with parseErrors? := some (errors.map .ofParseError) } := by
          simp only [FileRecord.lint, htext, hmodule, hp]
        have hholds : (a.takeEdits p (cap.parse a.host p text).edits
            (cap.parse a.host p text).host).store.holds p text = true := by
          rw [hb]
          exact Store.holds_iff.2 htext
        dsimp only
        rw [if_pos hholds, file_noteErrors, if_pos BEq.rfl, hb, hlint]

/-- Linting files with a linter that works lints each of them once. -/
theorem file_foldl_lintFile (hcap : cap.Faithful) (hquiet : cap.Quiet)
    (hnever : cap.NeverFails) (ps : List Path) (a : Analyzer σ) (p : Path) :
    (ps.foldl (lintFile cap) a).store.file p =
      if ps.any (· == p) then (a.store.file p).lint a.settings else a.store.file p := by
  have hone : ∀ (a : Analyzer σ) q, (a.lintFile cap q).store.file p =
      if q == p then (a.store.file p).lint a.settings else a.store.file p := by
    intro a q
    by_cases hqp : (q == p) = true
    · rw [if_pos hqp, ← Store.file_congr _ hqp, ← Store.file_congr _ hqp]
      exact (file_lintFile_or hcap hquiet a q).resolve_right fun hfails => hfails.2 hnever
    · rw [if_neg hqp]
      exact (sameBut_lintFile cap a q).file p (Bool.eq_false_iff.2 hqp)
  induction ps generalizing a with
  | nil => rfl
  | cons q ps ih =>
    rw [List.foldl_cons, ih, (sameBut_lintFile cap a q).settings, hone, List.any_cons]
    cases q == p <;> cases ps.any (· == p) <;> simp [FileRecord.lint_lint]

end Analyzer

end PolicyLint
