import PolicyLint.Proofs.Workspace.Pass
/-!
# What an event asks for

An event prepares a state and then asks for one pass over it, with some files to lint and others to
forget. What it asks for, its `Work`, depends on the event, the state and the disk, and not on the
parser, the linter or the evaluators (`handle_eq_run`). Only a change of folders takes two passes,
and the second starts from where the first ended (`works`).

So what a pass does to a file and what an event asks of its passes are proved apart.
-/

namespace PolicyLint

/-- The state a pass starts from, the files it is to lint and those it is to forget. -/
structure Work (σ : Type) where
  start : Analyzer σ
  toLint : List Path := []
  deleted : List Path := []

/-- What comes of a work: what is published, and the analyzer after it. -/
def Work.run {σ : Type} (cap : Capabilities σ) (d : Disk) (w : Work σ) :
    List Publication × Analyzer σ :=
  w.start.pass cap d w.toLint w.deleted

theorem Work.openFiles_run {σ : Type} (cap : Capabilities σ) (d : Disk) (w : Work σ) :
    (w.run cap d).2.openFiles = w.start.openFiles :=
  (Analyzer.pass_rest cap d w.start w.toLint w.deleted).2

namespace Analyzer

variable {σ : Type}

/-! ## Giving a text -/

def withText (a : Analyzer σ) (p : Path) (text : String) : Analyzer σ :=
  { a with store := a.store.updateText p text }

/-- Whether a file has to be linted once it gets a text. -/
def isDue (a : Analyzer σ) (p : Path) (text : String) : Bool :=
  !a.store.holds p text || (a.withText p text).needsLint p

/-- Gives a file a text, and asks for it to be linted if there is need. -/
def giveText (a : Analyzer σ) (p : Path) (text : String) : Work σ :=
  { start := a.withText p text, toLint := if a.isDue p text then [p] else [] }

theorem setText_eq (cap : Capabilities σ) (d : Disk) (a : Analyzer σ) (p : Path) (text : String) :
    a.setText cap d p text = (a.giveText p text).run cap d := by
  change (if a.isDue p text = true then _ else _) = Analyzer.pass _ _ _ (if _ then _ else _) _
  split <;> rfl

theorem reload_eq (d : Disk) (a : Analyzer σ) (p : Path) :
    a.reload d p =
      match d.readText p with
      | .ok text => (.ok (a.isDue p text), a.withText p text)
      | .error fault => (.error (.read p fault), a) := by
  unfold reload Store.load
  cases d.readText p <;> rfl

theorem store_withText_of_not_isDue {a : Analyzer σ} {p : Path} {text : String}
    (h : a.isDue p text = false) : (a.withText p text).store = a.store := by
  have hh : a.store.holds p text = true := by
    cases hh : a.store.holds p text with
    | true => rfl
    | false => simp [isDue, hh] at h
  change a.store.updateText p text = a.store
  rw [Store.updateText, if_pos hh]

theorem get?_withText (a : Analyzer σ) (q : Path) (text : String) {p : Path} :
    (a.withText q text).store.documents.get? p =
      if q == p then some text else a.store.documents.get? p := by
  unfold withText Store.updateText
  split
  · next h =>
    split
    · next hq =>
      rw [Store.holds_iff, Store.file_congr _ hq] at h
      exact h
    · rfl
  · exact PathMap.get?_insert ..

theorem contains_withText (a : Analyzer σ) (q : Path) (text : String) {p : Path} :
    (a.withText q text).store.documents.contains p =
      (q == p || a.store.documents.contains p) := by
  rw [PathMap.contains, get?_withText]
  cases q == p <;> rfl

theorem mem_keys_withText {a : Analyzer σ} {p q : Path} {text : String}
    (h : q ∈ (a.withText p text).store.documents.keys) : q = p ∨ q ∈ a.store.documents.keys := by
  unfold withText Store.updateText at h
  split at h
  · exact Or.inr h
  · exact PathMap.mem_keys_insert h

/-- The analyzer under other settings, without any findings. -/
def dropFindings (a : Analyzer σ) (settings : Settings) : Analyzer σ :=
  { a with settings, store := { a.store with fileFindings := .empty, crossFindings := .empty } }

/-- A test that gives `v` for every spelling of a path lets the path through if `v` says so. -/
theorem any_filter_beq {p : Path} {keep : Path → Bool} {v : Bool} (hv : ∀ k, (k == p) = true → keep k = v)
    (paths : List Path) : (paths.filter keep).any (· == p) = (v && paths.any (· == p)) := by
  induction paths with
  | nil => simp
  | cons k paths ih =>
    rw [List.filter_cons, List.any_cons]
    cases hk : k == p with
    | true =>
      rw [hv k hk]
      cases v
      · simpa using ih
      · simp [hk]
    | false => cases keep k <;> simp [hk, ih]

/-! ## The work of each event -/

def markClosed (a : Analyzer σ) (p : Path) : Analyzer σ :=
  { a with openFiles := a.openFiles.erase p }

/-- Closing a file gives it the text of the disk; a file that the disk lacks is to be forgotten. -/
def closing (d : Disk) (a : Analyzer σ) (p : Path) : Work σ :=
  if d.pathExists p then
    match d.readText p with
    | .ok text => (a.markClosed p).giveText p text
    | .error _ => { start := a.markClosed p }
  else { start := a.markClosed p, deleted := [p] }

def batch (d : Disk) (a : Analyzer σ) (changes : List (Uri × Change)) : Batch σ :=
  changes.foldl (Batch.add d) { analyzer := a }

/-- What is asked for once a batch of changes is taken in. -/
def filesWork (d : Disk) (a : Analyzer σ) (changes : List (Uri × Change)) : Work σ :=
  let b := a.batch d changes
  { start := b.analyzer, toLint := b.toLint, deleted := (PathSet.ofList b.deleted).keys }

/-- The analyzer once its known files are those that discovery finds. -/
def discovered (d : Disk) (a : Analyzer σ) : Analyzer σ :=
  { a with layout := (a.layout.discover d).2 }

/-- The files with a text that are neither open nor discovered. -/
def stale (d : Disk) (a : Analyzer σ) : List Path :=
  a.store.documents.keys.filter fun p =>
    !a.openFiles.contains p && !(a.layout.discover d).1.any (p == ·)

def scanWork (d : Disk) (a : Analyzer σ) : Work σ :=
  let b := (a.layout.discover d).1.foldl (Batch.scan d) { analyzer := a.discovered d }
  { start := b.analyzer, toLint := b.toLint, deleted := a.stale d }

def removalWork (a : Analyzer σ) (roots : List Path) : Work σ :=
  let x := roots.foldl dropRoot ([], a.layout)
  { start := { a with layout := x.2 }, deleted := x.1.filter fun p => !a.openFiles.contains p }

def additionWork (d : Disk) (a : Analyzer σ) (roots : List Path) : Work σ :=
  if (a.addRoots roots).1 then (a.addRoots roots).2.scanWork d
  else { start := (a.addRoots roots).2 }

/-- What an event asks for; a change of folders asks for the removal first. -/
def work (d : Disk) (a : Analyzer σ) : Event → Work σ
  | .opened uri text =>
    match d.policyPath? uri with
    | some p => ((a.markOpen p).addKnown p).giveText p text
    | none => { start := a }
  | .edited uri text =>
    match d.policyPath? uri with
    | some p => (a.markOpen p).giveText p text
    | none => { start := a }
  | .saved uri text? =>
    match d.policyPath? uri with
    | some p =>
      match text? with
      | some text => a.giveText p text
      | none => { start := a }
    | none => { start := a }
  | .closed uri =>
    match d.policyPath? uri with
    | some p => a.closing d p
    | none => { start := a }
  | .filesChanged changes => a.filesWork d changes
  | .foldersChanged _ removed => a.removalWork (d.pathsOfUris removed)
  | .rootsGiven roots => { start := (a.addRoots roots).2 }
  | .scan => a.scanWork d
  | .lint paths => { start := a, toLint := paths }
  | .relint => { start := a.dropFindings a.settings, toLint := a.store.documents.keys }
  | .configure settings =>
    if a.settings = settings then { start := a }
    else { start := a.dropFindings settings, toLint := a.store.documents.keys }
  | .delete p => { start := a.markClosed p, deleted := [p] }

def works (cap : Capabilities σ) (d : Disk) (a : Analyzer σ) : Event → List (Work σ)
  | .foldersChanged added removed =>
    let first := a.removalWork (d.pathsOfUris removed)
    [first, (first.run cap d).2.additionWork d (d.pathsOfUris added)]
  | e => [a.work d e]

variable {cap : Capabilities σ} {d : Disk}

theorem closed_eq_run (a : Analyzer σ) (uri : Uri) :
    a.closed cap d uri = (a.work d (.closed uri)).run cap d := by
  rw [closed, work]
  cases d.policyPath? uri with
  | none => rfl
  | some p =>
    have hclosed : { a with openFiles := a.openFiles.erase p } = a.markClosed p := rfl
    dsimp only
    rw [closing, hclosed]
    by_cases he : d.pathExists p = true
    · rw [if_pos he, if_pos he, reload_eq]
      cases d.readText p with
      | error fault => rfl
      | ok text =>
        dsimp only
        rw [giveText]
        cases (a.markClosed p).isDue p text <;> rfl
    · rw [if_neg he, if_neg he]
      rfl

theorem rootsAdded_eq_run (a : Analyzer σ) (roots : List Path) :
    a.rootsAdded cap d roots = (a.additionWork d roots).run cap d := by
  unfold rootsAdded additionWork
  cases h : a.addRoots roots with
  | mk new b => cases new <;> rfl

/-- Every event but a change of folders comes down to the pass it asks for. -/
theorem handle_eq_run (a : Analyzer σ) {e : Event}
    (he : ∀ added removed, e ≠ .foldersChanged added removed) :
    a.handle cap d e = (a.work d e).run cap d := by
  cases e with
  | opened uri text =>
    rw [handle, opened, work]
    cases d.policyPath? uri with
    | none => rfl
    | some p => exact setText_eq ..
  | edited uri text =>
    rw [handle, edited, work]
    cases d.policyPath? uri with
    | none => rfl
    | some p => exact setText_eq ..
  | saved uri text? =>
    rw [handle, work]
    unfold saved
    cases d.policyPath? uri with
    | none => rfl
    | some p =>
      cases text? with
      | none => rfl
      | some text => exact setText_eq ..
  | closed uri => exact closed_eq_run a uri
  | filesChanged changes => rfl
  | foldersChanged added removed => exact absurd rfl (he added removed)
  | rootsGiven roots => rfl
  | scan => rfl
  | lint paths => rfl
  | relint => rfl
  | configure settings =>
    rw [handle, configure, work]
    split <;> rfl
  | delete p => rfl

/-- A change of folders ends where the addition does, which starts from where the removal ended. -/
theorem foldersChanged_eq_run (a : Analyzer σ) (added removed : List Uri) :
    (a.foldersChanged cap d added removed).2 =
      ((((a.removalWork (d.pathsOfUris removed)).run cap d).2.additionWork d
        (d.pathsOfUris added)).run cap d).2 := by
  rw [← rootsAdded_eq_run]
  rfl

theorem works_eq_singleton (a : Analyzer σ) {e : Event}
    (he : ∀ added removed, e ≠ .foldersChanged added removed) :
    a.works cap d e = [a.work d e] := by
  cases e
  case foldersChanged added removed => exact absurd rfl (he added removed)
  all_goals rfl

end Analyzer

end PolicyLint
