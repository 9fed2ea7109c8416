import PolicyLint.Proofs.Workspace.Run
/-!
# The texts of open files

From when the editor opens or changes a file until it closes it, or the file is deleted by its name,
the text of the file is the last one that the editor gave (`text_of_open_file`). Each event that
reads the disk or forgets files passes over open files in its own way: some skip them, some filter
them out in the end. What all have in common is that the works they ask for spare an open file
(`Holds.spares_work`).
-/

namespace PolicyLint

/-! ## What an event says about a file -/

/-- Whether a URI leads to the policy file that is known as `p`. -/
def Disk.leadsTo (d : Disk) (uri : Uri) (p : Path) : Bool :=
  (d.policyPath? uri).any (· == p)

namespace Event

/-- The text that the editor gives a file by an event. -/
def text? (d : Disk) (p : Path) : Event → Option String
  | .opened uri text | .edited uri text | .saved uri (some text) =>
    if d.leadsTo uri p then some text else none
  | _ => none

/-- Whether an event opens or changes a file in the editor. -/
def opens (d : Disk) (p : Path) : Event → Bool
  | .opened uri _ | .edited uri _ => d.leadsTo uri p
  | _ => false

/-- Whether an event closes a file in the editor, or deletes it by its name. -/
def releases (d : Disk) (p : Path) : Event → Bool
  | .closed uri => d.leadsTo uri p
  | .delete q => q == p
  | _ => false

end Event

namespace Analyzer

variable {σ : Type} {cap : Capabilities σ} {d : Disk} {p : Path} {text? : Option String}
variable {a : Analyzer σ}

/-- An event by which the editor gives a file a text asks for no more than that. It may mark the file
as open and make it known before. -/
theorem work_of_text? {e : Event} {text : String} (he : e.text? d p = some text) :
    ∃ (b : Analyzer σ) (q : Path), a.work d e = b.giveText q text ∧ b.store = a.store ∧
      b.settings = a.settings ∧ (q == p) = true := by
  have hlead : ∀ {uri : Uri} {t : String}, (if d.leadsTo uri p then some t else none) = some text →
      t = text ∧ ∃ q, d.policyPath? uri = some q ∧ (q == p) = true := by
    intro uri t h
    by_cases hl : d.leadsTo uri p = true
    · rw [if_pos hl] at h
      exact ⟨Option.some.inj h, (Option.any_eq_true ..).1 hl⟩
    · rw [if_neg hl] at h
      cases h
  cases e with
  | opened uri t =>
    obtain ⟨rfl, q, hq, hqp⟩ := hlead he
    refine ⟨(a.markOpen q).addKnown q, q, ?_, rfl, rfl, hqp⟩
    rw [work, hq]
  | edited uri t =>
    obtain ⟨rfl, q, hq, hqp⟩ := hlead he
    refine ⟨a.markOpen q, q, ?_, rfl, rfl, hqp⟩
    rw [work, hq]
  | saved uri t? =>
    cases t? with
    | none => cases he
    | some t =>
      obtain ⟨rfl, q, hq, hqp⟩ := hlead he
      refine ⟨a, q, ?_, rfl, rfl, hqp⟩
      rw [work, hq]
  | _ => cases he

/-! ## Works that spare an open file -/

/-- A file is open and has the given text. -/
structure Holds (p : Path) (text? : Option String) (a : Analyzer σ) : Prop where
  isOpen : a.openFiles.contains p = true
  text : a.store.documents.get? p = text?

/-- A file is open and has the given text when the pass starts, and the pass does not forget it. -/
structure Spares (p : Path) (text? : Option String) (w : Work σ) : Prop where
  start : Holds p text? w.start
  kept : w.deleted.any (· == p) = false

/-- A pass that spares a file leaves it open, with its text. -/
theorem Spares.run {w : Work σ} (hcap : cap.Quiet) (h : Spares p text? w) :
    Holds p text? (w.run cap d).2 := by
  constructor
  · rw [w.openFiles_run]
    exact h.start.isOpen
  · have htext := get?_documents_pass hcap d w.start w.toLint w.deleted p
    rw [h.kept] at htext
    exact htext.trans h.start.text

/-- To ask for nothing, or only for files to be linted, spares every open file. -/
theorem Holds.spares (h : Holds p text? a) (toLint : List Path) :
    Spares p text? { start := a, toLint } :=
  ⟨h, rfl⟩

theorem Holds.markOpen (h : Holds p text? a) (q : Path) : Holds p text? (a.markOpen q) := by
  refine ⟨?_, h.text⟩
  change (a.openFiles.add q).contains p = true
  rw [PathSet.contains_add, h.isOpen, Bool.or_true]

theorem Holds.markClosed (h : Holds p text? a) {q : Path} (hq : (q == p) = false) :
    Holds p text? (a.markClosed q) := by
  refine ⟨?_, h.text⟩
  change (a.openFiles.erase q).contains p = true
  rw [PathMap.contains, PathMap.get?_erase, hq]
  exact h.isOpen

theorem Holds.withText_of_ne (h : Holds p text? a) {q : Path} (hq : (q == p) = false)
    (text : String) : Holds p text? (a.withText q text) := by
  refine ⟨h.isOpen, ?_⟩
  rw [get?_withText, hq]
  exact h.text

theorem Holds.giveText (h : Holds p text? a) (q : Path) (text : String) :
    Spares p ((if q == p then some text else none).or text?) (a.giveText q text) := by
  refine ⟨⟨h.isOpen, ?_⟩, rfl⟩
  change (a.withText q text).store.documents.get? p = _
  rw [get?_withText]
  by_cases hq : (q == p) = true
  · rw [if_pos hq, if_pos hq]
    rfl
  · rw [if_neg hq, if_neg hq]
    exact h.text

theorem Holds.closing (h : Holds p text? a) {q : Path} (hq : (q == p) = false) :
    Spares p text? (a.closing d q) := by
  have hclosed := h.markClosed hq
  unfold Analyzer.closing
  split
  · split
    · next text _ =>
      have hgiven := hclosed.giveText q text
      rw [hq] at hgiven
      exact hgiven
    · exact hclosed.spares []
  · exact ⟨hclosed, by simp [hq]⟩

/-! ## Events from the disk -/

/-- A batch has left an open file alone so far. -/
structure SparedBy (p : Path) (text? : Option String) (b : Batch σ) : Prop where
  analyzer : Holds p text? b.analyzer
  kept : b.deleted.any (· == p) = false

/-- An open file is not among those that are not open, however it is spelled. -/
theorem Holds.any_filter_open (h : Holds p text? a) (paths : List Path) :
    (paths.filter fun f => !a.openFiles.contains f).any (· == p) = false := by
  have hopen : ∀ f, (f == p) = true → (!a.openFiles.contains f) = false := by
    intro f hf
    rw [PathMap.contains_congr _ hf, h.isOpen]
    rfl
  rw [any_filter_beq hopen, Bool.false_and]

theorem Holds.reload (h : Holds p text? a) {q : Path} (hq : (q == p) = false) :
    Holds p text? (a.reload d q).2 := by
  rw [reload_eq]
  cases d.readText q with
  | error fault => exact h
  | ok text => exact h.withText_of_ne hq text

/-- A file that is not open is another one than an open file. -/
theorem Holds.ne_of_not_open (h : Holds p text? a) {q : Path}
    (hq : a.openFiles.contains q = false) : (q == p) = false := by
  by_cases hqp : (q == p) = true
  · rw [PathMap.contains_congr _ hqp, h.isOpen] at hq
    cases hq
  · exact Bool.eq_false_iff.2 hqp

theorem SparedBy.load {b : Batch σ} (h : SparedBy p text? b) (q : Path) :
    SparedBy p text? (b.load d q) := by
  unfold Batch.load
  split
  · exact h
  · next hskip =>
    have hclosed : b.analyzer.openFiles.contains q = false := by simp_all
    have hreload := h.analyzer.reload (d := d) (h.analyzer.ne_of_not_open hclosed)
    split
    · next needs a' heq =>
      rw [heq] at hreload
      have hopen : (a'.addKnown q).openFiles.contains p = true := hreload.isOpen
      exact ⟨⟨hopen, hreload.text⟩, h.kept⟩
    · next fault a' heq =>
      rw [heq] at hreload
      exact ⟨hreload, h.kept⟩

theorem SparedBy.delete {b : Batch σ} (h : SparedBy p text? b) (q : Path) :
    SparedBy p text? (b.delete q) := by
  refine ⟨h.analyzer, ?_⟩
  unfold Batch.delete
  dsimp only
  rw [List.any_append, h.kept, h.analyzer.any_filter_open, Bool.or_false]

theorem SparedBy.add {b : Batch σ} (h : SparedBy p text? b) (c : Uri × Change) :
    SparedBy p text? (b.add d c) := by
  unfold Batch.add
  split
  · exact h
  · split
    · exact h
    · cases c.2 with
      | created => exact h.load _
      | changed => exact h.load _
      | deleted => exact h.delete _
      | other => exact h

theorem SparedBy.foldl_add {changes : List (Uri × Change)} {b : Batch σ}
    (h : SparedBy p text? b) : SparedBy p text? (changes.foldl (Batch.add d) b) := by
  induction changes generalizing b with
  | nil => exact h
  | cons c changes ih => exact ih (h.add c)

theorem Holds.filesWork (h : Holds p text? a) (changes : List (Uri × Change)) :
    Spares p text? (a.filesWork d changes) := by
  have hb : SparedBy p text? (a.batch d changes) := SparedBy.foldl_add ⟨h, rfl⟩
  refine ⟨hb.analyzer, ?_⟩
  change (PathSet.ofList (a.batch d changes).deleted).keys.any (· == p) = false
  rw [← PathMap.contains_eq_any, PathSet.contains_ofList]
  exact hb.kept

/-! ## Events from the workspace -/

theorem SparedBy.scan {b : Batch σ} (h : SparedBy p text? b) (q : Path) :
    SparedBy p text? (b.scan d q) := by
  unfold Batch.scan
  split
  · exact h
  · next hclosed =>
    have hreload := h.analyzer.reload (d := d) (h.analyzer.ne_of_not_open (by simpa using hclosed))
    split
    · next needs a' heq =>
      rw [heq] at hreload
      exact ⟨hreload, h.kept⟩
    · next fault a' heq =>
      rw [heq] at hreload
      exact ⟨hreload, h.kept⟩

theorem SparedBy.foldl_scan {files : List Path} {b : Batch σ} (h : SparedBy p text? b) :
    SparedBy p text? (files.foldl (Batch.scan d) b) := by
  induction files generalizing b with
  | nil => exact h
  | cons q files ih => exact ih (h.scan q)

theorem Holds.scanWork (h : Holds p text? a) : Spares p text? (a.scanWork d) := by
  have hstart : Holds p text? (a.discovered d) := ⟨h.isOpen, h.text⟩
  have hb : SparedBy p text? ((a.layout.discover d).1.foldl (Batch.scan d)
      { analyzer := a.discovered d }) := SparedBy.foldl_scan ⟨hstart, rfl⟩
  refine ⟨hb.analyzer, ?_⟩
  have hopen : ∀ f, (f == p) = true →
      (!a.openFiles.contains f && !(a.layout.discover d).1.any (f == ·)) = false := by
    intro f hf
    rw [PathMap.contains_congr _ hf, h.isOpen]
    rfl
  change (a.stale d).any (· == p) = false
  rw [stale, any_filter_beq hopen, Bool.false_and]

theorem Holds.removalWork (h : Holds p text? a) (roots : List Path) :
    Spares p text? (a.removalWork roots) :=
  ⟨⟨h.isOpen, h.text⟩, h.any_filter_open _⟩

theorem Holds.additionWork (h : Holds p text? a) (roots : List Path) :
    Spares p text? (a.additionWork d roots) := by
  have hadded : Holds p text? (a.addRoots roots).2 := ⟨h.isOpen, h.text⟩
  unfold Analyzer.additionWork
  split
  · exact hadded.scanWork
  · exact hadded.spares []

/-! ## All events -/

/-- What an event asks for spares an open file, unless the event releases it. The file has the text
that the editor gives it by the event, if any, and else the one it had. -/
theorem Holds.spares_work (h : Holds p text? a) {e : Event} (he : e.releases d p = false) :
    Spares p ((e.text? d p).or text?) (a.work d e) := by
  cases e with
  | opened uri text =>
    rw [work, Event.text?, Disk.leadsTo]
    cases d.policyPath? uri with
    | none => exact h.spares []
    | some q =>
      have hopen : Holds p text? ((a.markOpen q).addKnown q) :=
        ⟨(h.markOpen q).isOpen, h.text⟩
      exact hopen.giveText q text
  | edited uri text =>
    rw [work, Event.text?, Disk.leadsTo]
    cases d.policyPath? uri with
    | none => exact h.spares []
    | some q => exact (h.markOpen q).giveText q text
  | saved uri text? =>
    cases text? with
    | none =>
      rw [work]
      cases d.policyPath? uri with
      | none => exact h.spares []
      | some q => exact h.spares []
    | some text =>
      rw [work, Event.text?, Disk.leadsTo]
      cases d.policyPath? uri with
      | none => exact h.spares []
      | some q => exact h.giveText q text
  | closed uri =>
    rw [work]
    rw [Event.releases, Disk.leadsTo] at he
    cases hq : d.policyPath? uri with
    | none => exact h.spares []
    | some q =>
      rw [hq, Option.any_some] at he
      exact h.closing he
  | filesChanged changes => exact h.filesWork changes
  | foldersChanged added removed => exact h.removalWork _
  | rootsGiven roots => exact ⟨⟨h.isOpen, h.text⟩, rfl⟩
  | scan => exact h.scanWork
  | lint paths => exact h.spares paths
  | relint => exact ⟨⟨h.isOpen, h.text⟩, rfl⟩
  | configure settings =>
    rw [work]
    split
    · exact h.spares []
    · exact ⟨⟨h.isOpen, h.text⟩, rfl⟩
  | delete q =>
    have hq : (q == p) = false := he
    rw [work]
    exact ⟨h.markClosed hq, by simp [hq]⟩

/-- After an event that opens or changes a file, the file is open and has the text of the event. -/
theorem spares_of_opens {e : Event} (he : e.opens d p = true) :
    Spares p (e.text? d p) (a.work d e) := by
  have hopened : ∀ q, (q == p) = true → (a.markOpen q).openFiles.contains p = true := by
    intro q hq
    change (a.openFiles.add q).contains p = true
    rw [PathSet.contains_add, hq, Bool.true_or]
  have hgiven : ∀ (b : Analyzer σ) q text, (q == p) = true → b.openFiles.contains p = true →
      Spares p (some text) (b.giveText q text) := by
    intro b q text hq hb
    refine ⟨⟨hb, ?_⟩, rfl⟩
    change (b.withText q text).store.documents.get? p = _
    rw [get?_withText, if_pos hq]
  cases e with
  | opened uri text =>
    have hlead : d.leadsTo uri p = true := he
    rw [work, Event.text?, if_pos hlead]
    obtain ⟨q, hq, hqp⟩ := (Option.any_eq_true ..).1 hlead
    rw [hq]
    exact hgiven _ q text hqp (hopened q hqp)
  | edited uri text =>
    have hlead : d.leadsTo uri p = true := he
    rw [work, Event.text?, if_pos hlead]
    obtain ⟨q, hq, hqp⟩ := (Option.any_eq_true ..).1 hlead
    rw [hq]
    exact hgiven _ q text hqp (hopened q hqp)
  | _ => cases he

/-- An event that does not release an open file leaves it open, with the editor's text. -/
theorem Holds.handle (hcap : cap.Quiet) (h : Holds p text? a) {e : Event}
    (he : e.releases d p = false) :
    Holds p ((e.text? d p).or text?) (a.handle cap d e).2 := by
  have hfirst := (h.spares_work he).run (d := d) hcap
  by_cases hf : ∃ added removed, e = .foldersChanged added removed
  · obtain ⟨added, removed, rfl⟩ := hf
    have hsecond := (hfirst.additionWork (d := d) (d.pathsOfUris added)).run (d := d) hcap
    rw [Analyzer.handle, foldersChanged_eq_run]
    exact hsecond
  · rw [handle_eq_run a fun added removed heq => hf ⟨added, removed, heq⟩]
    exact hfirst

theorem getLast?_filterMap_cons {α β : Type} (f : α → Option β) (x : α) (xs : List α) :
    ((x :: xs).filterMap f).getLast? = ((xs.filterMap f).getLast?).or (f x) := by
  rw [List.filterMap_cons]
  cases f x with
  | none => rw [Option.or_none]
  | some b =>
    rw [List.getLast?_cons]
    cases (xs.filterMap f).getLast? <;> rfl

/-- As long as no event releases an open file, it stays open and has the last text that the editor
gave it. -/
theorem Holds.after (hcap : cap.Quiet) {run : List (Disk × Event)} (h : Holds p text? a)
    (hrun : ∀ x ∈ run, x.2.releases x.1 p = false) :
    Holds p ((run.filterMap fun x => x.2.text? x.1 p).getLast?.or text?) (a.after cap run) := by
  induction run generalizing a text? with
  | nil => exact h
  | cons x run ih =>
    have hstep := h.handle (e := x.2) hcap (hrun x (List.mem_cons_self ..))
    have hrest := ih hstep fun y hy => hrun y (List.mem_cons_of_mem _ hy)
    rw [getLast?_filterMap_cons, Option.or_assoc]
    exact hrest

/-- From an event that opens or changes a file on, until an event closes it or deletes it by its
name, the file has the text that the editor gave last. -/
theorem text_of_open_file (hcap : cap.Quiet) (host : σ) (before later : List (Disk × Event))
    (x : Disk × Event) (p : Path) (hopen : x.2.opens x.1 p = true)
    (hkept : ∀ y ∈ later, y.2.releases y.1 p = false) :
    ((fresh host).after cap (before ++ x :: later)).store.documents.get? p =
      ((x :: later).filterMap fun y => y.2.text? y.1 p).getLast? := by
  have hsplit : (fresh host).after cap (before ++ x :: later) =
      (((fresh host).after cap before).handle cap x.1 x.2).2.after cap later := by
    simp [Analyzer.after]
  have hfirst : Holds p (x.2.text? x.1 p) (((fresh host).after cap before).handle cap x.1 x.2).2 := by
    have hspares := (spares_of_opens (a := (fresh host).after cap before) hopen).run (d := x.1) hcap
    rw [handle_eq_run]
    · exact hspares
    · intro added removed heq
      rw [heq] at hopen
      cases hopen
  rw [hsplit, getLast?_filterMap_cons]
  exact (hfirst.after hcap hkept).text

/-- The text of an open file outlives a change on the disk, the deletion of its folder, a scan that
finds nothing and the removal of its root. -/
theorem unsaved_text_outlives_its_folder :
    let uri (path : String) : Uri := { scheme? := some "file", authority? := some "", path }
    let d : Disk := { entries := [
      (["ws"], .folder), (["ws", "a.rego"], .file "package a".toUTF8)] }
    let before : List (Disk × Event) := [(d, .rootsGiven [⟨"/ws"⟩]), (d, .scan)]
    let x : Disk × Event := (d, .opened (uri "/ws/a.rego") "package b")
    let later : List (Disk × Event) := [
      (d, .saved (uri "/ws/a.rego") (some "package c")),
      (d, .filesChanged [(uri "/ws/a.rego", .changed), (uri "/ws", .deleted)]),
      ({}, .scan), ({}, .foldersChanged [] [uri "/ws"])]
    x.2.opens x.1 ⟨"/ws/a.rego"⟩ = true ∧
      (∀ y ∈ later, y.2.releases y.1 ⟨"/ws/a.rego"⟩ = false) ∧
      ((fresh ()).after .standard (before ++ x :: later)).store.documents.get? ⟨"/ws/a.rego"⟩ =
        some "package c" := by
  intro uri d before x later
  have hopen : x.2.opens x.1 ⟨"/ws/a.rego"⟩ = true := by decide +kernel
  have hkept : ∀ y ∈ later, y.2.releases y.1 ⟨"/ws/a.rego"⟩ = false := by decide +kernel
  have htext := text_of_open_file Capabilities.quiet_standard () before later x _ hopen hkept
  refine ⟨hopen, hkept, htext.trans ?_⟩
  decide +kernel

end Analyzer

end PolicyLint
