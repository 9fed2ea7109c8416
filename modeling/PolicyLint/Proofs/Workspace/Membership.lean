import PolicyLint.Proofs.Workspace.BatchOrder
import PolicyLint.Proofs.Workspace.Listing
import PolicyLint.Proofs.Workspace.OpenFiles
import PolicyLint.Proofs.Workspace.Roots
import PolicyLint.Proofs.Workspace.Scan
/-!
# Which files belong to a workspace

A scan lets in the files that discovery lists, and forgets all others that are not open. Events about
single files decide on their own: a file that is closed has the text of the disk from then on, a file
that is saved has the text that was sent along, and a file that is said to be created or changed is
read. None of them looks at the roots or at the ignore files.

So events and scans agree about the files of a workspace if and only if no event lets in a file that
discovery does not list (`events_agree_with_scans_iff`), and a new file in a folder that is ignored is
enough to part them (`ignored_file_is_let_in`).

What an event does about a file is said by one law: after it, a file has a text and is not open if the
event lets it in, or if it had one and was not open before and the editor did not turn to it
(`resident_handle_iff`).
-/

namespace PolicyLint

/-- The editor opens, changes, saves or closes a file, or files are said to be created or changed. -/
def Event.isAboutFiles : Event → Bool
  | .opened _ _ | .edited _ _ | .saved _ _ | .closed _ => true
  | .filesChanged changes => changes.all fun c => c.2 = .created || c.2 = .changed
  | _ => false

namespace Analyzer

variable {σ : Type} {cap : Capabilities σ} {d later : Disk} {p q : Path} {a : Analyzer σ}

/-- A file has a text and is not open. -/
structure Resident (p : Path) (a : Analyzer σ) : Prop where
  text : a.store.documents.contains p = true
  closed : a.openFiles.contains p = false

/-- A change says that a file was created or changed, and the file can be read. -/
def Reads (d : Disk) (p : Path) (c : Uri × Change) : Prop :=
  ∃ q text, Loads d q c ∧ (q == p) = true ∧ q.isPolicy = true ∧ d.readText q = .ok text

/-- An event lets in a file that is not open. The file is closed while there is something at its
path, and has a text or can be read; it is saved without being open; or it is read because it was
created or changed. -/
def Admits (d : Disk) (a : Analyzer σ) (p : Path) : Event → Prop
  | .closed uri => ∃ q, d.policyPath? uri = some q ∧ (q == p) = true ∧ d.pathExists q = true ∧
      (a.store.documents.contains p = true ∨ ∃ text, d.readText q = .ok text)
  | .saved uri text? =>
    d.leadsTo uri p = true ∧ text?.isSome = true ∧ a.openFiles.contains p = false
  | .filesChanged changes =>
    (∃ c ∈ changes, Reads d p c) ∧ a.openFiles.contains p = false
  | _ => False

/-- Every file that has a text and is not open is one that discovery lists. -/
def AgreesWithScan (d : Disk) (a : Analyzer σ) : Prop :=
  ∀ p, Resident p a → ∃ f ∈ a.listed d, (f == p) = true

/-- A scan finds nothing to forget if and only if it agrees with the analyzer before. -/
theorem stale_eq_nil_iff : a.stale d = [] ↔ AgreesWithScan d a := by
  constructor
  · intro hstale p hp
    obtain ⟨k, hk, hkp⟩ := PathMap.contains_iff.1 hp.text
    have hnot : k ∉ a.stale d := by simp [hstale]
    rcases (not_stale_iff hk).1 hnot with hopen | ⟨f, hf, hkf⟩
    · rw [PathMap.contains_congr _ hkp, hp.closed] at hopen
      cases hopen
    · exact ⟨f, hf, BEq.trans (BEq.symm hkf) hkp⟩
  · intro hagrees
    refine List.eq_nil_iff_forall_not_mem.2 fun k hstale => ?_
    have hk : k ∈ a.store.documents.keys := (List.mem_filter.1 hstale).1
    refine absurd hstale ((not_stale_iff hk).2 ?_)
    cases hopen : a.openFiles.contains k with
    | true => exact Or.inl rfl
    | false =>
      obtain ⟨f, hf, hfk⟩ := hagrees k ⟨PathMap.contains_of_mem_keys hk, hopen⟩
      exact Or.inr ⟨f, hf, BEq.symm hfk⟩

/-! ## Giving a text -/

theorem resident_iff :
    Resident p a ↔ a.store.documents.contains p = true ∧ a.openFiles.contains p = false :=
  ⟨fun h => ⟨h.text, h.closed⟩, fun h => ⟨h.1, h.2⟩⟩

theorem resident_withText_iff {text : String} :
    Resident p (a.withText q text) ↔
      Resident p a ∨ (q == p) = true ∧ a.openFiles.contains p = false := by
  have hopen : (a.withText q text).openFiles = a.openFiles := rfl
  rw [resident_iff, resident_iff, contains_withText, hopen, Bool.or_eq_true, ← or_and_right, or_comm]

theorem contains_markClosed (a : Analyzer σ) (q p : Path) :
    (a.markClosed q).openFiles.contains p = (!(q == p) && a.openFiles.contains p) := by
  change (a.openFiles.erase q).contains p = _
  rw [PathMap.contains, PathMap.get?_erase]
  cases q == p <;> rfl

theorem resident_markClosed_iff :
    Resident p (a.markClosed q) ↔
      a.store.documents.contains p = true ∧ (!(q == p) && a.openFiles.contains p) = false := by
  rw [resident_iff, contains_markClosed]
  rfl

/-- A file that gets its text while it is marked as open is not resident. -/
theorem resident_marked_iff {b : Analyzer σ} {text : String}
    (hopen : b.openFiles = a.openFiles.add q) (hstore : b.store = a.store) :
    Resident p (b.withText q text) ↔ Resident p a ∧ (q == p) = false := by
  rw [resident_withText_iff, resident_iff, resident_iff, hopen, hstore, PathSet.contains_add]
  cases q == p <;> simp

theorem resident_closing_iff :
    Resident p (a.closing d q).start ∧ (a.closing d q).deleted.any (· == p) = false ↔
      ((q == p) = true ∧ d.pathExists q = true ∧
        (a.store.documents.contains p = true ∨ ∃ text, d.readText q = .ok text)) ∨
      Resident p a ∧ (q == p) = false := by
  rw [resident_iff (a := a)]
  unfold closing
  cases hexists : d.pathExists q with
  | false =>
    simp only [Bool.false_eq_true, if_false, resident_markClosed_iff, List.any_cons, List.any_nil,
      Bool.or_false]
    cases q == p <;> simp
  | true =>
    simp only [if_true]
    cases hread : d.readText q with
    | error fault =>
      simp only [resident_markClosed_iff]
      cases q == p <;> simp
    | ok text =>
      simp only [giveText, resident_withText_iff, resident_markClosed_iff, contains_markClosed]
      cases q == p <;> simp

/-! ## Changes on the disk -/

theorem roots_addKnown (a : Analyzer σ) (p : Path) :
    (a.addKnown p).layout.roots = a.layout.roots := by
  change (a.layout.addFile p).2.roots = _
  unfold Layout.addFile
  split <;> rfl

/-- A change of a batch neither opens nor closes a file, and it leaves the roots alone. -/
theorem kept_add (b : Batch σ) (c : Uri × Change) :
    (b.add d c).analyzer.openFiles = b.analyzer.openFiles ∧
      (b.add d c).analyzer.layout.roots = b.analyzer.layout.roots := by
  have hload : ∀ f, (b.load d f).analyzer.openFiles = b.analyzer.openFiles ∧
      (b.load d f).analyzer.layout.roots = b.analyzer.layout.roots := by
    intro f
    unfold Batch.load
    split
    · exact ⟨rfl, rfl⟩
    · rw [reload_eq]
      cases d.readText f with
      | error fault => exact ⟨rfl, rfl⟩
      | ok text => exact ⟨rfl, roots_addKnown ..⟩
  unfold Batch.add
  split
  · exact ⟨rfl, rfl⟩
  · split
    · exact ⟨rfl, rfl⟩
    · cases c.2 with
      | created => exact hload _
      | changed => exact hload _
      | deleted => exact ⟨rfl, rfl⟩
      | other => exact ⟨rfl, rfl⟩

theorem resident_load_iff {b : Batch σ} :
    Resident p (b.load d q).analyzer ↔ Resident p b.analyzer ∨
      ((q == p) = true ∧ q.isPolicy = true ∧ ∃ text, d.readText q = .ok text) ∧
        b.analyzer.openFiles.contains p = false := by
  unfold Batch.load
  cases hpolicy : q.isPolicy with
  | false => simp
  | true =>
    cases hopen : b.analyzer.openFiles.contains q with
    | true =>
      have hsame : (q == p) = true → b.analyzer.openFiles.contains p = true := by
        intro hqp
        rw [← PathMap.contains_congr _ hqp, hopen]
      cases hqp : q == p with
      | false => simp
      | true => simp [hsame hqp]
    | false =>
      rw [reload_eq]
      cases hread : d.readText q with
      | error fault => simp
      | ok text =>
        have hknown : Resident p ((b.analyzer.withText q text).addKnown q) ↔
            Resident p (b.analyzer.withText q text) := by
          rw [resident_iff, resident_iff]
          rfl
        simp [hknown, resident_withText_iff]

/-- A change lets a file in if it reads the file and the file is not open. -/
theorem resident_add_iff {b : Batch σ} {c : Uri × Change} :
    Resident p (b.add d c).analyzer ↔ Resident p b.analyzer ∨
      Reads d p c ∧ b.analyzer.openFiles.contains p = false := by
  obtain ⟨u, change⟩ := c
  cases hq : d.pathOfUri u with
  | error fault =>
    have hreads : ¬Reads d p (u, change) := by
      rintro ⟨q, text, ⟨-, hq'⟩, -⟩
      rw [hq] at hq'
      cases hq'
    unfold Batch.add
    simp [hq, hreads]
  | ok q =>
    have hreads : Reads d p (u, change) ↔ (change = .created ∨ change = .changed) ∧
        (q == p) = true ∧ q.isPolicy = true ∧ ∃ text, d.readText q = .ok text := by
      constructor
      · rintro ⟨f, text, hloads, hqp, hpolicy, hread⟩
        obtain ⟨hc, rfl⟩ := (loads_iff (c := (u, change)) hq).1 hloads
        exact ⟨hc, hqp, hpolicy, text, hread⟩
      · rintro ⟨hc, hqp, hpolicy, text, hread⟩
        exact ⟨q, text, ⟨hc, hq⟩, hqp, hpolicy, hread⟩
    rw [hreads]
    by_cases hext : q.extension?.isSome = true → q.isPolicy = true
    · rw [add_of_looked_at hq hext]
      cases change with
      | created => simp [resident_load_iff]
      | changed => simp [resident_load_iff]
      | deleted => simp [Batch.delete]
      | other => simp
    · have hpolicy : q.isPolicy = false := by
        cases hpolicy : q.isPolicy with
        | false => rfl
        | true => exact absurd (fun _ => hpolicy) hext
      rw [add_of_passed_over hq hext]
      simp [hpolicy]

theorem resident_foldl_add_iff {changes : List (Uri × Change)} {b : Batch σ} :
    Resident p (changes.foldl (Batch.add d) b).analyzer ↔ Resident p b.analyzer ∨
      (∃ c ∈ changes, Reads d p c) ∧ b.analyzer.openFiles.contains p = false := by
  induction changes generalizing b with
  | nil => simp
  | cons c changes ih =>
    rw [List.foldl_cons, ih, resident_add_iff, (kept_add b c).1, or_assoc, ← or_and_right]
    simp

theorem deleted_foldl_add {changes : List (Uri × Change)} (b : Batch σ)
    (h : ∀ c ∈ changes, c.2 = .created ∨ c.2 = .changed) :
    (changes.foldl (Batch.add d) b).deleted = b.deleted := by
  have hload : ∀ (b : Batch σ) f, (b.load d f).deleted = b.deleted := by
    intro b f
    unfold Batch.load
    split
    · rfl
    · split <;> rfl
  induction changes generalizing b with
  | nil => rfl
  | cons c changes ih =>
    have hadd : (b.add d c).deleted = b.deleted := by
      unfold Batch.add
      split
      · rfl
      · split
        · rfl
        · rcases h c (List.mem_cons_self ..) with hc | hc
          · rw [hc]
            exact hload ..
          · rw [hc]
            exact hload ..
    rw [List.foldl_cons, ih _ fun c hc => h c (List.mem_cons_of_mem _ hc), hadd]

/-! ## Every event -/

/-- A pass changes neither which files are open nor, but for those it forgets, which have a text. -/
theorem resident_run_iff (w : Work σ) :
    Resident p (w.run cap d).2 ↔ Resident p w.start ∧ w.deleted.any (· == p) = false := by
  have htext : (w.run cap d).2.store.documents.contains p =
      (w.start.store.documents.contains p && !w.deleted.any (· == p)) :=
    contains_documents_pass ..
  rw [resident_iff, resident_iff, w.openFiles_run, htext, Bool.and_eq_true, Bool.not_eq_true']
  exact and_right_comm

theorem resident_filesWork_iff {changes : List (Uri × Change)}
    (h : ∀ c ∈ changes, c.2 = .created ∨ c.2 = .changed) :
    Resident p (a.filesWork d changes).start ∧
        (a.filesWork d changes).deleted.any (· == p) = false ↔
      Resident p a ∨ (∃ c ∈ changes, Reads d p c) ∧ a.openFiles.contains p = false := by
  have hdeleted : (a.filesWork d changes).deleted = [] := by
    have hnone : (a.batch d changes).deleted = [] := deleted_foldl_add _ h
    rw [filesWork, hnone]
    rfl
  rw [hdeleted]
  exact (and_iff_left rfl).trans resident_foldl_add_iff

theorem handle_of_isAboutFiles (cap : Capabilities σ) (d : Disk) (a : Analyzer σ) {e : Event}
    (he : e.isAboutFiles = true) : a.handle cap d e = (a.work d e).run cap d := by
  refine handle_eq_run a fun added removed heq => ?_
  rw [heq] at he
  cases he

/-- After an event, a file has a text and is not open if the event lets it in, or if it had one and
was not open before, and the editor neither opened nor closed it. -/
theorem resident_handle_iff {e : Event} (he : e.isAboutFiles = true) :
    Resident p (a.handle cap d e).2 ↔ Admits d a p e ∨
      Resident p a ∧ e.opens d p = false ∧ e.releases d p = false := by
  rw [handle_of_isAboutFiles cap d a he, resident_run_iff]
  cases e with
  | opened uri text =>
    simp only [work, Admits, Event.opens, Event.releases, Disk.leadsTo]
    cases d.policyPath? uri with
    | none => simp
    | some q => simp [giveText, resident_marked_iff (b := (a.markOpen q).addKnown q) rfl rfl]
  | edited uri text =>
    simp only [work, Admits, Event.opens, Event.releases, Disk.leadsTo]
    cases d.policyPath? uri with
    | none => simp
    | some q => simp [giveText, resident_marked_iff (b := a.markOpen q) rfl rfl]
  | saved uri text? =>
    simp only [work, Admits, Event.opens, Event.releases, Disk.leadsTo]
    cases d.policyPath? uri with
    | none => simp
    | some q =>
      cases text? with
      | none => simp
      | some text => simp [giveText, resident_withText_iff, or_comm]
  | closed uri =>
    simp only [work, Admits, Event.opens, Event.releases, Disk.leadsTo]
    cases d.policyPath? uri with
    | none => simp
    | some q => simpa using resident_closing_iff
  | filesChanged changes =>
    have hchanges : ∀ c ∈ changes, c.2 = .created ∨ c.2 = .changed := by
      simpa [Event.isAboutFiles] using he
    simp only [Admits, Event.opens, Event.releases, and_true]
    exact (resident_filesWork_iff hchanges).trans or_comm
  | foldersChanged added removed => cases he
  | rootsGiven roots => cases he
  | scan => cases he
  | lint paths => cases he
  | relint => cases he
  | configure settings => cases he
  | delete q => cases he

theorem roots_foldl_add (changes : List (Uri × Change)) (b : Batch σ) :
    (changes.foldl (Batch.add d) b).analyzer.layout.roots = b.analyzer.layout.roots := by
  induction changes generalizing b with
  | nil => rfl
  | cons c changes ih => exact (ih (b.add d c)).trans (kept_add b c).2

theorem roots_work (d : Disk) (a : Analyzer σ) {e : Event} (he : e.isAboutFiles = true) :
    (a.work d e).start.layout.roots = a.layout.roots := by
  cases e with
  | opened uri text =>
    rw [work]
    cases d.policyPath? uri with
    | none => rfl
    | some q => exact roots_addKnown (a.markOpen q) q
  | edited uri text =>
    rw [work]
    cases d.policyPath? uri <;> rfl
  | saved uri text? =>
    rw [work]
    cases d.policyPath? uri with
    | none => rfl
    | some q => cases text? <;> rfl
  | closed uri =>
    rw [work]
    cases d.policyPath? uri with
    | none => rfl
    | some q =>
      dsimp only
      unfold closing
      split
      · split <;> rfl
      · rfl
  | filesChanged changes => exact roots_foldl_add changes { analyzer := a }
  | foldersChanged added removed => cases he
  | rootsGiven roots => cases he
  | scan => cases he
  | lint paths => cases he
  | relint => cases he
  | configure settings => cases he
  | delete q => cases he

/-- An event about files leaves the roots alone, and so what discovery lists. -/
theorem listed_handle (cap : Capabilities σ) (d later : Disk) (a : Analyzer σ) {e : Event}
    (he : e.isAboutFiles = true) : (a.handle cap d e).2.listed later = a.listed later := by
  have hroots : (a.handle cap d e).2.layout.roots = a.layout.roots := by
    rw [handle_of_isAboutFiles cap d a he]
    exact (roots_pass cap d _ _ _).trans (roots_work d a he)
  rw [listed, listed, hroots]

/-! ## Agreement -/

theorem agreesWithScan_scan (cap : Capabilities σ) (d : Disk) (a : Analyzer σ) :
    AgreesWithScan d (a.handle cap d .scan).2 := by
  intro p hp
  have hclosed : a.openFiles.contains p = false := by
    rw [← (scan_rest cap d a).2]
    exact hp.closed
  have hlisted : (a.handle cap d .scan).2.listed d = a.listed d := listed_scan a cap d
  rw [hlisted]
  exact listed_of_scanned a hp.text hclosed

/-- Where events and scans agree, they do after one more event if and only if all that it lets in is
listed. -/
theorem agreesWithScan_handle_iff (h : AgreesWithScan d a) (hgrows : Discovery.Grows d later)
    {e : Event} (he : e.isAboutFiles = true) :
    AgreesWithScan later (a.handle cap later e).2 ↔
      ∀ p, Admits later a p e → ∃ f ∈ a.listed later, (f == p) = true := by
  unfold AgreesWithScan
  rw [listed_handle cap later later a he]
  constructor
  · intro hagrees p hadmits
    exact hagrees p ((resident_handle_iff he).2 (Or.inl hadmits))
  · intro hlisted p hp
    rcases (resident_handle_iff he).1 hp with hadmits | ⟨hbefore, -⟩
    · exact hlisted p hadmits
    · obtain ⟨f, hf, hfp⟩ := h p hbefore
      exact ⟨f, Discovery.discover_grown hgrows.gains hgrows.rules hf, hfp⟩

theorem forall_split_cons {α : Type} {P : List α → α → Prop} {y : α} {ys : List α} :
    (∀ before x rest, y :: ys = before ++ x :: rest → P before x) ↔
      P [] y ∧ ∀ before x rest, ys = before ++ x :: rest → P (y :: before) x := by
  constructor
  · intro h
    refine ⟨h [] y ys rfl, fun before x rest heq => h (y :: before) x rest ?_⟩
    rw [heq, List.cons_append]
  · rintro ⟨hfirst, hlater⟩ before x rest heq
    cases before with
    | nil =>
      cases heq
      exact hfirst
    | cons z before =>
      cases heq
      exact hlater before x rest rfl

/-- The whole run: by induction on the events, from one state that agrees to the next. -/
theorem agreesWithScan_after_iff {run : List (Disk × Event)} (h : AgreesWithScan d a)
    (hrun : ∀ x ∈ run, x.2.isAboutFiles = true)
    (hgrows : (d :: run.map (·.1)).IsChain Discovery.Grows) :
    (∀ before x rest, run = before ++ x :: rest →
        AgreesWithScan x.1 (a.after cap (before ++ [x]))) ↔
      ∀ before x rest, run = before ++ x :: rest → ∀ p, Admits x.1 (a.after cap before) p x.2 →
        ∃ f ∈ (a.after cap before).listed x.1, (f == p) = true := by
  induction run generalizing a d with
  | nil => simp
  | cons y run ih =>
    obtain ⟨hfirst, hchain⟩ := List.isChain_cons_cons.1 hgrows
    have hy : AgreesWithScan y.1 (a.handle cap y.1 y.2).2 ↔
        ∀ p, Admits y.1 a p y.2 → ∃ f ∈ a.listed y.1, (f == p) = true :=
      agreesWithScan_handle_iff h hfirst (hrun y (List.mem_cons_self ..))
    rw [forall_split_cons, forall_split_cons]
    refine (and_congr_right fun hagrees => ?_).trans (and_congr_left' hy)
    exact ih hagrees (fun x hx => hrun x (List.mem_cons_of_mem _ hx)) hchain

/-- After a scan, the editor opens, changes, saves and closes files, and files are said to be created
or changed, while on the disk policy files appear or change their texts. Then events and scans agree
after every event, and a scan would find nothing stale, if and only if every file that an event lets
in is one that discovery lists at that time. -/
theorem events_agree_with_scans_iff (cap : Capabilities σ) (a : Analyzer σ) (d : Disk)
    (run : List (Disk × Event)) (hrun : ∀ x ∈ run, x.2.isAboutFiles = true)
    (hgrows : (d :: run.map (·.1)).IsChain Discovery.Grows) :
    let scanned := (a.handle cap d .scan).2
    (∀ before x rest, run = before ++ x :: rest →
        AgreesWithScan x.1 (scanned.after cap (before ++ [x])) ∧
          (scanned.after cap (before ++ [x])).stale x.1 = []) ↔
      ∀ before x rest, run = before ++ x :: rest →
        ∀ p, Admits x.1 (scanned.after cap before) p x.2 →
          ∃ f ∈ (scanned.after cap before).listed x.1, (f == p) = true := by
  intro scanned
  rw [← agreesWithScan_after_iff (agreesWithScan_scan cap d a) hrun hgrows]
  simp only [stale_eq_nil_iff, and_self, scanned]

/-- A listed file appears, and events and scans go on to agree. Then a file appears in a folder that
is ignored: it is let in, and a scan would forget it. -/
theorem ignored_file_is_let_in :
    let uri (path : String) : Uri := { scheme? := some "file", authority? := some "", path }
    let d₀ : Disk := { entries := [
      (["ws"], .folder), (["ws", ".ignore"], .file "vendor/".toUTF8),
      (["ws", "a.rego"], .file "package a".toUTF8), (["ws", "vendor"], .folder)] }
    let d₁ := d₀.put ["ws", "b.rego"] (.file "package b".toUTF8)
    let d₂ := d₁.put ["ws", "vendor", "lib.rego"] (.file "package lib".toUTF8)
    let a := (fresh ()).after .standard [(d₀, .rootsGiven [⟨"/ws"⟩])]
    let scanned := (a.handle .standard d₀ .scan).2
    let x₁ : Disk × Event := (d₁, .filesChanged [(uri "/ws/b.rego", .created)])
    let x₂ : Disk × Event := (d₂, .filesChanged [(uri "/ws/vendor/lib.rego", .created)])
    AgreesWithScan d₁ (scanned.after .standard [x₁]) ∧
      ¬(∀ before x rest, [x₁, x₂] = before ++ x :: rest →
        AgreesWithScan x.1 (scanned.after .standard (before ++ [x])) ∧
          (scanned.after .standard (before ++ [x])).stale x.1 = []) ∧
      ((scanned.after .standard [x₁, x₂]).stale d₂).map (·.text) = ["/ws/vendor/lib.rego"] := by
  intro uri d₀ d₁ d₂ a scanned x₁ x₂
  have hgrows₁ : Discovery.Grows d₀ d₁ :=
    have hgains : d₀.Gains d₁ := Disk.gains_put (by decide) (Or.inl rfl) _
    ⟨hgains, Discovery.sameRules_of_no_link hgains (by decide)⟩
  have hgrows₂ : Discovery.Grows d₁ d₂ :=
    have hgains : d₁.Gains d₂ := Disk.gains_put (by decide) (Or.inl rfl) _
    ⟨hgains, Discovery.sameRules_of_no_link hgains (by decide)⟩
  have huri₁ : d₁.pathOfUri (uri "/ws/b.rego") = .ok ⟨"/ws/b.rego"⟩ :=
    pathOfUri_of_text (by decide +kernel)
  have huri₂ : d₂.pathOfUri (uri "/ws/vendor/lib.rego") = .ok ⟨"/ws/vendor/lib.rego"⟩ :=
    pathOfUri_of_text (by decide +kernel)
  have hread : d₂.readText ⟨"/ws/vendor/lib.rego"⟩ = .ok "package lib" :=
    toOption_eq_some_iff.1 (by decide +kernel)
  have hlisted : (scanned.listed d₁).any (· == ⟨"/ws/b.rego"⟩) = true := by decide +kernel
  have hunlisted : ((scanned.after .standard [x₁]).listed d₂).any
      (· == ⟨"/ws/vendor/lib.rego"⟩) = false := by decide +kernel
  refine ⟨?_, fun h => ?_, by decide +kernel⟩
  · have hone := events_agree_with_scans_iff .standard a d₀ [x₁] (by decide)
      (.cons_cons hgrows₁ (.singleton _))
    refine (hone.2 (forall_split_cons.2 ⟨?_, by simp⟩) [] x₁ [] rfl).1
    rintro p ⟨⟨c, hc, q, text, ⟨-, hq⟩, hqp, -⟩, -⟩
    rw [List.mem_singleton.1 hc, huri₁] at hq
    cases hq
    obtain ⟨f, hf, hfq⟩ := List.any_eq_true.1 hlisted
    exact ⟨f, hf, BEq.trans hfq hqp⟩
  · have hadmits : Admits d₂ (scanned.after .standard [x₁]) ⟨"/ws/vendor/lib.rego"⟩ x₂.2 :=
      ⟨⟨_, List.mem_singleton_self _, ⟨"/ws/vendor/lib.rego"⟩, _, ⟨Or.inl rfl, huri₂⟩, BEq.rfl,
        by decide +kernel, hread⟩, by decide +kernel⟩
    have htwo := events_agree_with_scans_iff .standard a d₀ [x₁, x₂] (by decide)
      (.cons_cons hgrows₁ (.cons_cons hgrows₂ (.singleton _)))
    obtain ⟨f, hf, hfp⟩ := htwo.1 h [x₁] x₂ [] rfl _ hadmits
    exact absurd hfp (List.any_eq_false.1 hunlisted f hf)

end Analyzer

end PolicyLint
