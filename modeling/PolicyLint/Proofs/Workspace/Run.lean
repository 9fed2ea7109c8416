import PolicyLint.Proofs.Workspace.Work
/-!
# Runs

Every event comes down to passes, and a change of folders is the only one that takes two of them.
What an event does before a pass is little: it marks and knows files, and gives texts to some
(`Prepared`); every file whose text changes, or was not linted yet, is linted by the pass that
follows (`Asked`). So a property of all runs is shown once and for all for a single work, and
`asks_invariant` carries it through every event and every run. Most properties do not depend on how
a work was asked for, only on what came of it (`PassStep`, `history_invariant`).
-/

namespace PolicyLint

/-- The paths an event names itself, apart from the files that are known or discovered. -/
def Event.names (d : Disk) : Event → List Path
  | .opened uri _ | .edited uri _ | .saved uri _ | .closed uri => (d.policyPath? uri).toList
  | .filesChanged changes => d.pathsOfUris (changes.map (·.1))
  | .delete p => [p]
  | _ => []

namespace Analyzer

variable {σ : Type}

/-! ## Single passes -/

/-- Every file that is known or has a text is spelled as `Q` asks for. -/
structure Within (Q : Path → Prop) (a : Analyzer σ) : Prop where
  known : ∀ q ∈ a.layout.known.keys, Q q
  documents : ∀ q ∈ a.store.documents.keys, Q q

/-- `b` comes from `a` by what an event does before a pass. The files in `due` were given texts that
have to be linted. -/
inductive Prepared (Q : Path → Prop) (a : Analyzer σ) : Analyzer σ → List Path → Prop
  | start : Prepared Q a a []
  | rest {b : Analyzer σ} {due : List Path} (h : Prepared Q a b due) (layout : Layout)
      (openFiles : PathSet) (hk : ∀ q ∈ layout.known.keys, Q q) :
      Prepared Q a { b with layout, openFiles } due
  | text {b : Analyzer σ} {due : List Path} (h : Prepared Q a b due) {p : Path} (hp : Q p)
      (text : String) :
      Prepared Q a (b.withText p text) (if b.isDue p text then due ++ [p] else due)

/-- What an event may ask of a pass over `a`: to lint at least what is due, or to lint all files
anew under some settings. -/
inductive Asked (Q : Path → Prop) (a : Analyzer σ) : Work σ → Prop
  | work {b : Analyzer σ} {due toLint deleted : List Path} (h : Prepared Q a b due)
      (hl : ∀ p ∈ due, p ∈ toLint) (hd : ∀ p ∈ deleted, Q p) :
      Asked Q a { start := b, toLint, deleted }
  | relint (settings : Settings) :
      Asked Q a { start := a.dropFindings settings, toLint := a.store.documents.keys }

/-- What comes of one pass over `a`: the pass lints at least what is due, or it lints all files
anew under some settings. -/
inductive PassStep (Q : Path → Prop) (cap : Capabilities σ) (d : Disk) (a : Analyzer σ) :
    List Publication × Analyzer σ → Prop
  | work {b : Analyzer σ} {due toLint deleted : List Path} (h : Prepared Q a b due)
      (hl : ∀ p ∈ due, p ∈ toLint) (hd : ∀ p ∈ deleted, Q p) :
      PassStep Q cap d a (b.pass cap d toLint deleted)
  | relint (settings : Settings) :
      PassStep Q cap d a ((a.dropFindings settings).pass cap d a.store.documents.keys [])

variable {Q : Path → Prop} {cap : Capabilities σ} {d : Disk} {a b : Analyzer σ} {w : Work σ}

theorem Prepared.within {due : List Path} (hw : Within Q a) (h : Prepared Q a b due) :
    Within Q b := by
  induction h with
  | start => exact hw
  | rest h layout openFiles hk ih => exact ⟨hk, ih.documents⟩
  | text h hp text ih =>
    refine ⟨ih.known, fun q hq => ?_⟩
    rcases mem_keys_withText hq with rfl | hq
    · exact hp
    · exact ih.documents q hq

theorem Prepared.published {due : List Path} (h : Prepared Q a b due) :
    b.published = a.published := by
  induction h with
  | start => rfl
  | rest _ _ _ _ ih => exact ih
  | text _ _ _ ih => exact ih

theorem Prepared.settings {due : List Path} (h : Prepared Q a b due) :
    b.settings = a.settings := by
  induction h with
  | start => rfl
  | rest _ _ _ _ ih => exact ih
  | text _ _ _ ih => exact ih

/-- A pass lints nothing only as long as no text changed. -/
theorem Prepared.store_eq {due toLint : List Path} (h : Prepared Q a b due)
    (hl : ∀ p ∈ due, p ∈ toLint) (ht : toLint = []) : b.store = a.store := by
  induction h with
  | start => rfl
  | rest _ _ _ _ ih => exact ih hl
  | @text b due h p hp text ih =>
    cases hdue : b.isDue p text with
    | true =>
      rw [hdue, ht] at hl
      exact absurd (hl p (by simp)) List.not_mem_nil
    | false =>
      rw [hdue] at hl
      rw [store_withText_of_not_isDue hdue]
      exact ih hl

theorem PassStep.within {r : List Publication × Analyzer σ} (hw : Within Q a)
    (h : PassStep Q cap d a r) : Within Q r.2 := by
  cases h with
  | work h hl hd =>
    have := h.within hw
    exact ⟨fun q hq => this.known q (mem_known_pass.1 hq).1,
      fun q hq => this.documents q (mem_keys_pass.1 hq).1⟩
  | relint settings =>
    refine ⟨fun q hq => hw.known q ?_, fun q hq => hw.documents q ?_⟩
    · exact (mem_known_pass.1 hq).1
    · exact (mem_keys_pass.1 hq).1

theorem Asked.passStep (cap : Capabilities σ) (d : Disk) (h : Asked Q a w) :
    PassStep Q cap d a (w.run cap d) := by
  cases h with
  | work h hl hd => exact .work h hl hd
  | relint settings => exact .relint settings

/-- To lint what is due, over what an event prepared, is asked for. -/
theorem Asked.of_prepared {due : List Path} (h : Prepared Q a b due) :
    Asked Q a { start := b, toLint := due } :=
  .work h (fun _ h => h) (by simp)

/-! ## What each event asks for -/

theorem known_addKnown {p : Path} (hw : Within Q a) (hp : Q p) :
    ∀ q ∈ (a.addKnown p).layout.known.keys, Q q := by
  intro q hq
  unfold addKnown Layout.addFile at hq
  split at hq
  · rcases PathSet.mem_keys_add hq with rfl | hq
    · exact hp
    · exact hw.known q hq
  · exact hw.known q hq

theorem Prepared.addKnown {due : List Path} {p : Path} (hw : Within Q a)
    (h : Prepared Q a b due) (hp : Q p) : Prepared Q a (b.addKnown p) due :=
  h.rest (b.addKnown p).layout b.openFiles (known_addKnown (h.within hw) hp)

theorem Prepared.setOpen {due : List Path} (hw : Within Q a) (h : Prepared Q a b due)
    (openFiles : PathSet) : Prepared Q a { b with openFiles } due :=
  h.rest b.layout openFiles (h.within hw).known

theorem Asked.giveText {p : Path} (text : String) (h : Prepared Q a b []) (hp : Q p) :
    Asked Q a (b.giveText p text) :=
  .of_prepared (h.text hp text)

theorem asked_closing {p : Path} (hw : Within Q a) (hp : Q p) : Asked Q a (a.closing d p) := by
  have h : Prepared Q a (a.markClosed p) [] := Prepared.start.setOpen hw _
  unfold closing
  split
  · split
    · exact .giveText _ h hp
    · exact .of_prepared h
  · exact .work h (by simp) (by simpa using hp)

/-- A batch that starts from `a` is prepared for its pass. -/
structure Ready (Q : Path → Prop) (a : Analyzer σ) (b : Batch σ) : Prop where
  prepared : Prepared Q a b.analyzer b.toLint
  deleted : ∀ p ∈ b.deleted, Q p

theorem ready_load {b : Batch σ} {p : Path} (hw : Within Q a) (h : Ready Q a b) (hp : Q p) :
    Ready Q a (b.load d p) := by
  unfold Batch.load
  split
  · exact h
  · rw [reload_eq]
    cases d.readText p with
    | error fault => exact h
    | ok text => exact ⟨(h.prepared.text hp text).addKnown hw hp, h.deleted⟩

theorem ready_delete {b : Batch σ} {p : Path} (hw : Within Q a) (h : Ready Q a b) :
    Ready Q a (b.delete p) := by
  refine ⟨h.prepared, fun q hq => ?_⟩
  have hb := h.prepared.within hw
  rcases List.mem_append.1 hq with hq | hq
  · exact h.deleted q hq
  · rcases List.mem_append.1 (List.mem_filter.1 hq).1 with hq | hq
    · exact hb.known q (List.mem_filter.1 hq).1
    · exact hb.documents q (List.mem_filter.1 hq).1

theorem ready_add {b : Batch σ} {c : Uri × Change} (hw : Within Q a) (h : Ready Q a b)
    (hc : ∀ p, d.pathOfUri c.1 = .ok p → Q p) : Ready Q a (b.add d c) := by
  unfold Batch.add
  cases hp : d.pathOfUri c.1 with
  | error e => exact h
  | ok p =>
    dsimp only
    split
    · exact h
    · cases c.2 with
      | created => exact ready_load hw h (hc p hp)
      | changed => exact ready_load hw h (hc p hp)
      | deleted => exact ready_delete hw h
      | other => exact h

theorem ready_filesChanged {changes : List (Uri × Change)} {b : Batch σ} (hw : Within Q a)
    (h : Ready Q a b) (hn : ∀ p ∈ d.pathsOfUris (changes.map (·.1)), Q p) :
    Ready Q a (changes.foldl (Batch.add d) b) := by
  induction changes generalizing b with
  | nil => exact h
  | cons c cs ih =>
    refine ih (ready_add hw h fun p hp => hn p ?_) fun p hp => hn p ?_
    · simp [Disk.pathsOfUris, hp, Except.toOption]
    · obtain ⟨u, hu, hup⟩ := List.mem_filterMap.1 hp
      exact List.mem_filterMap.2 ⟨u, by simpa using Or.inr (by simpa using hu), hup⟩

theorem asked_filesWork {changes : List (Uri × Change)} (hw : Within Q a)
    (hn : ∀ p ∈ d.pathsOfUris (changes.map (·.1)), Q p) : Asked Q a (a.filesWork d changes) := by
  have h : Ready Q a (a.batch d changes) :=
    ready_filesChanged (b := { analyzer := a }) hw ⟨.start, by simp⟩ hn
  exact .work h.prepared (fun _ h => h) fun p hp =>
    h.deleted p (PathSet.mem_of_mem_keys_ofList hp)

theorem ready_scan {b : Batch σ} {p : Path} (h : Ready Q a b) (hp : Q p) :
    Ready Q a (b.scan d p) := by
  unfold Batch.scan
  split
  · exact h
  · rw [reload_eq]
    cases d.readText p with
    | error fault => exact h
    | ok text => exact ⟨h.prepared.text hp text, h.deleted⟩

theorem ready_foldl_scan {ps : List Path} {b : Batch σ} (h : Ready Q a b) (hps : ∀ p ∈ ps, Q p) :
    Ready Q a (ps.foldl (Batch.scan d) b) := by
  induction ps generalizing b with
  | nil => exact h
  | cons p ps ih => exact ih (ready_scan h (hps p (by simp))) fun q hq => hps q (by simp [hq])

theorem asked_scanWork (hw : Within Q a) (h : Prepared Q a b [])
    (hdisc : ∀ roots, ∀ p ∈ Discovery.discover d roots, Q p) : Asked Q a (b.scanWork d) := by
  have hfiles : ∀ p ∈ (b.layout.discover d).1, Q p := hdisc b.layout.roots.keys
  have hstart : Prepared Q a (b.discovered d) [] :=
    h.rest _ b.openFiles fun q hq => hfiles q (PathSet.mem_of_mem_keys_ofList hq)
  have hscan : Ready Q a ((b.layout.discover d).1.foldl (Batch.scan d)
      { analyzer := b.discovered d }) :=
    ready_foldl_scan ⟨hstart, by simp⟩ hfiles
  exact .work hscan.prepared (fun _ h => h) fun p hp =>
    (h.within hw).documents p (List.mem_filter.1 hp).1

theorem dropRoot_within {acc : List Path × Layout} {root : Path}
    (hd : ∀ q ∈ acc.1, Q q) (hk : ∀ q ∈ acc.2.known.keys, Q q) :
    (∀ q ∈ (dropRoot acc root).1, Q q) ∧ ∀ q ∈ (dropRoot acc root).2.known.keys, Q q := by
  constructor
  · intro q hq
    rcases List.mem_append.1 hq with hq | hq
    · exact hd q hq
    · exact hk q (List.mem_filter.1 hq).1
  · intro q hq
    exact hk q (PathMap.mem_keys_filter hq)

theorem foldl_dropRoot_within {roots : List Path} {acc : List Path × Layout}
    (hd : ∀ q ∈ acc.1, Q q) (hk : ∀ q ∈ acc.2.known.keys, Q q) :
    (∀ q ∈ (roots.foldl dropRoot acc).1, Q q) ∧
      ∀ q ∈ (roots.foldl dropRoot acc).2.known.keys, Q q := by
  induction roots generalizing acc with
  | nil => exact ⟨hd, hk⟩
  | cons root roots ih =>
    have h : (∀ q ∈ (dropRoot acc root).1, Q q) ∧
        ∀ q ∈ (dropRoot acc root).2.known.keys, Q q := dropRoot_within hd hk
    exact ih h.1 h.2

theorem asked_removalWork {roots : List Path} (hw : Within Q a) :
    Asked Q a (a.removalWork roots) := by
  have h : (∀ q ∈ (roots.foldl dropRoot ([], a.layout)).1, Q q) ∧
      ∀ q ∈ (roots.foldl dropRoot ([], a.layout)).2.known.keys, Q q :=
    foldl_dropRoot_within (by simp) hw.known
  exact .work (Prepared.start.rest _ a.openFiles h.2) (by simp)
    fun p hp => h.1 p (List.mem_filter.1 hp).1

theorem known_addRoots (l : Layout) (roots : List Path) : (l.addRoots roots).known = l.known := by
  induction roots generalizing l with
  | nil => rfl
  | cons root roots ih => exact ih (l.addRoot root)

theorem Prepared.addRoots (hw : Within Q a) (roots : List Path) :
    Prepared Q a (a.addRoots roots).2 [] := by
  refine Prepared.start.rest _ a.openFiles fun q hq => hw.known q ?_
  rwa [known_addRoots] at hq

theorem asked_additionWork {roots : List Path} (hw : Within Q a)
    (hdisc : ∀ roots, ∀ p ∈ Discovery.discover d roots, Q p) :
    Asked Q a (a.additionWork d roots) := by
  have h : Prepared Q a (a.addRoots roots).2 [] := .addRoots hw roots
  unfold additionWork
  split
  · exact asked_scanWork hw h hdisc
  · exact .of_prepared h

/-- What an event asks for, it asks of a pass over a state prepared for it. -/
theorem asked_work {e : Event} (hw : Within Q a) (hn : ∀ p ∈ e.names d, Q p)
    (hdisc : ∀ roots, ∀ p ∈ Discovery.discover d roots, Q p) : Asked Q a (a.work d e) := by
  have hidle : Asked Q a { start := a } := .of_prepared .start
  have hopen : ∀ p, Prepared Q a (a.markOpen p) [] := fun p => Prepared.start.setOpen hw _
  cases e with
  | opened uri text =>
    rw [work]
    cases hp : d.policyPath? uri with
    | none => exact hidle
    | some p =>
      have hq : Q p := hn p (by simp [Event.names, hp])
      exact .giveText text ((hopen p).addKnown hw hq) hq
  | edited uri text =>
    rw [work]
    cases hp : d.policyPath? uri with
    | none => exact hidle
    | some p => exact .giveText text (hopen p) (hn p (by simp [Event.names, hp]))
  | saved uri text? =>
    rw [work]
    cases hp : d.policyPath? uri with
    | none => exact hidle
    | some p =>
      cases text? with
      | none => exact hidle
      | some text => exact .giveText text .start (hn p (by simp [Event.names, hp]))
  | closed uri =>
    rw [work]
    cases hp : d.policyPath? uri with
    | none => exact hidle
    | some p => exact asked_closing hw (hn p (by simp [Event.names, hp]))
  | filesChanged changes => exact asked_filesWork hw hn
  | foldersChanged added removed => exact asked_removalWork hw
  | rootsGiven roots => exact .of_prepared (.addRoots hw roots)
  | scan => exact asked_scanWork hw .start hdisc
  | lint paths => exact .work .start (by simp) (by simp)
  | relint => exact .relint a.settings
  | configure settings =>
    rw [work]
    split
    · exact hidle
    · exact .relint settings
  | delete p =>
    have hd : ∀ q ∈ [p], Q q := hn
    exact .work (Prepared.start.setOpen hw _) (by simp) hd

/-! ## Runs -/

/-- The passes that an event takes, in order: what each publishes, and the analyzer after it. -/
def passes (cap : Capabilities σ) (d : Disk) (a : Analyzer σ) :
    Event → List (List Publication × Analyzer σ)
  | .foldersChanged added removed =>
    let first := a.rootsRemoved cap d (d.pathsOfUris removed)
    [first, first.2.rootsAdded cap d (d.pathsOfUris added)]
  | e => [a.handle cap d e]

/-- An event publishes what its passes publish, and ends where the last of them does. -/
theorem handle_eq (cap : Capabilities σ) (d : Disk) (a : Analyzer σ) (e : Event) :
    a.handle cap d e =
      ((a.passes cap d e).flatMap (·.1), (((a.passes cap d e).getLast?.map (·.2)).getD a)) := by
  cases e <;> simp [handle, passes, foldersChanged]

/-- The passes of an event are what comes of its works. -/
theorem passes_eq (cap : Capabilities σ) (d : Disk) (a : Analyzer σ) (e : Event) :
    a.passes cap d e = (a.works cap d e).map (·.run cap d) := by
  by_cases he : ∃ added removed, e = .foldersChanged added removed
  · obtain ⟨added, removed, rfl⟩ := he
    change [_, _] = [_, _]
    rw [rootsAdded_eq_run]
    rfl
  · replace he : ∀ added removed, e ≠ .foldersChanged added removed :=
      fun added removed h => he ⟨added, removed, h⟩
    have hp : a.passes cap d e = [a.handle cap d e] := by
      cases e
      case foldersChanged added removed => exact absurd rfl (he added removed)
      all_goals rfl
    rw [hp, works_eq_singleton a he, handle_eq_run a he]
    rfl

/-- An analyzer that has seen no event. -/
def fresh (host : σ) : Analyzer σ := { host }

/-- The analyzer after a run: events in order, each with the disk at its time. -/
def after (cap : Capabilities σ) (a : Analyzer σ) (run : List (Disk × Event)) : Analyzer σ :=
  run.foldl (fun a x => (a.handle cap x.1 x.2).2) a

theorem after_append (cap : Capabilities σ) (a : Analyzer σ) (run later : List (Disk × Event)) :
    a.after cap (run ++ later) = (a.after cap run).after cap later :=
  List.foldl_append

/-- All passes of a run, in order. -/
def history (cap : Capabilities σ) (a : Analyzer σ) :
    List (Disk × Event) → List (List Publication × Analyzer σ)
  | [] => []
  | (d, e) :: run => a.passes cap d e ++ history cap (a.handle cap d e).2 run

/-- All works of a run, in order, each with the disk at its time. -/
def asks (cap : Capabilities σ) (a : Analyzer σ) : List (Disk × Event) → List (Disk × Work σ)
  | [] => []
  | (d, e) :: run => (a.works cap d e).map (d, ·) ++ asks cap (a.handle cap d e).2 run

def publications (cap : Capabilities σ) (a : Analyzer σ) : List (Disk × Event) → List Publication
  | [] => []
  | (d, e) :: run =>
    (a.handle cap d e).1 ++ publications cap (a.handle cap d e).2 run

theorem publications_eq (cap : Capabilities σ) (a : Analyzer σ) (run : List (Disk × Event)) :
    a.publications cap run = (a.history cap run).flatMap (·.1) := by
  induction run generalizing a with
  | nil => rfl
  | cons x run ih =>
    rw [publications, history, List.flatMap_append, ih]
    exact congrArg (· ++ _) (congrArg Prod.fst (handle_eq cap x.1 a x.2))

theorem history_eq (cap : Capabilities σ) (a : Analyzer σ) (run : List (Disk × Event)) :
    a.history cap run = (a.asks cap run).map fun x => x.2.run cap x.1 := by
  induction run generalizing a with
  | nil => rfl
  | cons x run ih =>
    rw [history, asks, List.map_append, ih, passes_eq, List.map_map]
    rfl

section

variable {γ : Type} {f : γ → Disk × Work σ → γ} {I : γ → Analyzer σ → Prop}

/-- What every work preserves, every event preserves; `g` gathers what the works say. -/
theorem works_invariant
    (hstep : ∀ d a g w, Within Q a → I g a → Asked Q a w → I (f g (d, w)) (w.run cap d).2)
    (hw : Within Q a) {e : Event} (hn : ∀ p ∈ e.names d, Q p)
    (hdisc : ∀ roots, ∀ p ∈ Discovery.discover d roots, Q p) {g : γ} (h : I g a) :
    I (((a.works cap d e).map (d, ·)).foldl f g) (a.handle cap d e).2 ∧
      Within Q (a.handle cap d e).2 := by
  have hfirst : Asked Q a (a.work d e) := asked_work hw hn hdisc
  have h1 := hstep d a g _ hw h hfirst
  have hw1 := (hfirst.passStep cap d).within hw
  by_cases he : ∃ added removed, e = .foldersChanged added removed
  · obtain ⟨added, removed, rfl⟩ := he
    have hsecond : Asked Q _ (Analyzer.additionWork d _ (d.pathsOfUris added)) :=
      asked_additionWork hw1 hdisc
    have h2 := hstep d _ _ _ hw1 h1 hsecond
    have hw2 := (hsecond.passStep cap d).within hw1
    rw [← rootsAdded_eq_run] at h2 hw2
    exact ⟨h2, hw2⟩
  · replace he : ∀ added removed, e ≠ .foldersChanged added removed :=
      fun added removed h => he ⟨added, removed, h⟩
    rw [works_eq_singleton a he, handle_eq_run a he]
    exact ⟨h1, hw1⟩

/-- What every work preserves holds after every run. -/
theorem asks_invariant
    (hstep : ∀ d a g w, Within Q a → I g a → Asked Q a w → I (f g (d, w)) (w.run cap d).2)
    (hdisc : ∀ d roots, ∀ p ∈ Discovery.discover d roots, Q p) (hw : Within Q a)
    {run : List (Disk × Event)} (hn : ∀ x ∈ run, ∀ p ∈ x.2.names x.1, Q p) {g : γ} (h : I g a) :
    I ((a.asks cap run).foldl f g) (a.after cap run) ∧ Within Q (a.after cap run) := by
  induction run generalizing a g with
  | nil => exact ⟨h, hw⟩
  | cons x run ih =>
    obtain ⟨d, e⟩ := x
    obtain ⟨h1, hw1⟩ := works_invariant hstep hw (hn _ (List.mem_cons_self ..)) (hdisc d) h
    rw [asks, List.foldl_append]
    exact ih hw1 (fun y hy => hn y (List.mem_cons_of_mem _ hy)) h1

end

/-- Files that are known or have a text are spelled as the events spell them, or as discovery does. -/
theorem within_after (hdisc : ∀ d roots, ∀ p ∈ Discovery.discover d roots, Q p)
    (hw : Within Q a) {run : List (Disk × Event)} (hn : ∀ x ∈ run, ∀ p ∈ x.2.names x.1, Q p) :
    Within Q (a.after cap run) :=
  (asks_invariant (f := fun (_ : Unit) _ => ()) (g := ()) (I := fun _ _ => True)
    (fun _ _ _ _ _ _ _ => trivial) hdisc hw hn trivial).2

/-- What every pass preserves holds after every run. -/
theorem history_invariant {γ : Type} {f : γ → List Publication × Analyzer σ → γ}
    {I : γ → Analyzer σ → Prop}
    (hstep : ∀ d a g r, Within Q a → I g a → PassStep Q cap d a r → I (f g r) r.2)
    (hdisc : ∀ d roots, ∀ p ∈ Discovery.discover d roots, Q p) (hw : Within Q a)
    {run : List (Disk × Event)} (hn : ∀ x ∈ run, ∀ p ∈ x.2.names x.1, Q p) {g : γ} (h : I g a) :
    I ((a.history cap run).foldl f g) (a.after cap run) ∧ Within Q (a.after cap run) := by
  rw [history_eq, List.foldl_map]
  exact asks_invariant (f := fun g x => f g (x.2.run cap x.1))
    (fun d a g w hw hg hask => hstep d a g _ hw hg (hask.passStep cap d)) hdisc hw hn h

end Analyzer

end PolicyLint
