import PolicyLint.Proofs.Workspace.Run
/-!
# What an event looks at before its passes

The findings across files, what was published and the state of the capabilities are written by
passes alone, and nothing that comes before a pass reads them. So an event asks for the same work
over two analyzers that differ in nothing else, and the work differs in nothing else either
(`work_recast`). Neither does linting look at the first two (`lintFile_recast`).

An analyzer recast with its own parts is itself, so these parts are also what they were before
(`crossFindings_work`, `host_work`, `crossFindings_foldl_lintFile`).
-/

namespace PolicyLint

variable {σ τ : Type}

/-- Whether an event drops all findings and lints every file anew. -/
def Event.isRelint : Event → Bool
  | .relint | .configure _ => true
  | _ => false

def Store.recast (s : Store) (crossFindings : PathMap (List Diagnostic)) : Store :=
  { s with crossFindings }

theorem Store.updateText_recast (s : Store) (x : PathMap (List Diagnostic)) (p : Path)
    (text : String) : (s.recast x).updateText p text = (s.updateText p text).recast x := by
  have hholds : (s.recast x).holds p text = s.holds p text := rfl
  unfold updateText
  rw [hholds]
  split <;> rfl

namespace Analyzer

/-- The analyzer with other findings across files, other publications and another state of the
capabilities. -/
def recast (a : Analyzer σ) (crossFindings : ByFile) (published : Published) (host : τ) :
    Analyzer τ :=
  { store := a.store.recast crossFindings, settings := a.settings, layout := a.layout,
    openFiles := a.openFiles, published, host }

def Batch.recast (b : Batch σ) (x : ByFile) (u : Published) (h : τ) : Batch τ :=
  { analyzer := b.analyzer.recast x u h, toLint := b.toLint, deleted := b.deleted }

end Analyzer

def Work.recast (w : Work σ) (x : Analyzer.ByFile) (u : Published) (h : τ) : Work τ :=
  { start := w.start.recast x u h, toLint := w.toLint, deleted := w.deleted }

namespace Analyzer

/-! ## The works of events -/

variable {d : Disk} {x : ByFile} {u : Published} {h : τ}

theorem withText_recast (a : Analyzer σ) (p : Path) (text : String) :
    (a.recast x u h).withText p text = (a.withText p text).recast x u h :=
  congrArg (fun s => { a.recast x u h with store := s })
    (a.store.updateText_recast x p text)

theorem isDue_recast (a : Analyzer σ) (p : Path) (text : String) :
    (a.recast x u h).isDue p text = a.isDue p text := by
  rw [isDue, withText_recast]
  rfl

theorem giveText_recast (a : Analyzer σ) (p : Path) (text : String) :
    (a.recast x u h).giveText p text = (a.giveText p text).recast x u h := by
  rw [giveText, isDue_recast, withText_recast]
  rfl

theorem closing_recast (a : Analyzer σ) (p : Path) :
    (a.recast x u h).closing d p = (a.closing d p).recast x u h := by
  have hclosed : (a.recast x u h).markClosed p = (a.markClosed p).recast x u h := rfl
  unfold closing
  rw [hclosed]
  split
  · split
    · exact giveText_recast ..
    · rfl
  · rfl

theorem reload_recast (a : Analyzer σ) (p : Path) :
    (a.recast x u h).reload d p = ((a.reload d p).1, (a.reload d p).2.recast x u h) := by
  rw [reload_eq, reload_eq]
  cases d.readText p with
  | error fault => rfl
  | ok text =>
    dsimp only
    rw [isDue_recast, withText_recast]

theorem load_recast (b : Batch σ) (p : Path) :
    (b.recast x u h).load d p = (b.load d p).recast x u h := by
  have hreload : (b.recast x u h).analyzer.reload d p = _ := reload_recast b.analyzer p
  have hopen : (b.recast x u h).analyzer.openFiles = b.analyzer.openFiles := rfl
  unfold Batch.load
  rw [hopen, hreload]
  split
  · rfl
  · rcases b.analyzer.reload d p with ⟨fault | needs, a⟩ <;> rfl

theorem scan_recast (b : Batch σ) (p : Path) :
    (b.recast x u h).scan d p = (b.scan d p).recast x u h := by
  have hreload : (b.recast x u h).analyzer.reload d p = _ := reload_recast b.analyzer p
  have hopen : (b.recast x u h).analyzer.openFiles = b.analyzer.openFiles := rfl
  unfold Batch.scan
  rw [hopen, hreload]
  split
  · rfl
  · rcases b.analyzer.reload d p with ⟨fault | needs, a⟩ <;> rfl

theorem add_recast (b : Batch σ) (c : Uri × Change) :
    (b.recast x u h).add d c = (b.add d c).recast x u h := by
  unfold Batch.add
  cases d.pathOfUri c.1 with
  | error fault => rfl
  | ok p =>
    dsimp only
    split
    · rfl
    · cases c.2 with
      | created => exact load_recast b p
      | changed => exact load_recast b p
      | deleted => rfl
      | other => rfl

theorem filesWork_recast (a : Analyzer σ) (changes : List (Uri × Change)) :
    (a.recast x u h).filesWork d changes = (a.filesWork d changes).recast x u h := by
  have hbatch : (a.recast x u h).batch d changes = (a.batch d changes).recast x u h := by
    change changes.foldl (Batch.add d) (Batch.recast { analyzer := a } x u h) = _
    rw [List.foldl_hom (Batch.recast · x u h) fun b c => add_recast b c]
    rfl
  rw [filesWork, hbatch]
  rfl

theorem scanWork_recast (a : Analyzer σ) :
    (a.recast x u h).scanWork d = (a.scanWork d).recast x u h := by
  have hbatch (files : List Path) : files.foldl (Batch.scan d)
        { analyzer := (a.recast x u h).discovered d } =
      (files.foldl (Batch.scan d) { analyzer := a.discovered d }).recast x u h := by
    change files.foldl (Batch.scan d) (Batch.recast { analyzer := a.discovered d } x u h) = _
    rw [List.foldl_hom (Batch.recast · x u h) fun b p => scan_recast b p]
  rw [scanWork, hbatch]
  rfl

theorem additionWork_recast (a : Analyzer σ) (roots : List Path) :
    (a.recast x u h).additionWork d roots = (a.additionWork d roots).recast x u h := by
  have hroots : (a.recast x u h).addRoots roots =
      ((a.addRoots roots).1, (a.addRoots roots).2.recast x u h) := rfl
  unfold additionWork
  rw [hroots]
  split
  · exact scanWork_recast _
  · rfl

/-- An event that does not lint everything anew asks for a work that does not depend on the findings
across files, on what was published, or on the state of the capabilities. -/
theorem work_recast (a : Analyzer σ) {e : Event} (he : e.isRelint = false) :
    (a.recast x u h).work d e = (a.work d e).recast x u h := by
  cases e with
  | opened uri text =>
    rw [work, work]
    cases d.policyPath? uri with
    | none => rfl
    | some p => exact giveText_recast (addKnown (a.markOpen p) p) p text
  | edited uri text =>
    rw [work, work]
    cases d.policyPath? uri with
    | none => rfl
    | some p => exact giveText_recast (a.markOpen p) p text
  | saved uri text? =>
    rw [work, work]
    cases d.policyPath? uri with
    | none => rfl
    | some p =>
      cases text? with
      | none => rfl
      | some text => exact giveText_recast a p text
  | closed uri =>
    rw [work, work]
    cases d.policyPath? uri with
    | none => rfl
    | some p => exact closing_recast a p
  | filesChanged changes => exact filesWork_recast a changes
  | scan => exact scanWork_recast a
  | relint => cases he
  | configure settings => cases he
  | _ => rfl

/-- No event changes the findings across files before its pass, unless it drops them all. -/
theorem crossFindings_work (a : Analyzer σ) {e : Event} (he : e.isRelint = false) :
    (a.work d e).start.store.crossFindings = a.store.crossFindings :=
  congrArg (·.start.store.crossFindings)
    (work_recast (x := a.store.crossFindings) (u := a.published) (h := a.host) a he)

theorem crossFindings_additionWork (a : Analyzer σ) (roots : List Path) :
    (a.additionWork d roots).start.store.crossFindings = a.store.crossFindings :=
  congrArg (·.start.store.crossFindings)
    (additionWork_recast (x := a.store.crossFindings) (u := a.published) (h := a.host) a roots)

/-- Over an analyzer recast, any event asks for what it would ask for, recast in some way. -/
theorem exists_work_recast (x : ByFile) (u : Published) (h : τ) (a : Analyzer σ) (e : Event) :
    ∃ x', (a.recast x u h).work d e = (a.work d e).recast x' u h := by
  cases he : e.isRelint with
  | false => exact ⟨x, work_recast a he⟩
  | true =>
    cases e with
    | relint => exact ⟨.empty, rfl⟩
    | configure settings =>
      by_cases hs : a.settings = settings
      · refine ⟨x, ?_⟩
        rw [work, work, if_pos hs]
        exact if_pos hs
      · refine ⟨.empty, ?_⟩
        rw [work, work, if_neg hs]
        exact if_neg hs
    | _ => cases he

theorem host_work (d : Disk) (a : Analyzer σ) (e : Event) : (a.work d e).start.host = a.host := by
  obtain ⟨x, hself⟩ := exists_work_recast (d := d) a.store.crossFindings a.published a.host a e
  exact congrArg (·.start.host) hself

theorem host_additionWork (d : Disk) (a : Analyzer σ) (roots : List Path) :
    (a.additionWork d roots).start.host = a.host :=
  congrArg (·.start.host)
    (additionWork_recast (x := a.store.crossFindings) (u := a.published) (h := a.host) a roots)

/-! ## Linting -/

end Analyzer

/-- The outcome as it looks from a part of the state. -/
def Outcome.map {α : Type} (f : σ → τ) (out : Outcome σ α) : Outcome τ α :=
  { value := out.value, edits := out.edits, host := f out.host }

/-- `cap'` parses and lints as `cap` does, from the part of the state that `f` gives. -/
structure Capabilities.LintsAlike (f : σ → τ) (cap : Capabilities σ) (cap' : Capabilities τ) :
    Prop where
  parse : ∀ host p text, cap'.parse (f host) p text = (cap.parse host p text).map f
  lint : ∀ host p m text s, cap'.lint (f host) p m text s = (cap.lint host p m text s).map f

theorem Capabilities.lintsAlike_self (cap : Capabilities σ) : cap.LintsAlike id cap :=
  ⟨fun _ _ _ => rfl, fun _ _ _ _ _ => rfl⟩

namespace Analyzer

theorem takeEdits_recast (a : Analyzer σ) (p : Path) (edits : List String) (g : σ) (h' : τ) :
    (a.recast x u h).takeEdits p edits h' = (a.takeEdits p edits g).recast x u h' := by
  have hstore : edits.foldl (fun s text => s.updateText p text) (a.store.recast x) = _ :=
    List.foldl_hom (Store.recast · x) fun s text => s.updateText_recast x p text
  exact congrArg (fun s => { a.recast x u h' with store := s }) hstore

variable {f : σ → τ} {cap : Capabilities σ} {cap' : Capabilities τ}

theorem moduleOf_recast (hcap : cap.LintsAlike f cap') (a : Analyzer σ) (p : Path) (text : String) :
    (a.recast x u (f a.host)).moduleOf cap' p text =
      ((a.moduleOf cap p text).1,
        (a.moduleOf cap p text).2.recast x u (f (a.moduleOf cap p text).2.host)) := by
  have hmodules : (a.recast x u (f a.host)).store.modules = a.store.modules := rfl
  have hhost : (a.recast x u (f a.host)).host = f a.host := rfl
  unfold moduleOf
  rw [hmodules, hhost, hcap.parse]
  cases a.store.modules.get? p with
  | some m => rfl
  | none => exact Prod.ext rfl (takeEdits_recast a p _ _ _)

/-- Linting does not look at the findings across files, nor at what was published. -/
theorem lintFile_recast (hcap : cap.LintsAlike f cap') (a : Analyzer σ) (p : Path) :
    (a.recast x u (f a.host)).lintFile cap' p =
      (a.lintFile cap p).recast x u (f (a.lintFile cap p).host) := by
  have hdocuments : (a.recast x u (f a.host)).store.documents = a.store.documents := rfl
  unfold lintFile
  rw [hdocuments]
  cases a.store.documents.get? p with
  | none => rfl
  | some text =>
    dsimp only
    rw [moduleOf_recast hcap]
    rcases a.moduleOf cap p text with ⟨errors | m, b⟩
    · have hholds : (b.recast x u (f b.host)).store.holds p text = b.store.holds p text := rfl
      dsimp only
      rw [hholds]
      cases b.store.holds p text <;> rfl
    · have hlint : cap'.lint (b.recast x u (f b.host)).host p m text
          (b.recast x u (f b.host)).settings = _ := hcap.lint b.host p m text b.settings
      dsimp only
      rw [hlint]
      rcases cap.lint b.host p m text b.settings with ⟨fault | report, edits, host⟩
      · exact takeEdits_recast b p edits host (f host)
      · have hedits : (b.recast x u (f b.host)).takeEdits p edits (f host) =
            (b.takeEdits p edits host).recast x u (f host) := takeEdits_recast ..
        refine (congrArg (fun b => if b.store.holds p text = true then b.noteReport p m report
          else b) hedits).trans ?_
        dsimp only
        by_cases hholds : (b.takeEdits p edits host).store.holds p text = true
        · rw [if_pos hholds]
          exact if_pos hholds
        · rw [if_neg hholds]
          exact if_neg hholds

theorem foldl_lintFile_recast (hcap : cap.LintsAlike f cap') (ps : List Path) (a : Analyzer σ) :
    ps.foldl (lintFile cap') (a.recast x u (f a.host)) =
      (ps.foldl (lintFile cap) a).recast x u (f (ps.foldl (lintFile cap) a).host) :=
  List.foldl_hom (fun a : Analyzer σ => a.recast x u (f a.host)) fun a p => lintFile_recast hcap a p

theorem crossFindings_foldl_lintFile (cap : Capabilities σ) (ps : List Path) (a : Analyzer σ) :
    (ps.foldl (lintFile cap) a).store.crossFindings = a.store.crossFindings := by
  have hself := foldl_lintFile_recast (x := a.store.crossFindings) (u := a.published)
    cap.lintsAlike_self ps a
  exact congrArg (·.store.crossFindings) hself

/-- Forgetting takes the files out of the findings across files, whatever these are. -/
theorem exists_foldl_forget_recast (ps : List Path) (a : Analyzer σ) (x : ByFile) (u : Published)
    (h : τ) : ∃ x', ps.foldl forget (a.recast x u h) = (ps.foldl forget a).recast x' u h := by
  induction ps generalizing a x with
  | nil => exact ⟨x, rfl⟩
  | cons p ps ih => exact ih (a.forget p) (x.erase p)

end Analyzer

end PolicyLint
