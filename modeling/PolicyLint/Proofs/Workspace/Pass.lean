import PolicyLint.Proofs.Workspace.CrossFindings
/-!
# What a pass does

A pass forgets files, lints files, recomputes the findings across files and publishes. Whatever the
capabilities do, the files that have a text after a pass are those that had one before and were not
forgotten (`mem_keys_pass`). With the standard capabilities the record of every file after a pass
is given by its record before (`file_pass`).
-/

namespace PolicyLint.Analyzer

variable {σ : Type}

/-! ## Forgetting -/

theorem file_foldl_forget (ps : List Path) (a : Analyzer σ) (q : Path) :
    (ps.foldl forget a).store.file q = if ps.any (· == q) then {} else a.store.file q := by
  induction ps generalizing a with
  | nil => rfl
  | cons p ps ih =>
    rw [List.foldl_cons, ih, List.any_cons]
    change (if _ then _ else (a.store.delete p).file q) = _
    rw [Store.file_delete]
    cases p == q <;> cases ps.any (· == q) <;> rfl

theorem foldl_forget_eq (ps : List Path) (a : Analyzer σ) :
    ps.foldl forget a =
      { a with layout := (ps.foldl forget a).layout, store := (ps.foldl forget a).store } := by
  induction ps generalizing a with
  | nil => rfl
  | cons p ps ih => exact ih (a.forget p)

theorem settings_foldl_forget (ps : List Path) (a : Analyzer σ) :
    (ps.foldl forget a).settings = a.settings :=
  congrArg (·.settings) (foldl_forget_eq ps a)

theorem openFiles_foldl_forget (ps : List Path) (a : Analyzer σ) :
    (ps.foldl forget a).openFiles = a.openFiles :=
  congrArg (·.openFiles) (foldl_forget_eq ps a)

theorem published_foldl_forget (ps : List Path) (a : Analyzer σ) :
    (ps.foldl forget a).published = a.published :=
  congrArg (·.published) (foldl_forget_eq ps a)

theorem host_foldl_forget (ps : List Path) (a : Analyzer σ) :
    (ps.foldl forget a).host = a.host :=
  congrArg (·.host) (foldl_forget_eq ps a)

theorem layout_foldl_forget {ps : List Path} {a : Analyzer σ}
    (h : ∀ p ∈ ps, a.layout.known.contains p = false) :
    (ps.foldl forget a).layout = a.layout := by
  induction ps generalizing a with
  | nil => rfl
  | cons p ps ih =>
    have hlayout : (a.forget p).layout = a.layout := by
      change { a.layout with known := a.layout.known.erase p } = a.layout
      rw [PathMap.erase_of_not_contains (h p (List.mem_cons_self ..))]
    rw [List.foldl_cons, ih, hlayout]
    rw [hlayout]
    exact fun q hq => h q (List.mem_cons_of_mem _ hq)

theorem mem_documents_foldl_forget {ps : List Path} {a : Analyzer σ} {q : Path} :
    q ∈ (ps.foldl forget a).store.documents.keys ↔
      q ∈ a.store.documents.keys ∧ ∀ p ∈ ps, (p == q) = false := by
  induction ps generalizing a with
  | nil => simp
  | cons p ps ih =>
    rw [List.foldl_cons, ih]
    change q ∈ (a.store.documents.erase p).keys ∧ _ ↔ _
    rw [PathMap.mem_keys_erase, List.forall_mem_cons, and_assoc, Bool.eq_false_iff, BEq.comm,
      ← Bool.eq_false_iff]

theorem mem_known_foldl_forget {ps : List Path} {a : Analyzer σ} {q : Path} :
    q ∈ (ps.foldl forget a).layout.known.keys ↔
      q ∈ a.layout.known.keys ∧ ∀ p ∈ ps, (p == q) = false := by
  induction ps generalizing a with
  | nil => simp
  | cons p ps ih =>
    rw [List.foldl_cons, ih]
    change q ∈ (a.layout.known.erase p).keys ∧ _ ↔ _
    rw [PathMap.mem_keys_erase, List.forall_mem_cons, and_assoc, Bool.eq_false_iff, BEq.comm,
      ← Bool.eq_false_iff]

/-! ## Linting -/

theorem sameRest_foldl_lintFile (cap : Capabilities σ) (ps : List Path) (a : Analyzer σ) :
    SameRest a (ps.foldl (lintFile cap) a) := by
  induction ps generalizing a with
  | nil => exact .refl a
  | cons p ps ih => exact (sameBut_lintFile cap a p).toSameRest.trans (ih _)

theorem keys_foldl_lintFile (cap : Capabilities σ) (ps : List Path) (a : Analyzer σ) :
    (ps.foldl (lintFile cap) a).store.documents.keys = a.store.documents.keys := by
  induction ps generalizing a with
  | nil => rfl
  | cons p ps ih => rw [List.foldl_cons, ih, (sameBut_lintFile cap a p).keys]

theorem documents_foldl_lintFile {cap : Capabilities σ} (hcap : cap.Quiet) (ps : List Path)
    (a : Analyzer σ) : (ps.foldl (lintFile cap) a).store.documents = a.store.documents := by
  induction ps generalizing a with
  | nil => rfl
  | cons p ps ih => rw [List.foldl_cons, ih, documents_lintFile hcap]

/-! ## The whole pass -/

/-- A pass without its publications. -/
def worked (cap : Capabilities σ) (a : Analyzer σ) (toLint deleted : List Path) : Analyzer σ :=
  (toLint.foldl (lintFile cap) (deleted.foldl forget a)).recompute cap

theorem pass_nil (cap : Capabilities σ) (d : Disk) (a : Analyzer σ) :
    a.pass cap d [] [] = ([], a) := rfl

theorem pass_eq (cap : Capabilities σ) (d : Disk) (a : Analyzer σ) {toLint deleted : List Path}
    (h : ¬(toLint = [] ∧ deleted = [])) :
    a.pass cap d toLint deleted = (a.worked cap toLint deleted).publish d deleted := by
  have : (toLint.isEmpty && deleted.isEmpty) = false := by
    simpa [Bool.eq_false_iff] using h
  simp [pass, this, worked]

theorem publish_eq (d : Disk) (a : Analyzer σ) (deleted : List Path) :
    (a.publish d deleted).2 = { a with published := (a.publish d deleted).2.published } := rfl

/-- Before it publishes, a pass has changed nothing but the store, the known files and the state of
the capabilities. -/
theorem sameRest_worked (cap : Capabilities σ) (a : Analyzer σ) (toLint deleted : List Path) :
    SameRest (deleted.foldl forget a) (a.worked cap toLint deleted) := by
  rw [worked, recompute_eq]
  obtain ⟨hs, hl, ho, hp⟩ := sameRest_foldl_lintFile cap toLint (deleted.foldl forget a)
  exact ⟨hs, hl, ho, hp⟩

theorem published_worked (cap : Capabilities σ) (a : Analyzer σ) (toLint deleted : List Path) :
    (a.worked cap toLint deleted).published = a.published :=
  (sameRest_worked cap a toLint deleted).published.trans (published_foldl_forget deleted a)

theorem mem_keys_worked {cap : Capabilities σ} {a : Analyzer σ} {toLint deleted : List Path}
    {q : Path} : q ∈ (a.worked cap toLint deleted).store.documents.keys ↔
      q ∈ a.store.documents.keys ∧ ∀ p ∈ deleted, (p == q) = false := by
  rw [worked, recompute_eq]
  change q ∈ (toLint.foldl (lintFile cap) _).store.documents.keys ↔ _
  rw [keys_foldl_lintFile, mem_documents_foldl_forget]

theorem pass_rest (cap : Capabilities σ) (d : Disk) (a : Analyzer σ) (toLint deleted : List Path) :
    (a.pass cap d toLint deleted).2.settings = a.settings ∧
      (a.pass cap d toLint deleted).2.openFiles = a.openFiles := by
  by_cases h : toLint = [] ∧ deleted = []
  · rw [h.1, h.2]
    exact ⟨rfl, rfl⟩
  · have hw := sameRest_worked cap a toLint deleted
    rw [pass_eq cap d a h, publish_eq]
    exact ⟨hw.settings.trans (settings_foldl_forget deleted a),
      hw.openFiles.trans (openFiles_foldl_forget deleted a)⟩

/-- All that a pass changes about the layout is that files are forgotten. -/
theorem layout_pass (cap : Capabilities σ) (d : Disk) (a : Analyzer σ)
    (toLint deleted : List Path) :
    (a.pass cap d toLint deleted).2.layout = (deleted.foldl forget a).layout := by
  by_cases h : toLint = [] ∧ deleted = []
  · rw [h.1, h.2]
    rfl
  · rw [pass_eq cap d a h, publish_eq]
    exact (sameRest_worked cap a toLint deleted).layout

theorem mem_keys_pass {cap : Capabilities σ} {d : Disk} {a : Analyzer σ}
    {toLint deleted : List Path} {q : Path} :
    q ∈ (a.pass cap d toLint deleted).2.store.documents.keys ↔
      q ∈ a.store.documents.keys ∧ ∀ p ∈ deleted, (p == q) = false := by
  by_cases h : toLint = [] ∧ deleted = []
  · rw [h.1, h.2, pass_nil]
    simp
  · rw [pass_eq cap d a h, publish_eq]
    exact mem_keys_worked

theorem mem_known_pass {cap : Capabilities σ} {d : Disk} {a : Analyzer σ}
    {toLint deleted : List Path} {q : Path} :
    q ∈ (a.pass cap d toLint deleted).2.layout.known.keys ↔
      q ∈ a.layout.known.keys ∧ ∀ p ∈ deleted, (p == q) = false := by
  by_cases h : toLint = [] ∧ deleted = []
  · rw [h.1, h.2, pass_nil]
    simp
  · rw [pass_eq cap d a h, publish_eq]
    change q ∈ (a.worked cap toLint deleted).layout.known.keys ↔ _
    rw [(sameRest_worked cap a toLint deleted).layout, mem_known_foldl_forget]

theorem contains_documents_pass (cap : Capabilities σ) (d : Disk) (a : Analyzer σ)
    (toLint deleted : List Path) (q : Path) :
    (a.pass cap d toLint deleted).2.store.documents.contains q =
      (a.store.documents.contains q && !deleted.any (· == q)) :=
  PathMap.contains_of_keys_removed (fun _ => mem_keys_pass) q

theorem contains_known_pass (cap : Capabilities σ) (d : Disk) (a : Analyzer σ)
    (toLint deleted : List Path) (q : Path) :
    (a.pass cap d toLint deleted).2.layout.known.contains q =
      (a.layout.known.contains q && !deleted.any (· == q)) :=
  PathMap.contains_of_keys_removed (fun _ => mem_known_pass) q

theorem documents_pass_of_no_lint (cap : Capabilities σ) (d : Disk) (a : Analyzer σ)
    (deleted : List Path) :
    (a.pass cap d [] deleted).2.store.documents = (deleted.foldl forget a).store.documents := by
  cases deleted with
  | nil => rfl
  | cons q deleted => rfl

/-- The text of a file after a pass: what it was, unless the file was forgotten. Only a parser or
linter that gives files texts can change it. -/
theorem get?_documents_pass {cap : Capabilities σ} (hcap : cap.Quiet) (d : Disk) (a : Analyzer σ)
    (toLint deleted : List Path) (q : Path) :
    (a.pass cap d toLint deleted).2.store.documents.get? q =
      if deleted.any (· == q) then none else a.store.documents.get? q := by
  by_cases h : toLint = [] ∧ deleted = []
  · rw [h.1, h.2]
    rfl
  · have hforget := congrArg FileRecord.text? (file_foldl_forget deleted a q)
    rw [pass_eq cap d a h, publish_eq]
    change (toLint.foldl (lintFile cap) (deleted.foldl forget a)).store.documents.get? q = _
    rw [documents_foldl_lintFile hcap]
    refine hforget.trans ?_
    split
    · rfl
    · rfl

end PolicyLint.Analyzer

namespace PolicyLint

/-- The record of a file after it may have been forgotten and linted, in this order. -/
def FileRecord.worked (s : Settings) (toLint deleted : Bool) (r : FileRecord) : FileRecord :=
  let r := if deleted then {} else r
  if toLint then r.lint s else r

namespace Analyzer

theorem file_recompute (a : Analyzer Unit) (q : Path) :
    (a.recompute .standard).store.file q =
      { a.store.file q with
        crossFindings? := (a.store.file q).contributed?.map fun _ =>
          a.store.crossFindingsFor a.settings q } := by
  rw [← crossFindings?_recompute, recompute_eq]
  rfl

/-- The record of a file after a pass with the standard capabilities. Only the findings across
files depend on more than its record before. -/
theorem file_pass (d : Disk) (a : Analyzer Unit) {toLint deleted : List Path} (q : Path)
    (h : ¬(toLint = [] ∧ deleted = [])) :
    let b := (a.pass .standard d toLint deleted).2
    let r := (a.store.file q).worked a.settings (toLint.any (· == q)) (deleted.any (· == q))
    b.store.file q =
      { r with
        crossFindings? := r.contributed?.map fun _ =>
          b.store.crossFindingsFor a.settings q } := by
  have hl := file_foldl_lintFile Capabilities.faithful_standard Capabilities.quiet_standard
    Capabilities.neverFails_standard toLint (deleted.foldl forget a) q
  have hs := (sameRest_foldl_lintFile .standard toLint (deleted.foldl forget a)).settings
  rw [settings_foldl_forget] at hs hl
  rw [file_foldl_forget] at hl
  rw [pass_eq .standard d a h]
  change (worked .standard a toLint deleted).store.file q = _
  rw [worked, file_recompute, hl, hs]
  rfl

/-- The text of a file after a pass: what it was, unless the file was forgotten. -/
theorem text?_pass (d : Disk) (a : Analyzer Unit) (toLint deleted : List Path) (q : Path) :
    ((a.pass .standard d toLint deleted).2.store.file q).text? =
      if deleted.any (· == q) then none else (a.store.file q).text? :=
  get?_documents_pass Capabilities.quiet_standard d a toLint deleted q

end Analyzer

end PolicyLint
