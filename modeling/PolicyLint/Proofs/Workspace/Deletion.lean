import PolicyLint.Proofs.Workspace.BatchOrder
import PolicyLint.Proofs.Workspace.ClientView
import PolicyLint.Proofs.Workspace.OpenFiles
/-!
# Deleted files and folders

A batch of deletions forgets the files that it covers, and no others: nothing is stored about them
any more, they are not known, they contribute nothing, and whatever was published for them is
cleared (`deletions_forget_what_they_cover`). A change covers a file if it deletes the file or a
folder above it, part by part, unless the name in the change has an extension other than that of
policy files: such a change is passed over before it is looked at, so a deleted folder with a dot in
its name covers nothing (`files_in_a_folder_with_a_dot_are_kept`).

A deletion looks for what it covers among the known files and those with a text. That is enough, as
nothing is stored about a file without a text, nor is anything still published for it (`Anchored`).
-/

namespace PolicyLint

theorem Disk.isAbsolute_of_uriOfPath {d : Disk} {p : Path} {u : Uri} (h : d.uriOfPath p = .ok u) :
    p.isAbsolute = true := by
  cases habs : p.isAbsolute with
  | true => rfl
  | false => simp [uriOfPath, habs, realPath?, resolve, Except.toOption] at h

theorem isFor_of_uriOfPath {d : Disk} {p : Path} {x : Publication} (h : d.uriOfPath p = .ok x.1)
    (q : Path) : isFor x q = (p == q) := by
  have habs := Disk.isAbsolute_of_uriOfPath h
  rw [Analyzer.uriOfPath_of_isAbsolute habs] at h
  have hx : x = (.ofAbsolute p, x.2) := by rw [Except.ok.inj h]
  rw [hx, isFor_ofAbsolute habs]

namespace Analyzer

variable {σ : Type} {cap : Capabilities σ} {d : Disk} {a : Analyzer σ} {p : Path}

/-! ## Files without a text -/

/-- A file without a text is not linted, nor does the linting of another file touch it. -/
theorem file_foldl_lintFile_of_gone (cap : Capabilities σ) (ps : List Path)
    (h : a.store.file p = {}) : (ps.foldl (lintFile cap) a).store.file p = {} := by
  induction ps generalizing a with
  | nil => exact h
  | cons q ps ih =>
    refine ih ?_
    by_cases hqp : (q == p) = true
    · have htext : a.store.documents.get? q = none := by
        rw [PathMap.get?_congr _ hqp]
        exact congrArg FileRecord.text? h
      rw [lintFile, htext]
      exact h
    · rw [(sameBut_lintFile cap a q).file p (Bool.eq_false_iff.2 hqp)]
      exact h

theorem file_recompute_of_gone (hcap : cap.Contained) (h : a.store.file p = {}) :
    (a.recompute cap).store.file p = {} := by
  have hcross : (a.recompute cap).store.crossFindings.get? p = none :=
    get?_recompute_none hcap (congrArg FileRecord.contributed? h)
      (Or.inr (congrArg FileRecord.crossFindings? h))
  have hfile : (a.recompute cap).store.file p = { a.store.file p with
      crossFindings? := (a.recompute cap).store.crossFindings.get? p } := rfl
  rw [hfile, h, hcross]

/-- A pass leaves nothing of a file that it forgets, or of which there was nothing. -/
theorem file_pass_of_gone (hcap : cap.Contained) (d : Disk) {toLint deleted : List Path}
    (h : deleted.any (· == p) = true ∨ a.store.file p = {}) :
    (a.pass cap d toLint deleted).2.store.file p = {} := by
  by_cases hidle : toLint = [] ∧ deleted = []
  · rw [hidle.2] at h
    rw [hidle.1, hidle.2]
    exact h.resolve_left Bool.false_ne_true
  · have hforgot : (deleted.foldl forget a).store.file p = {} := by
      rw [file_foldl_forget]
      split
      · rfl
      · next hdel => exact h.resolve_left hdel
    rw [pass_eq cap d a hidle, publish_eq]
    exact file_recompute_of_gone hcap (file_foldl_lintFile_of_gone cap toLint hforgot)

/-- After a pass nothing is published any more for a file that has no text and had nothing
published, or is forgotten. -/
theorem published_pass_of_gone (cap : Capabilities σ) (d : Disk) {toLint deleted : List Path}
    (hp : (a.pass cap d toLint deleted).2.store.documents.contains p = false)
    (h : deleted.any (· == p) = true ∨ a.published.contains p = false) :
    (a.pass cap d toLint deleted).2.published.contains p = false := by
  by_cases hidle : toLint = [] ∧ deleted = []
  · rw [hidle.2] at h
    rw [hidle.1, hidle.2]
    exact h.resolve_left Bool.false_ne_true
  · rw [pass_eq cap d a hidle] at hp ⊢
    apply Bool.eq_false_iff.2
    intro hin
    rcases contains_foldl_publishFile hin with hin | hin
    · obtain ⟨hold, hnot⟩ := contains_foldl_retract.1 hin
      rw [published_worked] at hold
      rcases h with h | h
      · obtain ⟨q, hq, hqp⟩ := List.any_eq_true.1 h
        rw [hnot q hq] at hqp
        cases hqp
      · rw [h] at hold
        cases hold
    · rw [← PathMap.contains_eq_any] at hin
      change (a.worked cap toLint deleted).store.documents.contains p = false at hp
      rw [hp] at hin
      cases hin

/-- Nothing is stored about a file that has no text, and nothing is published for it. -/
structure Anchored (p : Path) (a : Analyzer σ) : Prop where
  file : a.store.documents.contains p = false → a.store.file p = {}
  published : a.store.documents.contains p = false → a.published.contains p = false

theorem Prepared.anchored {Q : Path → Prop} {b : Analyzer σ} {due : List Path}
    (h : Prepared Q a b due) (ha : Anchored p a) : Anchored p b := by
  induction h with
  | start => exact ha
  | rest _ _ _ _ ih => exact ⟨ih.file, ih.published⟩
  | @text b _ _ q _ text ih =>
    have hother : (b.withText q text).store.documents.contains p = false →
        (q == p) = false ∧ b.store.documents.contains p = false := by
      intro hp
      rw [contains_withText] at hp
      exact Bool.or_eq_false_iff.1 hp
    constructor
    · intro hp
      obtain ⟨hqp, hp⟩ := hother hp
      change (b.store.updateText q text).file p = {}
      rw [Store.file_updateText, hqp]
      exact ih.file hp
    · intro hp
      exact ih.published (hother hp).2

theorem Asked.anchored {Q : Path → Prop} {w : Work σ} (h : Asked Q a w) (ha : Anchored p a) :
    Anchored p w.start := by
  cases h with
  | work h _ _ => exact h.anchored ha
  | relint settings =>
    constructor
    · intro hp
      have hfile := ha.file hp
      change { a.store.file p with findings? := none, crossFindings? := none } = _
      rw [hfile]
    · exact ha.published

theorem Anchored.run (hcap : cap.Contained) {w : Work σ} (h : Anchored p w.start) :
    Anchored p (w.run cap d).2 := by
  have hgone : (w.run cap d).2.store.documents.contains p = false →
      w.start.store.documents.contains p = false ∨ w.deleted.any (· == p) = true := by
    intro hp
    have hcontains := contains_documents_pass cap d w.start w.toLint w.deleted p
    change (w.start.pass cap d w.toLint w.deleted).2.store.documents.contains p = false at hp
    rw [hp] at hcontains
    cases hdel : w.deleted.any (· == p) with
    | true => exact Or.inr rfl
    | false =>
      rw [hdel, Bool.not_false, Bool.and_true] at hcontains
      exact Or.inl hcontains.symm
  constructor
  · intro hp
    exact file_pass_of_gone hcap d ((hgone hp).symm.imp_right h.file)
  · intro hp
    exact published_pass_of_gone cap d hp ((hgone hp).symm.imp_right h.published)

theorem anchored_after (hcap : cap.Contained) (host : σ) (run : List (Disk × Event)) (p : Path) :
    Anchored p ((fresh host).after cap run) := by
  have hall : Anchored p ((fresh host).after cap run) ∧
      Within (fun _ => True) ((fresh host).after cap run) :=
    asks_invariant (I := fun (_ : Unit) a => Anchored p a) (f := fun _ _ => ()) (g := ())
      (fun _ _ _ _ _ ha hask => (hask.anchored ha).run hcap) (fun _ _ _ _ => trivial)
      ⟨fun _ _ => trivial, fun _ _ => trivial⟩ (fun _ _ _ _ => trivial)
      ⟨fun _ => rfl, fun _ => rfl⟩
  exact hall.1

/-! ## What is cleared -/

variable {s : Store} {acc : List Publication × Published} {x : Publication}

/-- A step that publishes something, or nothing, of which `P` holds for the file of the step. -/
def Sends (P : Path → Publication → Prop)
    (step : List Publication × Published → Path → List Publication × Published) : Prop :=
  ∀ acc p, ∃ sent, (step acc p).1 = acc.1 ++ sent ∧ ∀ x ∈ sent, P p x

theorem sends_retract : Sends (fun _ x => x.2 = []) (retract d) := by
  intro acc p
  unfold retract
  dsimp only
  split
  · next uri _ _ => exact ⟨[(uri, [])], rfl, by simp⟩
  · exact ⟨[], (List.append_nil _).symm, by simp⟩

theorem sends_publishFile : Sends (fun p x => d.uriOfPath p = .ok x.1) (publishFile d s) := by
  intro acc p
  unfold publishFile
  dsimp only
  split
  · next uri _ huri => exact ⟨[(uri, s.merged p)], rfl, by simpa using huri⟩
  · exact ⟨[], (List.append_nil _).symm, by simp⟩

/-- What is published for the files of a list comes after what was published before, and each of it
is for one of the files. -/
theorem Sends.foldl {P : Path → Publication → Prop}
    {step : List Publication × Published → Path → List Publication × Published}
    (h : Sends P step) (ps : List Path) (acc : List Publication × Published) :
    ∃ sent, (ps.foldl step acc).1 = acc.1 ++ sent ∧ ∀ x ∈ sent, ∃ p ∈ ps, P p x := by
  induction ps generalizing acc with
  | nil => exact ⟨[], (List.append_nil _).symm, by simp⟩
  | cons p ps ih =>
    obtain ⟨first, hfirst, hP⟩ := h acc p
    obtain ⟨rest, hrest, hall⟩ := ih (step acc p)
    refine ⟨first ++ rest, ?_, ?_⟩
    · rw [List.foldl_cons, hrest, hfirst, List.append_assoc]
    · intro x hx
      rcases List.mem_append.1 hx with hx | hx
      · exact ⟨p, List.mem_cons_self .., hP x hx⟩
      · obtain ⟨q, hq, hqx⟩ := hall x hx
        exact ⟨q, List.mem_cons_of_mem _ hq, hqx⟩

theorem Sends.mem_foldl {P : Path → Publication → Prop}
    {step : List Publication × Published → Path → List Publication × Published}
    (h : Sends P step) (ps : List Path) (hx : x ∈ acc.1) : x ∈ (ps.foldl step acc).1 := by
  obtain ⟨sent, heq, -⟩ := h.foldl ps acc
  rw [heq]
  exact List.mem_append_left _ hx

/-- A forgotten file for which something was sent is told to have no diagnostics. -/
theorem exists_retracted {ps : List Path} (habs : p.isAbsolute = true)
    (hpub : acc.2.contains p = true) (hdel : ps.any (· == p) = true) :
    ∃ x ∈ (ps.foldl (retract d) acc).1, isFor x p = true ∧ x.2 = [] := by
  induction ps generalizing acc with
  | nil => cases hdel
  | cons q ps ih =>
    by_cases hqp : (q == p) = true
    · have hq : q.isAbsolute = true := (Path.isAbsolute_congr hqp).trans habs
      refine ⟨(.ofAbsolute q, []), ?_, (isFor_ofAbsolute hq [] p).trans hqp, rfl⟩
      rw [List.foldl_cons]
      refine sends_retract.mem_foldl ps ?_
      rw [retract_eq acc hq, PathMap.contains_congr _ hqp, hpub]
      exact List.mem_append_right _ (List.mem_singleton_self _)
    · have hqp : (q == p) = false := Bool.eq_false_iff.2 hqp
      refine ih ?_ ?_
      · rw [snd_retract, PathMap.contains, PathMap.get?_erase, hqp]
        exact hpub
      · rw [List.any_cons, hqp] at hdel
        exact hdel

/-- All that a pass publishes for a file without a text is that it has no diagnostics. -/
theorem cleared_of_mem_pass {toLint deleted : List Path}
    (hp : (a.pass cap d toLint deleted).2.store.documents.contains p = false)
    (hx : x ∈ (a.pass cap d toLint deleted).1) (hfor : isFor x p = true) : x.2 = [] := by
  by_cases hidle : toLint = [] ∧ deleted = []
  · rw [hidle.1, hidle.2] at hx
    cases hx
  · rw [pass_eq cap d a hidle] at hp hx
    let b := a.worked cap toLint deleted
    obtain ⟨cleared, hcleared, hempty⟩ :=
      (sends_retract (d := d)).foldl deleted ([], b.published)
    obtain ⟨sent, hsent, hfiles⟩ := (sends_publishFile (d := d) (s := b.store)).foldl
      b.store.documents.keys (deleted.foldl (retract d) ([], b.published))
    have hall : (b.publish d deleted).1 = cleared ++ sent := by
      change (b.store.documents.keys.foldl (publishFile d b.store) _).1 = _
      rw [hsent, hcleared]
      rfl
    rcases List.mem_append.1 (hall ▸ hx) with hx | hx
    · obtain ⟨-, -, hnil⟩ := hempty x hx
      exact hnil
    · obtain ⟨q, hq, huri⟩ := hfiles x hx
      rw [isFor_of_uriOfPath huri] at hfor
      have hcontains : b.store.documents.contains p = true := PathMap.contains_iff.2 ⟨q, hq, hfor⟩
      exact absurd hcontains (Bool.eq_false_iff.1 hp)

/-- A pass clears what was published for a file that it forgets. -/
theorem exists_cleared_pass (cap : Capabilities σ) (d : Disk) (toLint : List Path)
    {deleted : List Path} (habs : p.isAbsolute = true) (hpub : a.published.contains p = true)
    (hdel : deleted.any (· == p) = true) :
    ∃ x ∈ (a.pass cap d toLint deleted).1, isFor x p = true ∧ x.2 = [] := by
  have hne : ¬(toLint = [] ∧ deleted = []) := by
    rintro ⟨-, hnil⟩
    rw [hnil] at hdel
    cases hdel
  rw [← published_worked cap a toLint deleted] at hpub
  have hsent : ∃ x ∈ (deleted.foldl (retract d) ([], (a.worked cap toLint deleted).published)).1,
      isFor x p = true ∧ x.2 = [] := exists_retracted habs hpub hdel
  obtain ⟨x, hx, hfor⟩ := hsent
  rw [pass_eq cap d a hne]
  exact ⟨x, sends_publishFile.mem_foldl _ hx, hfor⟩

/-! ## Batches of deletions -/

/-- A deletion is passed over, or it is to forget what it covers and is known. -/
theorem add_deletion (b : Batch σ) {c : Uri × Change} (hc : c.2 = .deleted) :
    (b.add d c = b ∧ ∀ p, ¬Covers d p c) ∨
      ∃ f, b.add d c = b.delete f ∧ ∀ p, Covers d p c ↔ p.isWithin f = true := by
  unfold Batch.add
  cases hf : d.pathOfUri c.1 with
  | error fault => exact Or.inl ⟨rfl, by simp [Covers, hf]⟩
  | ok f =>
    dsimp only
    by_cases hext : f.extension?.isSome = true → f.isPolicy = true
    · rw [looked_at_iff.2 hext, hc]
      refine Or.inr ⟨f, rfl, ?_⟩
      intro p
      rw [covers_iff hf, and_iff_right hc, and_iff_right hext]
    · rw [passed_over_iff.2 hext]
      exact Or.inl ⟨rfl, fun p hcov => hext ((covers_iff hf).1 hcov).2.1⟩

/-- A batch of deletions changes no file and asks for none to be linted. -/
theorem foldl_add_deletions {changes : List (Uri × Change)} {b : Batch σ}
    (hdel : ∀ c ∈ changes, c.2 = .deleted) :
    (changes.foldl (Batch.add d) b).analyzer = b.analyzer ∧
      (changes.foldl (Batch.add d) b).toLint = b.toLint := by
  induction changes generalizing b with
  | nil => exact ⟨rfl, rfl⟩
  | cons c changes ih =>
    obtain ⟨hanalyzer, hlint⟩ := ih (b := b.add d c) fun c hc => hdel c (List.mem_cons_of_mem _ hc)
    rw [List.foldl_cons, hanalyzer, hlint]
    rcases add_deletion (d := d) b (hdel c (List.mem_cons_self ..)) with ⟨heq, -⟩ | ⟨f, heq, -⟩
    · rw [heq]
      exact ⟨rfl, rfl⟩
    · rw [heq]
      exact ⟨rfl, rfl⟩

/-- A batch of deletions is to forget what any of them covers and is known. -/
theorem any_foldl_add_deletions {changes : List (Uri × Change)} {b : Batch σ}
    (hdel : ∀ c ∈ changes, c.2 = .deleted)
    (hclosed : b.analyzer.openFiles.contains p = false) :
    (changes.foldl (Batch.add d) b).deleted.any (· == p) = true ↔
      b.deleted.any (· == p) = true ∨ ((∃ c ∈ changes, Covers d p c) ∧ Knows b.analyzer p) := by
  induction changes generalizing b with
  | nil => simp
  | cons c changes ih =>
    have hrest : ∀ c ∈ changes, c.2 = .deleted := fun c hc => hdel c (List.mem_cons_of_mem _ hc)
    have hcons : (∃ x ∈ c :: changes, Covers d p x) ↔
        Covers d p c ∨ ∃ x ∈ changes, Covers d p x := by
      simp only [List.mem_cons, exists_eq_or_imp]
    rw [List.foldl_cons, hcons]
    rcases add_deletion (d := d) b (hdel c (List.mem_cons_self ..)) with
      ⟨heq, hnot⟩ | ⟨f, heq, hcov⟩
    · rw [heq, ih hrest hclosed, or_iff_right (hnot p)]
    · rw [heq, ih (b := b.delete f) hrest hclosed, any_delete f hclosed, hcov p, or_and_right,
        or_assoc]
      rfl

/-- What is to be forgotten after a batch of changes. -/
theorem any_deleted_filesWork (a : Analyzer σ) (changes : List (Uri × Change)) (p : Path) :
    (a.filesWork d changes).deleted.any (· == p) = (a.batch d changes).deleted.any (· == p) := by
  change (PathSet.ofList (a.batch d changes).deleted).keys.any (· == p) = _
  rw [← PathMap.contains_eq_any, PathSet.contains_ofList]

/-- After a batch of deletions nothing is left of a file that is not open and that a change of the
batch covers: nothing is stored about it, it is not known, it contributes to no category, and what
was published for it is cleared. Files that are open, or that no change covers, keep their texts and
stay known. -/
theorem deletions_forget_what_they_cover (hcap : cap.Contained) (host : σ)
    (run : List (Disk × Event)) (d : Disk) (changes : List (Uri × Change))
    (hdel : ∀ c ∈ changes, c.2 = .deleted) (p : Path) :
    let a := (fresh host).after cap run
    let r := a.handle cap d (.filesChanged changes)
    (a.openFiles.contains p = false → (∃ c ∈ changes, Covers d p c) →
      r.2.store.file p = {} ∧ r.2.layout.known.contains p = false ∧
      (∀ c, (r.2.store.state c).contains p = false) ∧
      (∀ x ∈ r.1, isFor x p = true → x.2 = []) ∧
      (p.isAbsolute = true → a.published.contains p = true →
        ∃ x ∈ r.1, isFor x p = true ∧ x.2 = [])) ∧
    (a.openFiles.contains p = true ∨ (∀ c ∈ changes, ¬Covers d p c) →
      r.2.store.documents.get? p = a.store.documents.get? p ∧
      r.2.layout.known.contains p = a.layout.known.contains p) := by
  intro a r
  let deleted := (a.filesWork d changes).deleted
  have hbatch := foldl_add_deletions (d := d) (b := { analyzer := a }) hdel
  have hr : r = a.pass cap d [] deleted := by
    change Analyzer.pass cap d (a.batch d changes).analyzer (a.batch d changes).toLint deleted = _
    unfold batch
    rw [hbatch.1, hbatch.2]
  have hany : a.openFiles.contains p = false →
      (deleted.any (· == p) = true ↔ (∃ c ∈ changes, Covers d p c) ∧ Knows a p) := by
    intro hclosed
    rw [any_deleted_filesWork]
    exact (any_foldl_add_deletions (b := { analyzer := a }) hdel hclosed).trans (by simp)
  have hknown : r.2.layout.known.contains p =
      (a.layout.known.contains p && !deleted.any (· == p)) := by
    rw [hr, contains_known_pass]
  constructor
  · intro hclosed hcov
    have hanchored : Anchored p a := anchored_after hcap host run p
    -- what is not among the files to forget was never known, so there is nothing of it
    have hgone : deleted.any (· == p) = true ∨
        (a.layout.known.contains p = false ∧ a.store.documents.contains p = false) := by
      by_cases hk : Knows a p
      · exact Or.inl ((hany hclosed).2 ⟨hcov, hk⟩)
      · obtain ⟨hk, hd⟩ := not_or.1 hk
        exact Or.inr ⟨Bool.eq_false_iff.2 hk, Bool.eq_false_iff.2 hd⟩
    have hfile : r.2.store.file p = {} := by
      rw [hr]
      exact file_pass_of_gone hcap d (hgone.imp_right fun h => hanchored.file h.2)
    have hdoc : r.2.store.documents.contains p = false := by
      rw [Store.contains_documents, hfile]
      rfl
    refine ⟨hfile, ?_, ?_, ?_, ?_⟩
    · rw [hknown]
      rcases hgone with h | ⟨h, -⟩
      · rw [h, Bool.not_true, Bool.and_false]
      · rw [h, Bool.false_and]
    · intro c
      have hcontributed : r.2.store.contributions.get? p = none :=
        congrArg FileRecord.contributed? hfile
      rw [PathMap.contains, Store.state, PathMap.get?_filterMap, hcontributed]
      rfl
    · intro x hx hfor
      rw [hr] at hdoc hx
      exact cleared_of_mem_pass hdoc hx hfor
    · intro habs hpub
      rcases hgone with h | ⟨-, h⟩
      · rw [hr]
        exact exists_cleared_pass cap d [] habs hpub h
      · rw [hanchored.published h] at hpub
        cases hpub
  · intro hkeep
    have hkept : deleted.any (· == p) = false := by
      cases hopen : a.openFiles.contains p with
      | true =>
        have hholds : Holds p (a.store.documents.get? p) a := ⟨hopen, rfl⟩
        exact (hholds.filesWork (d := d) changes).kept
      | false =>
        rw [hopen] at hkeep
        apply Bool.eq_false_iff.2
        intro hin
        obtain ⟨⟨c, hc, hcov⟩, -⟩ := (hany hopen).1 hin
        exact hkeep.resolve_left Bool.false_ne_true c hc hcov
    constructor
    · rw [hr, documents_pass_of_no_lint]
      have htext := congrArg FileRecord.text? (file_foldl_forget deleted a p)
      rw [hkept] at htext
      exact htext
    · rw [hknown, hkept, Bool.not_false, Bool.and_true]

/-- Two folders are deleted. The file in the one with a dot in its name keeps its text, although it
is gone from the disk; the file in the other is forgotten and cleared. -/
theorem files_in_a_folder_with_a_dot_are_kept :
    let uri (path : String) : Uri := { scheme? := some "file", authority? := some "", path }
    let d : Disk := { entries := [
      (["ws"], .folder), (["ws", "v1.2"], .folder),
      (["ws", "v1.2", "a.rego"], .file "# METADATA\npackage a".toUTF8),
      (["ws", "old"], .folder), (["ws", "old", "b.rego"], .file "package b".toUTF8)] }
    let run : List (Disk × Event) := [(d, .rootsGiven [⟨"/ws"⟩]), (d, .scan)]
    let later : Disk := { entries := [(["ws"], .folder)] }
    let changes : List (Uri × Change) := [(uri "/ws/v1.2", .deleted), (uri "/ws/old", .deleted)]
    let r := ((fresh ()).after .standard run).handle .standard later (.filesChanged changes)
    r.2.store.documents.get? ⟨"/ws/v1.2/a.rego"⟩ = some "# METADATA\npackage a" ∧
      r.2.store.file ⟨"/ws/old/b.rego"⟩ = {} ∧
      ∃ x ∈ r.1, isFor x ⟨"/ws/old/b.rego"⟩ = true ∧ x.2 = [] := by
  intro uri d run later changes
  dsimp only
  have hdel : ∀ c ∈ changes, c.2 = .deleted := by decide
  have hdotted : later.pathOfUri (uri "/ws/v1.2") = .ok ⟨"/ws/v1.2"⟩ :=
    pathOfUri_of_text (by decide +kernel)
  have hold : later.pathOfUri (uri "/ws/old") = .ok ⟨"/ws/old"⟩ :=
    pathOfUri_of_text (by decide +kernel)
  have hbefore : let a := (fresh ()).after .standard run
      a.store.documents.get? ⟨"/ws/v1.2/a.rego"⟩ = some "# METADATA\npackage a" ∧
      a.openFiles.contains ⟨"/ws/old/b.rego"⟩ = false ∧
      a.published.contains ⟨"/ws/old/b.rego"⟩ = true := by decide +kernel
  obtain ⟨htext, hclosed, hpub⟩ := hbefore
  have hkept : ∀ c ∈ changes, ¬Covers later ⟨"/ws/v1.2/a.rego"⟩ c := by
    intro c hc
    rcases List.mem_cons.1 hc with rfl | hc
    · rw [covers_iff hdotted]
      decide +kernel
    · rw [List.mem_singleton.1 hc, covers_iff hold]
      decide +kernel
  have hgone : ∃ c ∈ changes, Covers later ⟨"/ws/old/b.rego"⟩ c := by
    refine ⟨(uri "/ws/old", .deleted), List.mem_cons_of_mem _ (List.mem_singleton_self _), ?_⟩
    rw [covers_iff hold]
    decide +kernel
  have hdotted := deletions_forget_what_they_cover Capabilities.contained_standard () run later
    changes hdel ⟨"/ws/v1.2/a.rego"⟩
  have hold := deletions_forget_what_they_cover Capabilities.contained_standard () run later
    changes hdel ⟨"/ws/old/b.rego"⟩
  obtain ⟨hfile, -, -, -, hcleared⟩ := hold.1 hclosed hgone
  exact ⟨(hdotted.2 (Or.inr hkept)).1.trans htext, hfile, hcleared (by decide +kernel) hpub⟩

end Analyzer

end PolicyLint
