import PolicyLint.Proofs.Uri.Spelling
import PolicyLint.Proofs.Workspace.Coherence
/-!
# Batches of changes on the disk

A batch is taken in one change at a time, but all that it deletes is forgotten before anything is
linted. So a file that was deleted and created again in one batch is forgotten, if it was known
when the deletion was taken in (`reread_iff_not_forgotten`). The order of the changes counts only as
far as a file becomes known within the batch.
-/

namespace PolicyLint.Analyzer

variable {σ : Type} {d : Disk} {p : Path} {text : String}

/-! ## What a change says about a file -/

/-- A change says that a file was created or changed. -/
def Loads (d : Disk) (p : Path) (c : Uri × Change) : Prop :=
  (c.2 = .created ∨ c.2 = .changed) ∧ d.pathOfUri c.1 = .ok p

/-- A change says that a file, or a folder above it, was deleted. -/
def Covers (d : Disk) (p : Path) (c : Uri × Change) : Prop :=
  c.2 = .deleted ∧ ∃ f, d.pathOfUri c.1 = .ok f ∧
    (f.extension?.isSome = true → f.isPolicy = true) ∧ p.isWithin f = true

theorem loads_iff {c : Uri × Change} {q : Path} (hq : d.pathOfUri c.1 = .ok q) :
    Loads d p c ↔ (c.2 = .created ∨ c.2 = .changed) ∧ q = p := by
  rw [Loads, hq, Except.ok.injEq]

theorem covers_iff {c : Uri × Change} {f : Path} (hf : d.pathOfUri c.1 = .ok f) :
    Covers d p c ↔
      c.2 = .deleted ∧ (f.extension?.isSome = true → f.isPolicy = true) ∧ p.isWithin f = true := by
  rw [Covers, hf]
  simp only [Except.ok.injEq, exists_eq_left']

theorem looked_at_iff {f : Path} : (f.extension?.isSome && !f.isPolicy) = false ↔
    (f.extension?.isSome = true → f.isPolicy = true) := by
  cases f.extension?.isSome <;> cases f.isPolicy <;> decide

theorem passed_over_iff {f : Path} : (f.extension?.isSome && !f.isPolicy) = true ↔
    ¬(f.extension?.isSome = true → f.isPolicy = true) := by
  rw [← looked_at_iff, Bool.not_eq_false]

theorem add_of_looked_at {u : Uri} (hp : d.pathOfUri u = .ok p)
    (hext : p.extension?.isSome = true → p.isPolicy = true) (b : Batch σ) (change : Change) :
    b.add d (u, change) =
      match change with
      | .created | .changed => b.load d p
      | .deleted => b.delete p
      | .other => b := by
  unfold Batch.add
  dsimp only
  rw [hp]
  dsimp only
  rw [looked_at_iff.2 hext]
  rfl

theorem add_of_passed_over {u : Uri} (hp : d.pathOfUri u = .ok p)
    (hext : ¬(p.extension?.isSome = true → p.isPolicy = true)) (b : Batch σ) (change : Change) :
    b.add d (u, change) = b := by
  unfold Batch.add
  dsimp only
  rw [hp]
  dsimp only
  rw [passed_over_iff.2 hext]
  rfl

/-- A file is among the known ones or has a text. -/
def Knows (a : Analyzer σ) (p : Path) : Prop :=
  a.layout.known.contains p = true ∨ a.store.documents.contains p = true

/-- A policy file that is not open and can be read, under the name by which it is known. -/
structure Readable (d : Disk) (openFiles : PathSet) (p : Path) (text : String) : Prop where
  policy : p.isPolicy = true
  closed : openFiles.contains p = false
  plain : p.isPlain = true
  read : d.readText p = .ok text

/-- What taking in a change does about one file. -/
structure Taken (d : Disk) (p : Path) (text : String) (c : Uri × Change) (b b' : Batch σ) :
    Prop where
  openFiles : b'.analyzer.openFiles = b.analyzer.openFiles
  loaded : Loads d p c → b'.analyzer.store.documents.get? p = some text
  kept : ¬Loads d p c →
    b'.analyzer.store.documents.get? p = b.analyzer.store.documents.get? p
  knows : Knows b'.analyzer p ↔ Knows b.analyzer p ∨ Loads d p c
  deleted : b'.deleted.any (· == p) = true ↔
    b.deleted.any (· == p) = true ∨ (Covers d p c ∧ Knows b.analyzer p)

/-- A change that is about another file, or of no interest. -/
theorem Taken.of_eq {c : Uri × Change} {b : Batch σ} (hl : ¬Loads d p c) (hc : ¬Covers d p c) :
    Taken d p text c b b where
  openFiles := rfl
  loaded h := absurd h hl
  kept _ := rfl
  knows := by simp [hl]
  deleted := by simp [hc]

theorem contains_addKnown (a : Analyzer σ) {q : Path} (hq : q.isPolicy = true) :
    (a.addKnown q).layout.known.contains p = (q == p || a.layout.known.contains p) := by
  unfold addKnown Layout.addFile
  rw [if_pos hq]
  exact PathSet.contains_add ..

theorem knows_reloaded (a : Analyzer σ) {q : Path} (hq : q.isPolicy = true) (text : String) :
    Knows ((a.withText q text).addKnown q) p ↔ Knows a p ∨ (q == p) = true := by
  unfold Knows
  have hdocs : ((a.withText q text).addKnown q).store.documents.contains p =
      (q == p || a.store.documents.contains p) := contains_withText ..
  have hknown : (a.withText q text).layout = a.layout := rfl
  rw [contains_addKnown _ hq, hdocs, hknown]
  cases q == p <;> simp

theorem taken_load {b : Batch σ} {c : Uri × Change} {q : Path}
    (h : Readable d b.analyzer.openFiles p text) (hc : c.2 = .created ∨ c.2 = .changed)
    (hq : d.pathOfUri c.1 = .ok q) : Taken d p text c b (b.load d q) := by
  have hnc : ¬Covers d p c := by
    rintro ⟨hdel, -⟩
    rw [hdel] at hc
    rcases hc with hc | hc <;> cases hc
  have hloads : Loads d p c ↔ q = p := by
    rw [loads_iff hq, and_iff_right hc]
  unfold Batch.load
  split
  · next hskip =>
    -- not a policy file, or open: then it is another file than `p`
    refine .of_eq (fun hl => ?_) hnc
    rw [hloads.1 hl, h.policy, h.closed] at hskip
    simp at hskip
  · next hskip =>
    have hpol : q.isPolicy = true := by
      cases hpol : q.isPolicy with
      | true => rfl
      | false => simp [hpol] at hskip
    rw [reload_eq]
    cases hr : d.readText q with
    | error fault =>
      refine .of_eq (fun hl => ?_) hnc
      rw [hloads.1 hl, h.read] at hr
      cases hr
    | ok t =>
      -- both names are plain, so they are the same file only if they are the same name
      have hsame : (q == p) = true ↔ q = p := by
        obtain ⟨x, -, hx⟩ := Disk.pathOfUri_eq_ok_iff.1 hq
        refine ⟨Path.eq_of_isPlain (Disk.isPlain_of_readText hx hr) h.plain, fun he => ?_⟩
        rw [he]
        exact BEq.rfl
      refine ⟨rfl, fun hl => ?_, fun hl => ?_, ?_, ?_⟩
      · have hqp := hloads.1 hl
        rw [hqp, h.read] at hr
        cases hr
        exact (get?_withText ..).trans (if_pos (hsame.2 hqp))
      · refine (get?_withText ..).trans (if_neg fun hqp => hl (hloads.2 (hsame.1 hqp)))
      · rw [hloads, ← hsame]
        exact knows_reloaded b.analyzer hpol t
      · simp [hnc]

theorem any_filter_isWithin {α : Type} (m : PathMap α) (f : Path) :
    (m.keys.filter (·.isWithin f)).any (· == p) = (p.isWithin f && m.contains p) := by
  rw [PathMap.contains_eq_any, any_filter_beq]
  intro k hk
  rw [Path.isWithin, Path.isWithin, Path.beq_iff.1 hk]

theorem any_delete {b : Batch σ} (f : Path) (hclosed : b.analyzer.openFiles.contains p = false) :
    (b.delete f).deleted.any (· == p) = true ↔
      b.deleted.any (· == p) = true ∨ (p.isWithin f = true ∧ Knows b.analyzer p) := by
  have hopen : ∀ k, (k == p) = true → (!b.analyzer.openFiles.contains k) = true := by
    intro k hk
    rw [PathMap.contains, PathMap.get?_congr _ hk, ← PathMap.contains, hclosed]
    rfl
  unfold Batch.delete Layout.matching Knows
  dsimp only
  rw [List.any_append, any_filter_beq hopen, List.any_append, any_filter_isWithin,
    any_filter_isWithin, Bool.or_eq_true, Bool.true_and, ← Bool.and_or_distrib_left,
    Bool.and_eq_true, Bool.or_eq_true]

theorem taken_delete {b : Batch σ} {c : Uri × Change} {f : Path}
    (h : Readable d b.analyzer.openFiles p text) (hc : c.2 = .deleted)
    (hf : d.pathOfUri c.1 = .ok f) (hpol : f.extension?.isSome = true → f.isPolicy = true) :
    Taken d p text c b (b.delete f) := by
  have hl : ¬Loads d p c := by
    rw [loads_iff hf, hc]
    rintro ⟨hk | hk, -⟩ <;> cases hk
  have hcov : Covers d p c ↔ p.isWithin f = true := by
    rw [covers_iff hf, and_iff_right hc, and_iff_right hpol]
  refine ⟨rfl, fun h => absurd h hl, fun _ => rfl, ?_, ?_⟩
  · change Knows b.analyzer p ↔ _
    simp [hl]
  · rw [any_delete f h.closed, hcov]

/-- Every change does what it says about a file that can be read. -/
theorem taken_add {b : Batch σ} (h : Readable d b.analyzer.openFiles p text)
    (c : Uri × Change) : Taken d p text c b (b.add d c) := by
  unfold Batch.add
  cases hq : d.pathOfUri c.1 with
  | error e => exact .of_eq (by simp [Loads, hq]) (by simp [Covers, hq])
  | ok q =>
    dsimp only
    by_cases hext : q.extension?.isSome = true → q.isPolicy = true
    · rw [looked_at_iff.2 hext]
      cases hc : c.2 with
      | created => exact taken_load h (Or.inl hc) hq
      | changed => exact taken_load h (Or.inr hc) hq
      | deleted => exact taken_delete h hc hq hext
      | other => exact .of_eq (by simp [Loads, hc]) (by simp [Covers, hc])
    · rw [passed_over_iff.2 hext]
      refine .of_eq (fun hl => hext fun _ => ?_) fun hcov => hext ((covers_iff hq).1 hcov).2.1
      rw [((loads_iff hq).1 hl).2]
      exact h.policy

/-! ## Whole batches -/

/-- A change of a batch deletes a file that is known by then, as it was before the batch or became
within it. -/
def ForgottenIn (d : Disk) (p : Path) (known : Prop) (changes : List (Uri × Change)) : Prop :=
  ∃ before c later, changes = before ++ c :: later ∧ Covers d p c ∧
    (known ∨ ∃ c' ∈ before, Loads d p c')

theorem forgottenIn_nil {known : Prop} : ¬ForgottenIn d p known [] := by
  rintro ⟨before, c, later, h, -⟩
  simp at h

theorem forgottenIn_cons {known : Prop} {c : Uri × Change} {changes : List (Uri × Change)} :
    ForgottenIn d p known (c :: changes) ↔
      (Covers d p c ∧ known) ∨ ForgottenIn d p (known ∨ Loads d p c) changes := by
  constructor
  · rintro ⟨before, x, later, heq, hx, hk⟩
    cases before with
    | nil =>
      cases heq
      exact Or.inl ⟨hx, by simpa using hk⟩
    | cons y before =>
      cases heq
      refine Or.inr ⟨before, x, later, rfl, hx, ?_⟩
      rcases hk with hk | ⟨c', hc', hl⟩
      · exact Or.inl (Or.inl hk)
      · rcases List.mem_cons.1 hc' with rfl | hc'
        · exact Or.inl (Or.inr hl)
        · exact Or.inr ⟨c', hc', hl⟩
  · rintro (⟨hc, hk⟩ | ⟨before, x, later, rfl, hx, hk⟩)
    · exact ⟨[], c, changes, rfl, hc, Or.inl hk⟩
    · refine ⟨c :: before, x, later, rfl, hx, ?_⟩
      rcases hk with (hk | hl) | ⟨c', hc', hl⟩
      · exact Or.inl hk
      · exact Or.inr ⟨c, by simp, hl⟩
      · exact Or.inr ⟨c', by simp [hc'], hl⟩

theorem get?_foldl_add {changes : List (Uri × Change)} {b : Batch σ}
    (h : Readable d b.analyzer.openFiles p text)
    (ht : b.analyzer.store.documents.get? p = some text ∨ ∃ c ∈ changes, Loads d p c) :
    (changes.foldl (Batch.add d) b).analyzer.store.documents.get? p = some text := by
  induction changes generalizing b with
  | nil => simpa using ht
  | cons c changes ih =>
    have htaken := taken_add h c
    refine ih (by rw [htaken.openFiles]; exact h) ?_
    by_cases hl : Loads d p c
    · exact Or.inl (htaken.loaded hl)
    · rcases ht with ht | ⟨c', hc', hl'⟩
      · exact Or.inl ((htaken.kept hl).trans ht)
      · rcases List.mem_cons.1 hc' with rfl | hc'
        · exact absurd hl' hl
        · exact Or.inr ⟨c', hc', hl'⟩

theorem any_foldl_add {changes : List (Uri × Change)} {b : Batch σ}
    (h : Readable d b.analyzer.openFiles p text) :
    (changes.foldl (Batch.add d) b).deleted.any (· == p) = true ↔
      b.deleted.any (· == p) = true ∨ ForgottenIn d p (Knows b.analyzer p) changes := by
  induction changes generalizing b with
  | nil => simp [forgottenIn_nil]
  | cons c changes ih =>
    have htaken := taken_add h c
    rw [List.foldl_cons, ih (by rw [htaken.openFiles]; exact h), htaken.deleted, htaken.knows,
      forgottenIn_cons, or_assoc]

/-- After a batch in which a change says that a readable file that is not open was created or
changed, the file has its text on the disk and shows the diagnostics of that text, if and only if no
change of the batch deletes it, or a folder above it, when it is known already. -/
theorem reread_iff_not_forgotten (run : List (Disk × Event)) (d : Disk)
    (changes : List (Uri × Change)) (p : Path) (text : String)
    (hpolicy : p.isPolicy = true) (hread : d.readText p = .ok text)
    (hclosed : ((fresh ()).after .standard run).openFiles.contains p = false)
    (hloads : ∃ c ∈ changes, Loads d p c) :
    let a := (fresh ()).after .standard run
    let b := (a.handle .standard d (.filesChanged changes)).2
    (b.store.documents.get? p = some text ∧ b.store.merged p = b.diagnosticsOf p text) ↔
      ¬∃ before c later, changes = before ++ c :: later ∧ Covers d p c ∧
        (Knows a p ∨ ∃ c' ∈ before, Loads d p c') := by
  intro a b
  have hplain : p.isPlain = true := by
    obtain ⟨c, -, -, hc⟩ := hloads
    obtain ⟨q, -, hq⟩ := Disk.pathOfUri_eq_ok_iff.1 hc
    exact Disk.isPlain_of_readText hq hread
  have h : Readable d a.openFiles p text := ⟨hpolicy, hclosed, hplain, hread⟩
  let batch := changes.foldl (Batch.add d) { analyzer := a }
  have htext : b.store.documents.get? p =
      if (PathSet.ofList batch.deleted).keys.any (· == p) then none
      else batch.analyzer.store.documents.get? p :=
    text?_pass d batch.analyzer batch.toLint (PathSet.ofList batch.deleted).keys p
  rw [← PathMap.contains_eq_any, PathSet.contains_ofList] at htext
  have hdeleted : batch.deleted.any (· == p) = true ↔ ForgottenIn d p (Knows a p) changes :=
    (any_foldl_add (b := { analyzer := a }) h).trans (by simp)
  have hloaded : batch.analyzer.store.documents.get? p = some text :=
    get?_foldl_add (b := { analyzer := a }) h (Or.inr hloads)
  change _ ↔ ¬ForgottenIn d p (Knows a p) changes
  rw [← hdeleted]
  constructor
  · rintro ⟨hb, -⟩ hdel
    rw [htext, hdel] at hb
    cases hb
  · intro hdel
    have hb : b.store.documents.get? p = some text := by
      rw [htext, if_neg hdel]
      exact hloaded
    have hafter : b = (fresh ()).after .standard (run ++ [(d, .filesChanged changes)]) := by
      simp [after, b, a]
    refine ⟨hb, ?_⟩
    have hc := coherent_after (run ++ [(d, .filesChanged changes)])
    rw [← hafter] at hc
    exact hc.merged_eq hb

theorem pathOfUri_of_text {u : Uri}
    (h : (d.pathOfUri u).toOption.map (·.text) = some p.text) : d.pathOfUri u = .ok p := by
  obtain ⟨q, hq, ht⟩ := Option.map_eq_some_iff.1 h
  cases q
  cases p
  cases ht
  exact toOption_eq_some_iff.1 hq

/-- A file that a scan found is forgotten when it is deleted and created again in one batch. -/
theorem recreated_file_is_forgotten :
    let d : Disk := { entries := [
      (["ws"], .folder), (["ws", "a.rego"], .file "package a\n\nx := 1".toUTF8)] }
    let run : List (Disk × Event) := [(d, .rootsGiven [⟨"/ws"⟩]), (d, .scan)]
    let uri : Uri := { scheme? := some "file", authority? := some "", path := "/ws/a.rego" }
    let changes : List (Uri × Change) := [(uri, .deleted), (uri, .created)]
    let b := (((fresh ()).after .standard run).handle .standard d (.filesChanged changes)).2
    ¬(b.store.documents.get? ⟨"/ws/a.rego"⟩ = some "package a\n\nx := 1" ∧
      b.store.merged ⟨"/ws/a.rego"⟩ = b.diagnosticsOf ⟨"/ws/a.rego"⟩ "package a\n\nx := 1") := by
  intro d run uri changes b
  have hread : d.readText ⟨"/ws/a.rego"⟩ = .ok "package a\n\nx := 1" :=
    toOption_eq_some_iff.1 (by decide +kernel)
  have huri : d.pathOfUri uri = .ok ⟨"/ws/a.rego"⟩ := pathOfUri_of_text (by decide +kernel)
  have hclosed : ((fresh ()).after .standard run).openFiles.contains ⟨"/ws/a.rego"⟩ = false := by
    decide +kernel
  have hknown : Knows ((fresh ()).after .standard run) ⟨"/ws/a.rego"⟩ :=
    Or.inl (by decide +kernel)
  have hcovers : Covers d ⟨"/ws/a.rego"⟩ (uri, .deleted) :=
    ⟨rfl, _, huri, fun _ => by decide +kernel, by decide +kernel⟩
  have hloads : ∃ c ∈ changes, Loads d ⟨"/ws/a.rego"⟩ c :=
    ⟨(uri, .created), by simp [changes], Or.inl rfl, huri⟩
  intro hkept
  have hnot := (reread_iff_not_forgotten run d changes ⟨"/ws/a.rego"⟩ _ (by decide +kernel) hread
    hclosed hloads).1 hkept
  exact hnot ⟨[], _, _, rfl, hcovers, Or.inl hknown⟩

end PolicyLint.Analyzer
