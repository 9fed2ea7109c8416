import PolicyLint.Proofs.Uri.Spelling
import PolicyLint.Proofs.Workspace.Coherence
import PolicyLint.Proofs.Workspace.OpenFiles
/-!
# Scans

A scan brings the store up to date with the disk, whatever came before: files that are neither open
nor discovered are forgotten, and discovered files that can be read have their texts on the disk.
A second scan of the same disk finds nothing to do (`scan_reconciles`). That takes the coherence of
the store: a file whose text is the one on the disk is not in need of linting, because every text
was either parsed or found not to parse.

Of discovery only this counts: what it lists depends on the roots and the disk alone, and each file
is listed under one spelling.
-/

namespace PolicyLint.Analyzer

variable {σ : Type} {d : Disk} {p : Path} {text : String}

/-! ## Reading the discovered files -/

theorem scan_eq (b : Batch σ) (q : Path) :
    b.scan d q =
      if b.analyzer.openFiles.contains q then b
      else match d.readText q with
        | .ok text =>
          { b with
            analyzer := b.analyzer.withText q text
            toLint := if b.analyzer.isDue q text then b.toLint ++ [q] else b.toLint }
        | .error _ => b := by
  unfold Batch.scan
  rw [reload_eq]
  cases d.readText q <;> rfl

theorem sameRest_scan (b : Batch σ) (q : Path) : SameRest b.analyzer (b.scan d q).analyzer := by
  rw [scan_eq]
  split
  · exact .refl b.analyzer
  · split
    · exact ⟨rfl, rfl, rfl, rfl⟩
    · exact .refl b.analyzer

theorem sameRest_foldl_scan (files : List Path) (b : Batch σ) :
    SameRest b.analyzer (files.foldl (Batch.scan d) b).analyzer := by
  induction files generalizing b with
  | nil => exact .refl b.analyzer
  | cons q files ih => exact (sameRest_scan b q).trans (ih (b.scan d q))

/-- Reading gives texts to no files but the discovered ones. -/
theorem mem_keys_foldl_scan {files : List Path} {b : Batch σ}
    (h : p ∈ (files.foldl (Batch.scan d) b).analyzer.store.documents.keys) :
    p ∈ b.analyzer.store.documents.keys ∨ p ∈ files := by
  induction files generalizing b with
  | nil => exact Or.inl h
  | cons q files ih =>
    rcases ih h with hp | hp
    · rw [scan_eq] at hp
      split at hp
      · exact Or.inl hp
      · split at hp
        · rcases mem_keys_withText hp with rfl | hp
          · exact Or.inr (List.mem_cons_self ..)
          · exact Or.inl hp
        · exact Or.inl hp
    · exact Or.inr (List.mem_cons_of_mem _ hp)

/-- A discovered file that is not open and can be read has its text on the disk, and keeps it while
the other files are read. -/
theorem get?_foldl_scan {files : List Path} {b : Batch σ}
    (hclosed : b.analyzer.openFiles.contains p = false) (hread : d.readText p = .ok text)
    (hspelled : ∀ q ∈ files, (q == p) = true → q = p)
    (h : b.analyzer.store.documents.get? p = some text ∨ p ∈ files) :
    (files.foldl (Batch.scan d) b).analyzer.store.documents.get? p = some text := by
  induction files generalizing b with
  | nil => simpa using h
  | cons q files ih =>
    have hstep : (b.scan d q).analyzer.store.documents.get? p = some text ∨ p ∈ files := by
      rw [scan_eq]
      by_cases hqp : (q == p) = true
      · have heq : q = p := hspelled q (List.mem_cons_self ..) hqp
        rw [heq, hclosed, hread]
        left
        exact (get?_withText ..).trans (if_pos BEq.rfl)
      · have hrest : b.analyzer.store.documents.get? p = some text ∨ p ∈ files := by
          apply h.imp_right
          intro hp
          rcases List.mem_cons.1 hp with rfl | hp
          · exact absurd BEq.rfl hqp
          · exact hp
        split
        · exact hrest
        · split
          · exact hrest.imp_left fun ht => (get?_withText ..).trans ((if_neg hqp).trans ht)
          · exact hrest
    refine ih ?_ (fun r hr => hspelled r (List.mem_cons_of_mem _ hr)) hstep
    rw [(sameRest_scan b q).openFiles]
    exact hclosed

/-! ## Files that are up to date -/

variable {good : Path → Option Rego.Module} {a : Analyzer Unit}

theorem withText_of_get? (h : a.store.documents.get? p = some text) : a.withText p text = a := by
  have hh : a.store.holds p text = true := Store.holds_iff.2 h
  unfold withText
  rw [Store.updateText, if_pos hh]

theorem Coherent.not_isDue (hc : Coherent good a) (h : a.store.documents.get? p = some text) :
    a.isDue p text = false := by
  obtain ⟨hsound, hsettled, -⟩ := hc p
  have hholds : a.store.holds p text = true := Store.holds_iff.2 h
  have hneeds : a.needsLint p = false := by
    unfold needsLint
    cases hp : Rego.parse text with
    | ok m =>
      have hm : a.store.modules.get? p = some m :=
        congrArg FileRecord.module? (hsettled.noted hsound h hp)
      rw [PathMap.contains, hm]
      rfl
    | error errors =>
      have he : a.store.parseErrors.get? p = some (errors.map .ofParseError) :=
        hsettled.broken hsound h hp
      cases errors with
      | nil => exact absurd rfl (parse_error_ne_nil hp)
      | cons e es => rw [he]; exact Bool.and_false _
  rw [isDue, hholds, withText_of_get? h, hneeds]
  rfl

/-- Reading files whose texts on the disk they have already changes nothing and asks for nothing. -/
theorem foldl_scan_of_current {files : List Path} (hc : Coherent good a)
    (h : ∀ q ∈ files, a.openFiles.contains q = false → ∀ text, d.readText q = .ok text →
      a.store.documents.get? q = some text) :
    files.foldl (Batch.scan d) { analyzer := a } = { analyzer := a } := by
  induction files with
  | nil => rfl
  | cons q files ih =>
    have hstep : Batch.scan d { analyzer := a } q = { analyzer := a } := by
      rw [scan_eq]
      dsimp only
      split
      · rfl
      · next hopen =>
        split
        · next text hread =>
          have ht := h q (List.mem_cons_self ..) (by simpa using hopen) text hread
          rw [withText_of_get? ht, hc.not_isDue ht]
          rfl
        · rfl
    rw [List.foldl_cons, hstep]
    exact ih fun r hr => h r (List.mem_cons_of_mem _ hr)

/-! ## One scan and the next -/

/-- The files that discovery finds under the roots. -/
def listed (d : Disk) (a : Analyzer σ) : List Path :=
  Discovery.discover d a.layout.roots.keys

def NoneOpen (a : Analyzer σ) : Prop :=
  ∀ p, a.openFiles.contains p = false

theorem noneOpen_of_isEmpty {a : Analyzer σ} (h : a.openFiles.keys.isEmpty = true) : a.NoneOpen := by
  intro p
  rw [PathMap.contains_eq_any, List.isEmpty_iff.1 h]
  rfl

theorem not_stale_iff {b : Analyzer σ} (hp : p ∈ b.store.documents.keys) :
    p ∉ b.stale d ↔ b.openFiles.contains p = true ∨ ∃ f ∈ b.listed d, (p == f) = true := by
  have hlisted : (b.layout.discover d).1 = b.listed d := rfl
  unfold stale
  rw [List.mem_filter, hlisted]
  simp only [hp, true_and, Bool.and_eq_true, Bool.not_eq_true']
  cases ho : b.openFiles.contains p with
  | true => simp
  | false => simp [List.any_eq_false]

theorem any_stale_of_listed {b : Analyzer σ} (hp : p ∈ b.listed d) :
    (b.stale d).any (· == p) = false := by
  have hnot : ∀ k, (k == p) = true →
      (!b.openFiles.contains k && !(b.layout.discover d).1.any (k == ·)) = false := by
    intro k hk
    have hany : (b.layout.discover d).1.any (k == ·) = true := List.any_eq_true.2 ⟨p, hp, hk⟩
    rw [hany]
    exact Bool.and_false _
  rw [stale, any_filter_beq hnot, Bool.false_and]

/-- After a scan, a file that has a text is open or discovered. -/
theorem listed_of_scanned (b : Analyzer σ) {cap : Capabilities σ}
    (hp : (b.scan cap d).2.store.documents.contains p = true)
    (hclosed : b.openFiles.contains p = false) : ∃ f ∈ b.listed d, (f == p) = true := by
  obtain ⟨k, hk, hkp⟩ := PathMap.contains_iff.1 hp
  obtain ⟨hstart, hkept⟩ := mem_keys_pass.1 hk
  rcases mem_keys_foldl_scan hstart with hk | hk
  · have hnot : k ∉ b.stale d := by
      intro hstale
      have hne := hkept k hstale
      rw [BEq.rfl] at hne
      cases hne
    rcases (not_stale_iff hk).1 hnot with hopen | ⟨f, hf, hkf⟩
    · rw [PathMap.contains_congr _ hkp, hclosed] at hopen
      cases hopen
    · exact ⟨f, hf, BEq.trans (BEq.symm hkf) hkp⟩
  · exact ⟨k, hk, hkp⟩

/-- After a scan, a discovered file that is not open and can be read has its text on the disk. -/
theorem get?_scan (hp : p ∈ a.listed d) (hclosed : a.openFiles.contains p = false)
    (hread : d.readText p = .ok text) :
    (a.scan .standard d).2.store.documents.get? p = some text := by
  have hplain : ∀ q ∈ a.listed d, q.isPlain = true := fun q hq => Discovery.isPlain_discover hq
  have hloaded : (a.scanWork d).start.store.documents.get? p = some text :=
    get?_foldl_scan (b := { analyzer := a.discovered d }) hclosed hread
      (fun q hq hqp => Path.eq_of_isPlain (hplain q hq) (hplain p hp) hqp) (Or.inr hp)
  have htext := get?_documents_pass Capabilities.quiet_standard d (a.scanWork d).start
    (a.scanWork d).toLint (a.stale d) p
  rw [any_stale_of_listed hp] at htext
  exact htext.trans hloaded

/-- After a scan the known files are the discovered ones: what is forgotten is none of them. -/
theorem layout_scan (b : Analyzer σ) (cap : Capabilities σ) :
    (b.scan cap d).2.layout = (b.discovered d).layout := by
  have hstart : (b.scanWork d).start.layout = (b.discovered d).layout :=
    (sameRest_foldl_scan (b.listed d) { analyzer := b.discovered d }).layout
  have hpass := layout_pass cap d (b.scanWork d).start (b.scanWork d).toLint (b.stale d)
  refine hpass.trans ((layout_foldl_forget ?_).trans hstart)
  intro q hq
  rw [hstart]
  change (PathSet.ofList (b.listed d)).contains q = false
  have hstale := (List.mem_filter.1 hq).2
  simp only [Bool.and_eq_true, Bool.not_eq_true', List.any_eq_false] at hstale
  rw [PathSet.contains_ofList, List.any_eq_false]
  intro f hf hfq
  exact hstale.2 f hf (BEq.symm hfq)

theorem scan_rest (cap : Capabilities σ) (d : Disk) (b : Analyzer σ) :
    (b.scan cap d).2.settings = b.settings ∧ (b.scan cap d).2.openFiles = b.openFiles := by
  have hrest : SameRest (b.discovered d) (b.scanWork d).start :=
    sameRest_foldl_scan (b.listed d) { analyzer := b.discovered d }
  obtain ⟨hsettings, hopen⟩ := pass_rest cap d (b.scanWork d).start (b.scanWork d).toLint (b.stale d)
  exact ⟨hsettings.trans hrest.settings, hopen.trans hrest.openFiles⟩

theorem listed_scan (b : Analyzer σ) (cap : Capabilities σ) (later : Disk) :
    (b.scan cap d).2.listed later = b.listed later := by
  unfold listed
  rw [layout_scan]
  rfl

/-- A scan of a disk with which the store agrees finds nothing to do. -/
theorem scan_of_current (hc : Coherent good a) (hknown : a.discovered d = a)
    (hlisted : ∀ q, a.store.documents.contains q = true → a.openFiles.contains q = false →
      ∃ f ∈ a.listed d, (f == q) = true)
    (hread : ∀ q ∈ a.listed d, a.openFiles.contains q = false → ∀ text,
      d.readText q = .ok text → a.store.documents.get? q = some text) :
    a.scan .standard d = ([], a) := by
  have hbatch : (a.listed d).foldl (Batch.scan d) { analyzer := a.discovered d } =
      { analyzer := a } := by
    rw [hknown]
    exact foldl_scan_of_current hc hread
  have hstale : a.stale d = [] := by
    apply List.eq_nil_iff_forall_not_mem.2
    intro q hq
    have hkey : q ∈ a.store.documents.keys := (List.mem_filter.1 hq).1
    refine (not_stale_iff hkey).2 ?_ hq
    cases ho : a.openFiles.contains q with
    | true => exact Or.inl rfl
    | false =>
      obtain ⟨f, hf, hfq⟩ := hlisted q (PathMap.contains_of_mem_keys hkey) ho
      exact Or.inr ⟨f, hf, BEq.symm hfq⟩
  have hwork : a.scanWork d = { start := a } := by
    change Work.mk _ _ (a.stale d) = _
    rw [hstale]
    change Work.mk ((a.listed d).foldl (Batch.scan d) _).analyzer
      ((a.listed d).foldl (Batch.scan d) _).toLint [] = _
    rw [hbatch]
  change (a.scanWork d).run .standard d = _
  rw [hwork]
  rfl

/-- After a scan, from any state that a run leads to, every file with a text that is not open is
discovered, every discovered file that is not open and can be read has its text on the disk, and
open files keep their texts. A second scan of the same disk publishes nothing and changes nothing at
all. -/
theorem scan_reconciles (run : List (Disk × Event)) (d : Disk) :
    let a := (fresh ()).after .standard run
    let files := Discovery.discover d a.layout.roots.keys
    let b := (a.scan .standard d).2
    (∀ p, b.store.documents.contains p = true → b.openFiles.contains p = false →
      ∃ f ∈ files, (f == p) = true) ∧
    (∀ p ∈ files, b.openFiles.contains p = false → ∀ text, d.readText p = .ok text →
      b.store.documents.get? p = some text) ∧
    (∀ p, a.openFiles.contains p = true →
      b.store.documents.get? p = a.store.documents.get? p) ∧
    b.openFiles = a.openFiles ∧
    b.scan .standard d = ([], b) := by
  intro a files b
  have hopen : b.openFiles = a.openFiles := (scan_rest .standard d a).2
  have hlayout : b.layout = (a.discovered d).layout := layout_scan a .standard
  have hfiles : b.listed d = files := listed_scan a .standard d
  have hlisted : ∀ p, b.store.documents.contains p = true → b.openFiles.contains p = false →
      ∃ f ∈ files, (f == p) = true := by
    intro p hp hclosed
    rw [hopen] at hclosed
    exact listed_of_scanned a hp hclosed
  have hread : ∀ p ∈ files, b.openFiles.contains p = false → ∀ text, d.readText p = .ok text →
      b.store.documents.get? p = some text := by
    intro p hp hclosed text ht
    rw [hopen] at hclosed
    exact get?_scan hp hclosed ht
  have hkept : ∀ p, a.openFiles.contains p = true →
      b.store.documents.get? p = a.store.documents.get? p := by
    intro p hp
    have hholds : Holds p (a.store.documents.get? p) a := ⟨hp, rfl⟩
    exact ((hholds.scanWork (d := d)).run Capabilities.quiet_standard).text
  refine ⟨hlisted, hread, hkept, hopen, ?_⟩
  have hafter : b = (fresh ()).after .standard (run ++ [(d, .scan)]) := by
    simp [after, b, a, handle]
  have hc := coherent_after (run ++ [(d, .scan)])
  rw [← hafter] at hc
  refine scan_of_current hc ?_ (by rwa [hfiles]) (by rwa [hfiles])
  have hknown : (b.layout.discover d).2 = b.layout := by
    rw [hlayout]
    rfl
  unfold discovered
  rw [hknown]

/-- A scan after the disk changed, with a file open that was not saved: the other file is read anew,
the one that is gone is forgotten, and the folder with the name of a policy file stands in nobody's
way. -/
theorem scan_reconciles_changed_files :
    let uri : Uri := { scheme? := some "file", authority? := some "", path := "/ws/u.rego" }
    let d : Disk := { entries := [
      (["ws"], .folder), (["ws", "a.rego"], .file "package a".toUTF8),
      (["ws", "c.rego"], .file "package c".toUTF8),
      (["ws", "u.rego"], .file "package u".toUTF8)] }
    let later : Disk := { entries := [
      (["ws"], .folder), (["ws", "a.rego"], .file "package a2".toUTF8),
      (["ws", "u.rego"], .file "package u2".toUTF8), (["ws", "x.rego"], .folder)] }
    let run : List (Disk × Event) :=
      [(d, .rootsGiven [⟨"/ws"⟩]), (d, .scan), (d, .opened uri "package")]
    let b := (((fresh ()).after .standard run).scan .standard later).2
    b.store.documents.get? ⟨"/ws/a.rego"⟩ = some "package a2" ∧
      b.store.documents.get? ⟨"/ws/c.rego"⟩ = none ∧
      b.store.documents.get? ⟨"/ws/u.rego"⟩ = some "package" ∧
      b.scan .standard later = ([], b) := by
  intro uri d later run
  dsimp only
  obtain ⟨hlisted, hread, hkept, hsame, hagain⟩ := scan_reconciles run later
  have hbefore : let a := (fresh ()).after .standard run
      a.openFiles.contains ⟨"/ws/a.rego"⟩ = false ∧ a.openFiles.contains ⟨"/ws/c.rego"⟩ = false ∧
      a.openFiles.contains ⟨"/ws/u.rego"⟩ = true ∧
      a.store.documents.get? ⟨"/ws/u.rego"⟩ = some "package" := by decide +kernel
  obtain ⟨ha, hc, hu, htext⟩ := hbefore
  have hfiles : (Discovery.discover later
      ((fresh ()).after .standard run).layout.roots.keys).map (·.text) =
      ["/ws/a.rego", "/ws/u.rego", "/ws/x.rego"] := by decide +kernel
  rw [hsame] at hlisted hread
  refine ⟨?_, ?_, (hkept ⟨"/ws/u.rego"⟩ hu).trans htext, hagain⟩
  · obtain ⟨f, hf, ht⟩ := List.mem_map.1 (hfiles ▸ List.mem_cons_self ..)
    exact hread _ (ht ▸ hf) ha _ (toOption_eq_some_iff.1 (by decide +kernel))
  · -- the file is spelled like none of the discovered ones
    have hgone : ∀ f ∈ Discovery.discover later
        ((fresh ()).after .standard run).layout.roots.keys, (f == ⟨"/ws/c.rego"⟩) = false := by
      intro f hf
      have hft : f.text ∈ _ := hfiles ▸ List.mem_map_of_mem hf
      cases f
      simp only [List.mem_cons, List.not_mem_nil, or_false] at hft
      rcases hft with rfl | rfl | rfl <;> decide +kernel
    cases hnone : PathMap.get? _ (⟨"/ws/c.rego"⟩ : Path) with
    | none => rfl
    | some text =>
      obtain ⟨f, hf, hfc⟩ := hlisted ⟨"/ws/c.rego"⟩ (by rw [PathMap.contains, hnone]; rfl) hc
      rw [hgone f hf] at hfc
      cases hfc

end PolicyLint.Analyzer
