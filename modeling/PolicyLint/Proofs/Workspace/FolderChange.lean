import PolicyLint.Proofs.Workspace.Agreement
import PolicyLint.Proofs.Workspace.ClientView
import PolicyLint.Proofs.Workspace.Listing
import PolicyLint.Proofs.Workspace.Roots
import PolicyLint.Proofs.Workspace.Scan
/-!
# Changing folders and starting afresh

When folders are removed, the files to forget are found among the known ones: those below a removed
path and below no root that is left. An analyzer that starts with the roots that are left walks
through them instead. The two do not always come to the same files: a link below a removed root may
lead elsewhere, a file below a root may be hidden from it, and a root that is a link covers nothing of
what it leads to (`folder_change_starts_afresh_iff`). Once a new root is added all is scanned, and
no difference is left.

Where the texts are the same, all else is: as long as all texts that parsed are still there, nothing
but the texts is remembered (`Coherent.parsedTexts`).
-/

namespace PolicyLint

/-- The texts that the listed files have on the disk. -/
def Disk.textIn? (d : Disk) (files : List Path) (p : Path) : Option String :=
  (files.find? (· == p)).bind fun f => (d.readText f).toOption

theorem Disk.textIn?_of_mem {d : Disk} {files : List Path} {p : Path}
    (hplain : ∀ f ∈ files, f.isPlain = true) (hp : p ∈ files) :
    d.textIn? files p = (d.readText p).toOption := by
  unfold textIn?
  cases hf : files.find? (· == p) with
  | none => exact absurd BEq.rfl (List.find?_eq_none.1 hf p hp)
  | some f =>
    have hfp := List.find?_some hf
    rw [Path.eq_of_isPlain (hplain f (List.mem_of_find?_eq_some hf)) (hplain p hp) hfp]
    rfl

theorem Disk.textIn?_of_not_mem {d : Disk} {files : List Path} {p : Path}
    (hplain : ∀ f ∈ files, f.isPlain = true) (hp : p.isPlain = true) (h : p ∉ files) :
    d.textIn? files p = none := by
  unfold textIn?
  cases hf : files.find? (· == p) with
  | none => rfl
  | some f =>
    have hfp := List.find?_some hf
    have hmem := List.mem_of_find?_eq_some hf
    rw [Path.eq_of_isPlain (hplain f hmem) hp hfp] at hmem
    exact absurd hmem h

namespace Analyzer

variable {σ : Type} {d : Disk} {p q : Path} {text : String} {a b : Analyzer Unit}

/-! ## Texts after a scan -/

theorem get?_foldl_scan_of_unreadable {files : List Path} {b : Batch σ}
    (h : ∀ q ∈ files, (q == p) = true → (d.readText q).toOption = none) :
    (files.foldl (Batch.scan d) b).analyzer.store.documents.get? p =
      b.analyzer.store.documents.get? p := by
  induction files generalizing b with
  | nil => rfl
  | cons q files ih =>
    rw [List.foldl_cons, ih fun r hr => h r (List.mem_cons_of_mem _ hr), scan_eq]
    split
    · rfl
    · split
      · next text hread =>
        by_cases hqp : (q == p) = true
        · have hnone := h q (List.mem_cons_self ..) hqp
          rw [hread] at hnone
          cases hnone
        · exact (get?_withText ..).trans (if_neg hqp)
      · rfl

/-- After a scan with no file open, the texts are those of the listed files on the disk. Only a text
of a listed file that can no longer be read would be kept. -/
theorem get?_scan_eq_textIn? (hclosed : a.NoneOpen)
    (hreadable : ∀ f ∈ a.listed d, a.store.documents.contains f = true →
      (d.readText f).toOption.isSome = true) (p : Path) :
    (a.scan .standard d).2.store.documents.get? p = d.textIn? (a.listed d) p := by
  have hplain : ∀ f ∈ a.listed d, f.isPlain = true := fun f hf => Discovery.isPlain_discover hf
  unfold Disk.textIn?
  cases hf : (a.listed d).find? (· == p) with
  | none =>
    cases ht : (a.scan .standard d).2.store.documents.get? p with
    | none => rfl
    | some text =>
      have hcontains : (a.scan .standard d).2.store.documents.contains p = true := by
        rw [PathMap.contains, ht]
        rfl
      obtain ⟨f, hmem, hfp⟩ := listed_of_scanned a hcontains (hclosed p)
      exact absurd hfp (List.find?_eq_none.1 hf f hmem)
  | some f =>
    have hmem := List.mem_of_find?_eq_some hf
    have hfp : (f == p) = true := by
      have hsome := List.find?_some hf
      exact hsome
    rw [← PathMap.get?_congr _ hfp, Option.bind_some]
    cases hread : d.readText f with
    | ok text => exact get?_scan hmem (hclosed f) hread
    | error fault =>
      have hnone : a.store.documents.get? f = none := by
        cases ht : a.store.documents.get? f with
        | none => rfl
        | some text =>
          have hsome := hreadable f hmem (by rw [PathMap.contains, ht]; rfl)
          rw [hread] at hsome
          cases hsome
      have hloaded : (a.scanWork d).start.store.documents.get? f = none := by
        refine (get?_foldl_scan_of_unreadable fun q hq hqf => ?_).trans hnone
        rw [Path.eq_of_isPlain (hplain q hq) (hplain f hmem) hqf, hread]
        rfl
      have htext := get?_documents_pass Capabilities.quiet_standard d (a.scanWork d).start
        (a.scanWork d).toLint (a.stale d) f
      rw [any_stale_of_listed hmem] at htext
      exact htext.trans hloaded

/-! ## Nothing but the texts -/

/-- The modules of the texts that there are. -/
def parsedTexts (a : Analyzer Unit) (p : Path) : Option Rego.Module :=
  (a.store.documents.get? p).bind fun text => (Rego.parse text).toOption

/-- Where all texts parse, nothing else is remembered. -/
theorem Coherent.parsedTexts {good : Path → Option Rego.Module} (hc : Coherent good a)
    (h : ∀ p text, a.store.documents.get? p = some text → ∃ m, Rego.parse text = .ok m) :
    Coherent a.parsedTexts a := by
  have hgood : good = a.parsedTexts := by
    funext p
    unfold Analyzer.parsedTexts
    cases ht : a.store.documents.get? p with
    | none => exact (hc p).1.good_of_absent ht
    | some text =>
      obtain ⟨m, hm⟩ := h p text ht
      rw [hc.good_of_parse ht hm, Option.bind_some, hm]
      rfl
  rw [← hgood]
  exact hc

/-- A pass that replaces no text by another one leaves nothing else to be remembered. -/
theorem Coherent.parsedTexts_step {r : List Publication × Analyzer Unit} {Q : Path → Prop}
    (hc : Coherent a.parsedTexts a) (hr : PassStep Q .standard d a r)
    (h : ∀ p old new, a.store.documents.get? p = some old →
      r.2.store.documents.get? p = some new → old = new) :
    Coherent r.2.parsedTexts r.2 := by
  have hgood : noteGood a.parsedTexts r = r.2.parsedTexts := by
    funext p
    change lastGood (a.parsedTexts p) (r.2.store.documents.get? p) = r.2.parsedTexts p
    unfold Analyzer.parsedTexts
    cases hnew : r.2.store.documents.get? p with
    | none => rfl
    | some new =>
      rw [lastGood, Option.bind_some]
      cases hold : a.store.documents.get? p with
      | none => exact Option.or_none
      | some old =>
        rw [h p old new hold hnew, Option.bind_some]
        cases (Rego.parse new).toOption <;> rfl
  rw [← hgood]
  exact hc.step hr

/-- All texts are those of files on the disk. -/
def Reflects (d : Disk) (a : Analyzer σ) : Prop :=
  ∀ p text, a.store.documents.get? p = some text →
    ∃ f : Path, f.isPlain = true ∧ (f == p) = true ∧ d.readText f = .ok text

theorem Reflects.text_unique (ha : a.Reflects d) (hb : b.Reflects d) {old new : String}
    (hold : a.store.documents.get? p = some old) (hnew : b.store.documents.get? p = some new) :
    old = new := by
  obtain ⟨f, hf, hfp, hread⟩ := ha p old hold
  obtain ⟨g, hg, hgp, hread'⟩ := hb p new hnew
  have hfg : f = g := Path.eq_of_isPlain hf hg (BEq.trans hfp (BEq.symm hgp))
  rw [hfg, hread'] at hread
  exact (Except.ok.inj hread).symm

theorem reflects_of_textIn? {files : List Path} (hplain : ∀ f ∈ files, f.isPlain = true)
    (h : ∀ p, a.store.documents.get? p = d.textIn? files p) : a.Reflects d := by
  intro p text ht
  rw [h] at ht
  obtain ⟨f, hf, hread⟩ := Option.bind_eq_some_iff.1 ht
  have hfp := List.find?_some hf
  exact ⟨f, hplain f (List.mem_of_find?_eq_some hf), hfp, toOption_eq_some_iff.1 hread⟩

/-! ## Starting afresh -/

/-- An analyzer with the given settings and roots that has just scanned the disk. -/
def startedAfresh (d : Disk) (settings : Settings) (roots : List Path) : Analyzer Unit :=
  (fresh ()).after .standard [(d, .configure settings), (d, .rootsGiven roots), (d, .scan)]

/-- What there is before that scan: the settings and the roots, and no file. -/
theorem configured_fresh (d : Disk) (settings : Settings) :
    ((fresh ()).handle .standard d (.configure settings)).2 = { fresh () with settings } := by
  change ((fresh ()).configure .standard d settings).2 = _
  unfold configure
  split
  · next h => rw [← h]
  · rfl

/-- An analyzer with the given settings and roots that has not scanned anything. -/
def prepared (settings : Settings) (roots : List Path) : Analyzer Unit :=
  (({ fresh () with settings } : Analyzer Unit).addRoots roots).2

theorem startedAfresh_eq (d : Disk) (settings : Settings) (roots : List Path) :
    startedAfresh d settings roots = ((prepared settings roots).scan .standard d).2 := by
  unfold startedAfresh
  rw [after, List.foldl_cons, configured_fresh]
  rfl

theorem listed_prepared (d : Disk) (settings : Settings) (s : PathSet) :
    (prepared settings s.keys).listed d = Discovery.discover d s.keys := by
  have hroots : (prepared settings s.keys).layout.roots = PathSet.ofList s.keys :=
    Layout.roots_addRoots {} s.keys
  rw [listed, hroots, PathSet.keys_ofList_keys]

/-- Starting afresh, the texts are those of the files that are listed. -/
theorem get?_startedAfresh (d : Disk) (settings : Settings) (s : PathSet) (p : Path) :
    (startedAfresh d settings s.keys).store.documents.get? p =
      d.textIn? (Discovery.discover d s.keys) p := by
  rw [startedAfresh_eq, get?_scan_eq_textIn?, listed_prepared]
  · intro q
    rfl
  · intro f _ hf
    cases hf

theorem settings_startedAfresh (d : Disk) (settings : Settings) (roots : List Path) :
    (startedAfresh d settings roots).settings = settings := by
  rw [startedAfresh_eq]
  exact (scan_rest .standard d (prepared settings roots)).1

theorem passStep_scan (d : Disk) (a : Analyzer Unit) :
    PassStep (fun _ => True) .standard d a (a.scan .standard d) :=
  (asked_scanWork ⟨fun _ _ => trivial, fun _ _ => trivial⟩ .start fun _ _ _ => trivial).passStep
    .standard d

theorem coherent_startedAfresh (d : Disk) (settings : Settings) (roots : List Path) :
    Coherent (startedAfresh d settings roots).parsedTexts (startedAfresh d settings roots) := by
  have hempty : Coherent (prepared settings roots).parsedTexts (prepared settings roots) :=
    fun _ => ⟨FileRecord.sound_empty, FileRecord.settled_empty _, rfl⟩
  rw [startedAfresh_eq]
  refine hempty.parsedTexts_step (passStep_scan d _) ?_
  intro p old new hold _
  cases hold

/-! ## Removing and adding folders -/

/-- After a scan with no file open that found only files whose texts parse. -/
structure Scanned (d : Disk) (a : Analyzer Unit) : Prop where
  coherent : Coherent a.parsedTexts a
  noneOpen : a.NoneOpen
  text : ∀ p, a.store.documents.get? p = d.textIn? (a.listed d) p
  known : ∀ p, a.layout.known.contains p = (a.listed d).any (· == p)
  readable : ∀ f ∈ a.listed d, (d.readText f).toOption.isSome = true

theorem plain_listed {a : Analyzer σ} : ∀ f ∈ a.listed d, f.isPlain = true :=
  fun _ hf => Discovery.isPlain_discover hf

theorem Scanned.reflects (h : Scanned d a) : a.Reflects d :=
  reflects_of_textIn? plain_listed h.text

theorem scanned_after (run : List (Disk × Event)) (d : Disk) :
    let a := (fresh ()).after .standard (run ++ [(d, .scan)])
    a.NoneOpen →
      (∀ f ∈ a.listed d, ∃ text m, d.readText f = .ok text ∧ Rego.parse text = .ok m) →
      Scanned d a := by
  intro a hclosed hparsed
  let before := (fresh ()).after .standard run
  have ha : a = (before.scan .standard d).2 := after_append ..
  have hlisted : a.listed d = before.listed d := by rw [ha, listed_scan]
  have hreadable : ∀ f ∈ a.listed d, (d.readText f).toOption.isSome = true := by
    intro f hf
    obtain ⟨text, m, hread, -⟩ := hparsed f hf
    rw [hread]
    rfl
  have htext : ∀ p, a.store.documents.get? p = d.textIn? (a.listed d) p := by
    intro p
    rw [ha, listed_scan]
    refine get?_scan_eq_textIn? ?_ ?_ p
    · intro q
      rw [← (scan_rest .standard d before).2, ← ha]
      exact hclosed q
    · intro f hf _
      exact hreadable f (hlisted ▸ hf)
  have hparses : ∀ p text, a.store.documents.get? p = some text →
      ∃ m, Rego.parse text = .ok m := by
    intro p text ht
    rw [htext] at ht
    obtain ⟨f, hf, hread⟩ := Option.bind_eq_some_iff.1 ht
    obtain ⟨text', m, hread', hm⟩ := hparsed f (List.mem_of_find?_eq_some hf)
    rw [hread'] at hread
    cases hread
    exact ⟨m, hm⟩
  have hcoherent : Coherent (lastParsed (run ++ [(d, .scan)])) a := coherent_after _
  have hknown : a.layout.known = PathSet.ofList (a.listed d) := by
    rw [hlisted, ha, layout_scan]
    rfl
  refine ⟨hcoherent.parsedTexts hparses, hclosed, htext, fun p => ?_, hreadable⟩
  rw [hknown, PathSet.contains_ofList]

def leftLayout (a : Analyzer σ) (roots : List Path) : Layout :=
  (roots.foldl dropRoot ([], a.layout)).2

/-- A file that a removal of roots drops: it is listed below a removed path and below no root that
is left. -/
def Drops (d : Disk) (a : Analyzer σ) (roots : List Path) (p : Path) : Prop :=
  (a.listed d).any (· == p) = true ∧ (∃ root ∈ roots, p.isWithin root = true) ∧
    (a.leftLayout roots).covers p = false

/-- After a removal of roots, with no file open, the files that it drops have no text any more. -/
theorem Scanned.removed (h : Scanned d a) (roots : List Path) :
    let b := ((a.removalWork roots).run .standard d).2
    b.layout.roots = (a.leftLayout roots).roots ∧ b.settings = a.settings ∧ b.NoneOpen ∧
      Coherent b.parsedTexts b ∧
      (∀ p, Drops d a roots p → b.store.documents.get? p = none) ∧
      ∀ p, ¬Drops d a roots p →
        b.store.documents.get? p = a.store.documents.get? p := by
  intro b
  let dropped := (roots.foldl dropRoot ([], a.layout)).1
  have hdeleted : (a.removalWork roots).deleted = dropped := by
    refine List.filter_eq_self.2 fun p _ => ?_
    rw [h.noneOpen p]
    rfl
  have hdropped : ∀ p, dropped.any (· == p) = true ↔ Drops d a roots p := by
    intro p
    refine dropped_iff.trans ?_
    rw [h.known]
    simp [Drops, leftLayout]
  have htext : ∀ p, b.store.documents.get? p =
      if dropped.any (· == p) then none else a.store.documents.get? p := by
    intro p
    have hpass := get?_documents_pass Capabilities.quiet_standard d (a.removalWork roots).start
      (a.removalWork roots).toLint (a.removalWork roots).deleted p
    refine hpass.trans ?_
    rw [hdeleted]
    rfl
  obtain ⟨hsettings, hopen⟩ := pass_rest .standard d (a.removalWork roots).start
    (a.removalWork roots).toLint (a.removalWork roots).deleted
  have hasked : Asked (fun _ => True) a (a.removalWork roots) :=
    asked_removalWork ⟨fun _ _ => trivial, fun _ _ => trivial⟩
  refine ⟨roots_pass .standard d _ _ _, hsettings, ?_, ?_, ?_, ?_⟩
  · intro p
    exact (congrArg (·.contains p) hopen).trans (h.noneOpen p)
  · refine h.coherent.parsedTexts_step (hasked.passStep .standard d) ?_
    intro p old new hold hnew
    have hkept := htext p
    rw [hnew] at hkept
    split at hkept
    · cases hkept
    · rw [hold] at hkept
      exact (Option.some.inj hkept).symm
  · intro p hp
    rw [htext, if_pos ((hdropped p).2 hp)]
  · intro p hp
    rw [htext, if_neg fun hany => hp ((hdropped p).1 hany)]

/-- A root that is added is new if it was removed just before, or was no root. -/
theorem contains_leftLayout (a : Analyzer σ) (roots : List Path) (root : Path) :
    (a.leftLayout roots).roots.contains root =
      (a.layout.roots.contains root && !roots.any (· == root)) :=
  contains_roots_foldl_dropRoot _ _ _

/-- Where the files are those that are listed, no text is lost or left over. -/
theorem Scanned.agrees_iff (h : Scanned d a) {roots : List Path} {b c : Analyzer Unit}
    (hsub : ∀ f ∈ b.listed d, f ∈ a.listed d)
    (hdrop : ∀ p, Drops d a roots p → b.store.documents.get? p = none)
    (hkeep : ∀ p, ¬Drops d a roots p →
      b.store.documents.get? p = a.store.documents.get? p)
    (hc : ∀ p, c.store.documents.get? p = d.textIn? (b.listed d) p) :
    (∀ p, b.store.documents.get? p = c.store.documents.get? p) ↔
      ∀ f ∈ a.listed d, f ∈ b.listed d ↔ ¬Drops d a roots f := by
  have ha : ∀ f ∈ a.listed d, a.store.documents.get? f = (d.readText f).toOption := by
    intro f hf
    rw [h.text, Disk.textIn?_of_mem plain_listed hf]
  have hread : ∀ f ∈ a.listed d, (d.readText f).toOption ≠ none := by
    intro f hf hnone
    have hsome := h.readable f hf
    rw [hnone] at hsome
    cases hsome
  have hlisted : ∀ f ∈ b.listed d, c.store.documents.get? f = (d.readText f).toOption := by
    intro f hf
    rw [hc, Disk.textIn?_of_mem plain_listed hf]
  have hunlisted : ∀ f ∈ a.listed d, f ∉ b.listed d → c.store.documents.get? f = none := by
    intro f hf hnot
    rw [hc, Disk.textIn?_of_not_mem plain_listed (plain_listed f hf) hnot]
  constructor
  · intro hsame f hf
    constructor
    · intro hb hdropped
      have hnone := hdrop f hdropped
      rw [hsame, hlisted f hb] at hnone
      exact hread f hf hnone
    · intro hkept
      refine Classical.byContradiction fun hnot => ?_
      have hnone := hunlisted f hf hnot
      rw [← hsame, hkeep f hkept, ha f hf] at hnone
      exact hread f hf hnone
  · intro hiff p
    cases hf : (a.listed d).find? (· == p) with
    | some f =>
      have hmem := List.mem_of_find?_eq_some hf
      have hfp : (f == p) = true := by
        have hsome := List.find?_some hf
        exact hsome
      rw [← PathMap.get?_congr _ hfp, ← PathMap.get?_congr _ hfp]
      by_cases hb : f ∈ b.listed d
      · rw [hkeep f ((hiff f hmem).1 hb), ha f hmem, hlisted f hb]
      · have hdropped : Drops d a roots f :=
          Classical.byContradiction fun hkept => hb ((hiff f hmem).2 hkept)
        rw [hdrop f hdropped, hunlisted f hmem hb]
    | none =>
      have hany : (a.listed d).any (· == p) = false := by
        rw [List.any_eq_false]
        exact List.find?_eq_none.1 hf
      have hkept : ¬Drops d a roots p := by
        rintro ⟨hlist, -⟩
        rw [hany] at hlist
        cases hlist
      have hnone : (b.listed d).find? (· == p) = none :=
        List.find?_eq_none.2 fun f hfb => List.find?_eq_none.1 hf f (hsub f hfb)
      rw [hkeep p hkept, h.text, hc]
      unfold Disk.textIn?
      rw [hf, hnone]

/-! ## Adding folders -/

theorem additionWork_of_known {cap : Capabilities σ} {a : Analyzer σ} {roots : List Path}
    (h : ∀ root ∈ roots, a.layout.roots.contains root = true) :
    ((a.additionWork d roots).run cap d).2 = a := by
  have hnone : (a.addRoots roots).1 = false := by
    refine List.any_eq_false.2 fun root hroot => ?_
    rw [h root hroot]
    exact Bool.false_ne_true
  have hsame : (a.addRoots roots).2 = a := by
    change { a with layout := a.layout.addRoots roots } = a
    rw [Layout.addRoots_of_contains h]
  unfold additionWork
  rw [hnone, if_neg Bool.false_ne_true, hsame]
  rfl

theorem additionWork_of_new {a : Analyzer σ} {roots : List Path}
    (h : ∃ root ∈ roots, a.layout.roots.contains root = false) :
    a.additionWork d roots = (a.addRoots roots).2.scanWork d := by
  obtain ⟨root, hroot, hnew⟩ := h
  have hsome : (a.addRoots roots).1 = true := by
    refine List.any_eq_true.2 ⟨root, hroot, ?_⟩
    rw [hnew]
    rfl
  unfold additionWork
  rw [hsome, if_pos rfl]

theorem settings_additionWork (d : Disk) (a : Analyzer σ) (roots : List Path)
    (cap : Capabilities σ) : ((a.additionWork d roots).run cap d).2.settings = a.settings := by
  by_cases h : ∃ root ∈ roots, a.layout.roots.contains root = false
  · rw [additionWork_of_new h]
    exact (scan_rest cap d (a.addRoots roots).2).1
  · rw [additionWork_of_known]
    intro root hroot
    rw [← Bool.not_eq_false]
    exact fun hnew => h ⟨root, hroot, hnew⟩

/-- Once a new root is added, the texts are those of the files that are listed. -/
theorem get?_additionWork_of_new {roots : List Path} (hopen : a.NoneOpen) (ha : a.Reflects d)
    (h : ∃ root ∈ roots, a.layout.roots.contains root = false) (p : Path) :
    let b := ((a.additionWork d roots).run .standard d).2
    b.store.documents.get? p = d.textIn? (b.listed d) p := by
  intro b
  have hb : b = ((a.addRoots roots).2.scan .standard d).2 := by
    change ((a.additionWork d roots).run .standard d).2 = _
    rw [additionWork_of_new h]
    rfl
  have hreadable : ∀ f ∈ (a.addRoots roots).2.listed d,
      (a.addRoots roots).2.store.documents.contains f = true →
        (d.readText f).toOption.isSome = true := by
    intro f hf hcontains
    have hsome : (a.store.documents.get? f).isSome = true := hcontains
    obtain ⟨text, ht⟩ := Option.isSome_iff_exists.1 hsome
    obtain ⟨g, hg, hgf, hread⟩ := ha f text ht
    rw [← Path.eq_of_isPlain hg (plain_listed f hf) hgf, hread]
    rfl
  have hopen' : (a.addRoots roots).2.NoneOpen := hopen
  rw [hb, listed_scan]
  exact get?_scan_eq_textIn? hopen' hreadable p

/-- Adding roots after a removal replaces no text by another one. -/
theorem reflects_additionWork {roots : List Path} (hopen : a.NoneOpen) (ha : a.Reflects d) :
    ((a.additionWork d roots).run .standard d).2.Reflects d := by
  by_cases h : ∃ root ∈ roots, a.layout.roots.contains root = false
  · exact reflects_of_textIn? plain_listed (get?_additionWork_of_new hopen ha h)
  · rw [additionWork_of_known]
    · exact ha
    · intro root hroot
      rw [← Bool.not_eq_false]
      exact fun hnew => h ⟨root, hroot, hnew⟩

theorem coherent_additionWork {roots : List Path} (hopen : a.NoneOpen) (ha : a.Reflects d)
    (hc : Coherent a.parsedTexts a) :
    let b := ((a.additionWork d roots).run .standard d).2
    Coherent b.parsedTexts b := by
  intro b
  have hasked : Asked (fun _ => True) a (a.additionWork d roots) :=
    asked_additionWork ⟨fun _ _ => trivial, fun _ _ => trivial⟩ fun _ _ _ => trivial
  refine hc.parsedTexts_step (hasked.passStep .standard d) ?_
  intro p old new hold hnew
  exact ha.text_unique (reflects_additionWork hopen ha) hold hnew

/-! ## Comparing with a fresh start -/

/-- Files spelled plainly that have the same texts are known under the same names. -/
theorem keys_eq_of_within {c : Analyzer Unit} (hb : Within (·.isPlain = true) b)
    (hc : Within (·.isPlain = true) c)
    (h : ∀ p, b.store.documents.get? p = c.store.documents.get? p) :
    b.store.documents.keys = c.store.documents.keys := by
  refine (PathMap.keys_congr h fun k hk => ?_).symm
  have hcontains : c.store.documents.contains k = true := by
    rw [PathMap.contains, ← h]
    exact PathMap.contains_of_mem_keys hk
  obtain ⟨k', hk', hkk⟩ := PathMap.contains_iff.1 hcontains
  rw [← Path.eq_of_isPlain (hc.documents k' hk') (hb.documents k hk) hkk]
  exact hk'

theorem within_plain_after (run : List (Disk × Event))
    (h : ∀ x ∈ run, ∀ p ∈ x.2.spelled, p.isPlain = true) :
    Within (·.isPlain = true) ((fresh ()).after .standard run) := by
  refine within_after (fun _ _ _ hp => Discovery.isPlain_discover hp) ⟨?_, ?_⟩ ?_
  · intro q hq
    cases hq
  · intro q hq
    cases hq
  · intro x hx
    exact x.2.names_of_spelled (fun p hp => x.1.isPlain_canonical hp) (h x hx)

/-- After a scan with no file open that found only files that can be read and parsed, folders are
removed and others added. Compared with an analyzer that starts afresh with the same settings and
the roots that result, the texts are the same if and only if a root that was added is new, or of the
files that were listed exactly those are still listed which do not lie below a removed path and
outside of all roots that are left. Where the texts are the same, so are the contributions and what
each file shows, and if all events so far spelled their paths plainly, all diagnostics are. -/
theorem folder_change_starts_afresh_iff (run : List (Disk × Event)) (d : Disk)
    (added removed : List Uri)
    (hclosed : ((fresh ()).after .standard (run ++ [(d, .scan)])).NoneOpen)
    (hparsed : ∀ f ∈ ((fresh ()).after .standard (run ++ [(d, .scan)])).listed d,
      ∃ text m, d.readText f = .ok text ∧ Rego.parse text = .ok m) :
    let a := (fresh ()).after .standard (run ++ [(d, .scan)])
    let b := (a.handle .standard d (.foldersChanged added removed)).2
    let c := (fresh ()).after .standard
      [(d, .configure a.settings), (d, .rootsGiven b.layout.roots.keys), (d, .scan)]
    ((∀ p, b.store.documents.get? p = c.store.documents.get? p) ↔
      (∃ root ∈ d.pathsOfUris added, a.layout.roots.contains root = false ∨
        (d.pathsOfUris removed).any (· == root) = true) ∨
      ∀ f ∈ a.listed d, f ∈ b.listed d ↔
        ¬((∃ root ∈ d.pathsOfUris removed, f.isWithin root = true) ∧
          b.layout.covers f = false)) ∧
    ((∀ p, b.store.documents.get? p = c.store.documents.get? p) →
      (∀ p, b.store.contributions.get? p = c.store.contributions.get? p) ∧
      (∀ p, b.store.merged p = c.store.merged p) ∧
      ((∀ x ∈ run, ∀ p ∈ x.2.spelled, p.isPlain = true) →
        b.allDiagnostics d = c.allDiagnostics d)) := by
  intro a b c
  have h : Scanned d a := scanned_after run d hclosed hparsed
  let left := ((a.removalWork (d.pathsOfUris removed)).run .standard d).2
  obtain ⟨hroots, hsettings, hopen, hcoherent, hdrop, hkeep⟩ := h.removed (d.pathsOfUris removed)
  have hb : b = ((left.additionWork d (d.pathsOfUris added)).run .standard d).2 :=
    foldersChanged_eq_run ..
  have hstarted : c = startedAfresh d a.settings b.layout.roots.keys := rfl
  have hc : ∀ p, c.store.documents.get? p = d.textIn? (b.listed d) p := by
    intro p
    rw [hstarted]
    exact get?_startedAfresh d a.settings b.layout.roots p
  have hleft : left.Reflects d := by
    intro p text ht
    by_cases hp : Drops d a (d.pathsOfUris removed) p
    · rw [hdrop p hp] at ht
      cases ht
    · exact h.reflects p text ((hkeep p hp).symm.trans ht)
  constructor
  · have hnew : (∃ root ∈ d.pathsOfUris added, a.layout.roots.contains root = false ∨
        (d.pathsOfUris removed).any (· == root) = true) ↔
        ∃ root ∈ d.pathsOfUris added, left.layout.roots.contains root = false := by
      rw [hroots]
      simp only [contains_leftLayout, Bool.and_eq_false_iff, Bool.not_eq_false']
    rw [hnew]
    by_cases hadded : ∃ root ∈ d.pathsOfUris added, left.layout.roots.contains root = false
    · refine ⟨fun _ => Or.inl hadded, fun _ p => ?_⟩
      rw [hc, hb]
      exact get?_additionWork_of_new hopen hleft hadded p
    · have hsame : b = left := by
        rw [hb, additionWork_of_known]
        intro root hroot
        rw [← Bool.not_eq_false]
        exact fun hnone => hadded ⟨root, hroot, hnone⟩
      rw [or_iff_right hadded]
      rw [hsame] at hc ⊢
      have hsub : ∀ f ∈ left.listed d, f ∈ a.listed d := by
        intro f hf
        refine Discovery.discover_mono (fun root hroot => ?_) hf
        rw [hroots] at hroot
        exact (mem_roots_foldl_dropRoot.1 hroot).1
      refine (h.agrees_iff hsub hdrop hkeep hc).trans ?_
      refine forall_congr' fun f => imp_congr_right fun hf => iff_congr Iff.rfl (not_congr ?_)
      have hlisted : (a.listed d).any (· == f) = true := List.any_eq_true.2 ⟨f, hf, BEq.rfl⟩
      have hcovers : (a.leftLayout (d.pathsOfUris removed)).covers f = left.layout.covers f := by
        unfold Layout.covers
        rw [hroots]
      unfold Drops
      rw [hlisted, hcovers, and_iff_right rfl]
  · intro hsame
    have hcb : Coherent b.parsedTexts b := by
      rw [hb]
      exact coherent_additionWork hopen hleft hcoherent
    have hcc : Coherent c.parsedTexts c := coherent_startedAfresh d a.settings _
    have hcontributions : ∀ p,
        b.store.contributions.get? p = c.store.contributions.get? p := by
      intro p
      refine hcb.contributions_congr hcc ?_
      unfold parsedTexts
      rw [hsame]
    have hsettings' : b.settings = c.settings := by
      rw [hb, settings_additionWork, hsettings]
      exact (settings_startedAfresh d a.settings _).symm
    have hmerged : ∀ p, b.store.merged p = c.store.merged p := fun p =>
      hcb.merged_congr hcc hsettings' (hsame p) hcontributions
    refine ⟨hcontributions, hmerged, fun hplain => ?_⟩
    have hb' : b = (fresh ()).after .standard
        ((run ++ [(d, .scan)]) ++ [(d, .foldersChanged added removed)]) := by
      rw [after_append]
      rfl
    have hwb : Within (·.isPlain = true) b := by
      rw [hb']
      refine within_plain_after _ fun x hx => ?_
      rcases List.mem_append.1 hx with hx | hx
      · rcases List.mem_append.1 hx with hx | hx
        · exact hplain x hx
        · rw [List.mem_singleton.1 hx]
          exact fun p hp => absurd hp List.not_mem_nil
      · rw [List.mem_singleton.1 hx]
        exact fun p hp => absurd hp List.not_mem_nil
    have hwc : Within (·.isPlain = true) c := by
      refine within_plain_after _ fun x hx p hp => ?_
      simp only [List.mem_cons, List.not_mem_nil, or_false] at hx
      rcases hx with rfl | rfl | rfl <;> exact absurd hp List.not_mem_nil
    exact allDiagnostics_congr d (keys_eq_of_within hwb hwc hsame) hmerged

/-- A link below the only root leads to a file outside of it. When the root is removed, the file
stays, although no root is left. -/
theorem linked_file_outlives_its_root :
    let d : Disk := { entries := [
      (["ws"], .folder), (["ws", "p"], .folder),
      (["ws", "p", "l.rego"], .link ⟨"/ws/q/b.rego"⟩),
      (["ws", "q"], .folder), (["ws", "q", "b.rego"], .file "package b".toUTF8)] }
    let run : List (Disk × Event) := [(d, .rootsGiven [⟨"/ws/p"⟩])]
    let removed : Uri := { scheme? := some "file", authority? := some "", path := "/ws/p" }
    let a := (fresh ()).after .standard (run ++ [(d, .scan)])
    let b := (a.handle .standard d (.foldersChanged [] [removed])).2
    let c := (fresh ()).after .standard
      [(d, .configure a.settings), (d, .rootsGiven b.layout.roots.keys), (d, .scan)]
    ¬∀ p, b.store.documents.get? p = c.store.documents.get? p := by
  intro d run removed a b c hsame
  have hstate : a.openFiles.keys.isEmpty = true ∧
      (a.listed d).map (·.text) = ["/ws/q/b.rego"] ∧ (b.listed d).isEmpty = true ∧
      (d.pathsOfUris [removed]).map (·.text) = ["/ws/p"] := by decide +kernel
  obtain ⟨hopen, hfiles, hnone, hpaths⟩ := hstate
  have hclosed : a.NoneOpen := noneOpen_of_isEmpty hopen
  have hparsed : ∀ f ∈ a.listed d, ∃ text m, d.readText f = .ok text ∧
      Rego.parse text = .ok m := by
    intro f hf
    have hft : f.text ∈ (a.listed d).map (·.text) := List.mem_map_of_mem hf
    rw [hfiles, List.mem_singleton] at hft
    cases f
    cases hft
    have hparses : (Rego.parse "package b").toOption.isSome = true := by decide +kernel
    obtain ⟨m, hm⟩ := Option.isSome_iff_exists.1 hparses
    exact ⟨"package b", m, toOption_eq_some_iff.1 (by decide +kernel), toOption_eq_some_iff.1 hm⟩
  have hiff := folder_change_starts_afresh_iff run d [] [removed] hclosed hparsed
  extract_lets at hiff
  rcases hiff.1.1 hsame with ⟨root, hroot, -⟩ | hlisted
  · exact absurd hroot List.not_mem_nil
  · have hfound : (⟨"/ws/q/b.rego"⟩ : Path) ∈ a.listed d :=
      Path.mem_of_text_mem (by rw [hfiles]; exact List.mem_singleton.2 rfl)
    -- the file lies below no removed path, so it should still be listed
    have hkept := (hlisted ⟨"/ws/q/b.rego"⟩ hfound).2 fun ⟨⟨root, hroot, hwithin⟩, _⟩ => by
      have hrt : root.text ∈ (d.pathsOfUris [removed]).map (·.text) := List.mem_map_of_mem hroot
      rw [hpaths, List.mem_singleton] at hrt
      cases root
      cases hrt
      revert hwithin
      decide +kernel
    change (⟨"/ws/q/b.rego"⟩ : Path) ∈ b.listed d at hkept
    rw [List.isEmpty_iff.1 hnone] at hkept
    exact absurd hkept List.not_mem_nil

end Analyzer

end PolicyLint
