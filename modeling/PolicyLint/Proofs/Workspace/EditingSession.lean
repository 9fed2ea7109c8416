import PolicyLint.Proofs.FileSystem.Resolution
import PolicyLint.Proofs.Workspace.Agreement
import PolicyLint.Proofs.Workspace.Scan
/-!
# Editing sessions

A file that a scan found is edited for a while and closed without being saved. Each event of the
session gives the file a text and touches no other file, and the close gives it the text of the disk,
which it had before. So all texts are as they were, and what is left of the session is what the store
remembers of texts that parsed: the last of them goes on to count as long as the text of the disk
does not parse (`closed_session_leaves_no_trace`). That is on purpose in general, since a file that
is broken for a moment should not lose what it contributes, but it also keeps a text that was thrown
away (`discarded_text_goes_on_to_count`).
-/

namespace PolicyLint.Analyzer

variable {a b c : Analyzer Unit} {d : Disk} {p q u : Path} {text : String}
variable {texts more : List String}

/-! ## One text after another -/

/-- The module of the last of some texts that parsed. -/
def lastParsing (texts : List String) : Option Rego.Module :=
  (texts.filterMap fun text => (Rego.parse text).toOption).getLast?

theorem lastParsing_singleton (text : String) :
    lastParsing [text] = (Rego.parse text).toOption := by
  unfold lastParsing
  cases h : (Rego.parse text).toOption with
  | none => simp [h]
  | some m => simp [h]

theorem lastParsing_append (texts more : List String) :
    lastParsing (texts ++ more) = (lastParsing more).or (lastParsing texts) := by
  unfold lastParsing
  rw [List.filterMap_append, List.getLast?_append]

theorem lastParsing_eq_none {texts : List String}
    (h : ∀ text ∈ texts, (Rego.parse text).isOk = false) : lastParsing texts = none := by
  have hnone : texts.filterMap (fun text => (Rego.parse text).toOption) = [] := by
    refine List.filterMap_eq_nil_iff.2 fun text ht => ?_
    have hbroken := h text ht
    cases hp : Rego.parse text with
    | ok m =>
      rw [hp] at hbroken
      cases hbroken
    | error errors => rfl
  rw [lastParsing, hnone]
  rfl

/-- What is remembered of the last texts that parsed once a file was given some texts. -/
def remember (good : Path → Option Rego.Module) (u : Path) (texts : List String) :
    Path → Option Rego.Module :=
  fun q => if u == q then (lastParsing texts).or (good q) else good q

theorem remember_of_none (good : Path → Option Rego.Module) (u : Path)
    (h : lastParsing texts = none) : remember good u texts = good := by
  funext q
  rw [remember, h]
  split
  · rfl
  · rfl

theorem remember_append (good : Path → Option Rego.Module) (u : Path)
    (texts more : List String) :
    remember good u (texts ++ more) = remember (remember good u texts) u more := by
  funext q
  unfold remember
  rw [lastParsing_append, Option.or_assoc]
  split
  · rfl
  · rfl

/-- `b` comes from `a` by giving a file some texts, one after the other. -/
structure Retold (u : Path) (texts : List String) (a b : Analyzer Unit) : Prop where
  settings : b.settings = a.settings
  keys : b.store.documents.keys = a.store.documents.keys
  text : ∀ q, b.store.documents.get? q =
    if u == q then texts.getLast?.or (a.store.documents.get? q) else a.store.documents.get? q
  coherent : ∀ good, Coherent good a → Coherent (remember good u texts) b

theorem Retold.refl (u : Path) (a : Analyzer Unit) : Retold u [] a a := by
  refine ⟨rfl, rfl, ?_, ?_⟩
  · intro q
    simp
  · intro good hc
    rw [remember_of_none good u rfl]
    exact hc

theorem Retold.trans (h : Retold u texts a b) (k : Retold u more b c) :
    Retold u (texts ++ more) a c := by
  refine ⟨k.settings.trans h.settings, k.keys.trans h.keys, ?_, ?_⟩
  · intro q
    rw [k.text, h.text, List.getLast?_append]
    by_cases hq : (u == q) = true
    · rw [if_pos hq, if_pos hq, if_pos hq, Option.or_assoc]
    · rw [if_neg hq, if_neg hq, if_neg hq]
  · intro good hc
    rw [remember_append]
    exact k.coherent _ (h.coherent good hc)

/-! ## The events of a session -/

theorem documents_pass_of_none_deleted (d : Disk) (a : Analyzer Unit) (toLint : List Path) :
    (a.pass .standard d toLint []).2.store.documents = a.store.documents := by
  cases toLint with
  | nil => rfl
  | cons q toLint => exact documents_foldl_lintFile Capabilities.quiet_standard (q :: toLint) a

/-- An event of one pass that asks no more than that a file with a text gets another one. -/
theorem retold_of_work {e : Event} (he : ∀ added removed, e ≠ .foldersChanged added removed)
    (hwork : a.work d e = b.giveText p text) (hstore : b.store = a.store)
    (hsettings : b.settings = a.settings) (hpu : (p == u) = true)
    (hdoc : a.store.documents.contains u = true) :
    Retold u [text] a (a.handle .standard d e).2 := by
  have hrun : (a.handle .standard d e).2 = ((b.giveText p text).run .standard d).2 := by
    rw [handle_eq_run a he, hwork]
  have hdocs : (a.handle .standard d e).2.store.documents =
      (b.withText p text).store.documents := by
    rw [hrun]
    exact documents_pass_of_none_deleted ..
  have htext : ∀ q, (a.handle .standard d e).2.store.documents.get? q =
      if u == q then some text else a.store.documents.get? q := by
    intro q
    have hsame : (p == q) = (u == q) := by
      rw [Bool.eq_iff_iff]
      exact ⟨BEq.trans (BEq.symm hpu), BEq.trans hpu⟩
    rw [hdocs, get?_withText, hsame, hstore]
  refine ⟨?_, ?_, htext, ?_⟩
  · rw [hrun]
    exact (pass_rest ..).1.trans hsettings
  · have hp : b.store.documents.contains p = true := by
      rw [hstore, PathMap.contains_congr _ hpu, hdoc]
    rw [hdocs, ← hstore]
    exact (sameBut_withText hp text).keys
  · intro good hc
    have hgood : noteGood good (a.handle .standard d e) = remember good u [text] := by
      funext q
      change lastGood (good q) ((a.handle .standard d e).2.store.documents.get? q) = _
      rw [htext, remember]
      by_cases hq : (u == q) = true
      · rw [if_pos hq, if_pos hq, lastGood, lastParsing_singleton]
      · rw [if_neg hq, if_neg hq]
        exact (hc q).2.1.latest
    rw [← hgood]
    exact hc.handle he

/-- An event by which the editor gives a file a text does no more than that. -/
theorem retold_of_text? {e : Event} (he : e.text? d u = some text)
    (hdoc : a.store.documents.contains u = true) :
    Retold u [text] a (a.handle .standard d e).2 := by
  obtain ⟨b, q, hwork, hstore, hsettings, hqu⟩ := work_of_text? (a := a) he
  refine retold_of_work ?_ hwork hstore hsettings hqu hdoc
  rintro added removed rfl
  cases he

/-- Closing a file that can be read gives it the text of the disk. -/
theorem retold_of_closed {uri : Uri} (hu : u.isPlain = true) (hread : d.readText u = .ok text)
    (hclose : d.leadsTo uri u = true) (hdoc : a.store.documents.contains u = true) :
    Retold u [text] a (a.handle .standard d (.closed uri)).2 := by
  have hexists : d.pathExists u = true := by
    unfold Disk.readText at hread
    unfold Disk.pathExists
    cases hr : d.resolve u with
    | ok l => rfl
    | error fault =>
      rw [hr] at hread
      cases hread
  refine retold_of_work (b := a.markClosed u) (by simp) ?_ rfl rfl BEq.rfl hdoc
  rw [work, Disk.policyPath?_of_leadsTo hu hread hclose]
  dsimp only
  rw [closing, if_pos hexists, hread]

theorem retold_session {session : List Event} (hdoc : a.store.documents.contains u = true)
    (h : ∀ e ∈ session, (e.text? d u).isSome = true) :
    Retold u (session.filterMap (·.text? d u)) a (a.after .standard (session.map (d, ·))) := by
  induction session generalizing a with
  | nil => exact .refl u a
  | cons e session ih =>
    obtain ⟨text, htext⟩ := Option.isSome_iff_exists.1 (h e (List.mem_cons_self ..))
    have hfirst : Retold u [text] a (a.handle .standard d e).2 := retold_of_text? htext hdoc
    have hdoc' : (a.handle .standard d e).2.store.documents.contains u = true := by
      rw [PathMap.contains, hfirst.text, if_pos BEq.rfl]
      rfl
    have hrest := ih hdoc' fun x hx => h x (List.mem_cons_of_mem _ hx)
    rw [List.filterMap_cons_some htext]
    exact hfirst.trans hrest

/-- A session that ends with a close gives the file the texts of the session and that of the disk. -/
theorem retold_closed_session {session : List Event} {uri : Uri} (hu : u.isPlain = true)
    (hread : d.readText u = .ok text) (hdoc : a.store.documents.get? u = some text)
    (hsession : ∀ e ∈ session, (e.text? d u).isSome = true) (hclose : d.leadsTo uri u = true) :
    Retold u (session.filterMap (·.text? d u) ++ [text]) a
      (a.after .standard ((session ++ [Event.closed uri]).map (d, ·))) := by
  have hcontains : a.store.documents.contains u = true := by
    rw [PathMap.contains, hdoc]
    rfl
  have hopen := retold_session hcontains hsession
  have hcontains' : (a.after .standard (session.map (d, ·))).store.documents.contains u = true := by
    rw [PathMap.contains_iff, hopen.keys, ← PathMap.contains_iff]
    exact hcontains
  rw [List.map_append, after_append]
  exact hopen.trans (retold_of_closed hu hread hclose hcontains')

/-! ## Sessions that end without being saved -/

/-- After a scan, a file that it found, is not open and can be read has its text on the disk. -/
theorem get?_scanned (run : List (Disk × Event)) (d : Disk) {u : Path} {text : String} :
    let a := (fresh ()).after .standard (run ++ [(d, .scan)])
    u ∈ a.listed d → a.openFiles.contains u = false → d.readText u = .ok text →
      a.store.documents.get? u = some text := by
  intro a hfound hclosed hread
  have hscanned : a = (((fresh ()).after .standard run).scan .standard d).2 := after_append ..
  obtain ⟨-, htexts, -⟩ := scan_reconciles run d
  rw [hscanned, listed_scan] at hfound
  rw [hscanned] at hclosed ⊢
  exact htexts u hfound hclosed text hread

/-- A file that a scan found, and that is not open, is given texts by the editor and then closed.
The disk stays as it is, and it has a text for the file. Then all texts are what they were before, the
file shows what it showed before, and all other files contribute what they did. If the text of the
disk parses, or none of those that the editor gave does, then the file contributes what it did too,
and all diagnostics are what they were. Otherwise the file contributes what the last text that parsed
does. -/
theorem closed_session_leaves_no_trace (run : List (Disk × Event)) (d : Disk) (u : Path)
    (text : String) (session : List Event) (uri : Uri)
    (hfound : u ∈ ((fresh ()).after .standard (run ++ [(d, .scan)])).listed d)
    (hclosed : ((fresh ()).after .standard (run ++ [(d, .scan)])).openFiles.contains u = false)
    (hread : d.readText u = .ok text)
    (hsession : ∀ e ∈ session, (e.text? d u).isSome = true)
    (hclose : d.leadsTo uri u = true) :
    let a := (fresh ()).after .standard (run ++ [(d, .scan)])
    let b := a.after .standard ((session ++ [Event.closed uri]).map (d, ·))
    let texts := session.filterMap (·.text? d u)
    b.store.documents.keys = a.store.documents.keys ∧
    (∀ p, b.store.documents.get? p = a.store.documents.get? p) ∧
    b.store.merged u = a.store.merged u ∧
    (∀ p, (u == p) = false → b.store.contributions.get? p = a.store.contributions.get? p) ∧
    ((Rego.parse text).isOk = true ∨ (∀ t ∈ texts, (Rego.parse t).isOk = false) →
      (∀ p, b.store.contributions.get? p = a.store.contributions.get? p) ∧
      (∀ c p, (b.store.state c).get? p = (a.store.state c).get? p) ∧
      b.allDiagnostics d = a.allDiagnostics d) ∧
    ∀ m, (Rego.parse text).isOk = false → lastParsing texts = some m →
      b.store.contributions.get? u = some (.ofModule m) := by
  intro a b texts
  have hdoc : a.store.documents.get? u = some text := get?_scanned run d hfound hclosed hread
  have hca : Coherent (lastParsed (run ++ [(d, .scan)])) a := coherent_after _
  have htold : Retold u (texts ++ [text]) a b :=
    retold_closed_session (Discovery.isPlain_discover hfound) hread hdoc hsession hclose
  have hcb : Coherent (remember (lastParsed (run ++ [(d, .scan)])) u (texts ++ [text])) b :=
    htold.coherent _ hca
  have htexts : ∀ p, b.store.documents.get? p = a.store.documents.get? p := by
    intro p
    rw [htold.text, List.getLast?_concat]
    by_cases hp : (u == p) = true
    · rw [if_pos hp, ← PathMap.get?_congr _ hp, hdoc]
      rfl
    · rw [if_neg hp]
  have hothers : ∀ p, (u == p) = false →
      b.store.contributions.get? p = a.store.contributions.get? p := by
    intro p hp
    refine hcb.contributions_congr hca ?_
    rw [remember, hp]
    rfl
  -- what the file contributes is decided by the last text that parsed, with that of the disk at last
  have hlast : lastParsing (texts ++ [text]) =
      (Rego.parse text).toOption.or (lastParsing texts) := by
    rw [lastParsing_append, lastParsing_singleton]
  have hsame : (Rego.parse text).isOk = true ∨ (∀ t ∈ texts, (Rego.parse t).isOk = false) →
      ∀ p, b.store.contributions.get? p = a.store.contributions.get? p := by
    intro hcase p
    by_cases hp : (u == p) = true
    · rw [← PathMap.get?_congr _ hp, ← PathMap.get?_congr _ hp]
      refine hcb.contributions_congr hca ?_
      rw [remember, if_pos BEq.rfl, hlast]
      cases hparse : Rego.parse text with
      | ok m =>
        rw [hca.good_of_parse hdoc hparse]
        rfl
      | error errors =>
        rw [hparse] at hcase
        rw [lastParsing_eq_none (hcase.resolve_left Bool.false_ne_true)]
        rfl
    · exact hothers p (Bool.eq_false_iff.2 hp)
  refine ⟨htold.keys, htexts, ?_, hothers, ?_, ?_⟩
  · cases hparse : Rego.parse text with
    | ok m =>
      refine hcb.merged_congr hca htold.settings (htexts u) (hsame (Or.inl ?_))
      rw [hparse]
      rfl
    | error errors =>
      rw [hcb.merged_of_error ((htexts u).trans hdoc) hparse, hca.merged_of_error hdoc hparse]
  · intro hcase
    refine ⟨hsame hcase, Store.get?_state_congr (hsame hcase), ?_⟩
    refine allDiagnostics_congr d htold.keys fun p => ?_
    exact hcb.merged_congr hca htold.settings (htexts p) (hsame hcase)
  · intro m hbroken hm
    have hcontributed : b.store.contributions.get? u =
        (remember (lastParsed (run ++ [(d, .scan)])) u (texts ++ [text]) u).map .ofModule :=
      (hcb u).1.contributed
    rw [hcontributed, remember, if_pos BEq.rfl, hlast, hm]
    cases hparse : Rego.parse text with
    | ok m' =>
      rw [hparse] at hbroken
      cases hbroken
    | error errors => rfl

/-- A file is broken in the editor, given another package and closed: all is as it was. -/
theorem closed_session_of_a_parsed_file :
    let uri : Uri := { scheme? := some "file", authority? := some "", path := "/ws/a.rego" }
    let d : Disk := { entries := [
      (["ws"], .folder), (["ws", "a.rego"], .file "package a".toUTF8),
      (["ws", "b.rego"], .file "package b\n\nimport data.a".toUTF8)] }
    let run : List (Disk × Event) := [(d, .rootsGiven [⟨"/ws"⟩])]
    let session : List Event :=
      [.opened uri "package", .edited uri "package c", .saved uri (some "package")]
    let a := (fresh ()).after .standard (run ++ [(d, .scan)])
    let b := a.after .standard ((session ++ [Event.closed uri]).map (d, ·))
    b.store.documents.get? ⟨"/ws/a.rego"⟩ = some "package a" ∧
      b.allDiagnostics d = a.allDiagnostics d := by
  intro uri d run session a b
  have hread : d.readText ⟨"/ws/a.rego"⟩ = .ok "package a" :=
    toOption_eq_some_iff.1 (by decide +kernel)
  have hfound : (⟨"/ws/a.rego"⟩ : Path) ∈ a.listed d := Path.mem_of_text_mem (by decide +kernel)
  have hclosed : a.openFiles.contains ⟨"/ws/a.rego"⟩ = false := by decide +kernel
  have hparsed : (Rego.parse "package a").isOk = true := by decide +kernel
  obtain ⟨-, htexts, -, -, hsame, -⟩ := closed_session_leaves_no_trace run d ⟨"/ws/a.rego"⟩
    "package a" session uri hfound hclosed hread (by decide +kernel) (by decide +kernel)
  refine ⟨(htexts _).trans ?_, (hsame (Or.inl hparsed)).2.2⟩
  decide +kernel

/-- A file whose text on the disk does not parse is opened with a text that does, and closed: the
annotation of the text that was thrown away goes on to document a package of another file. -/
theorem discarded_text_goes_on_to_count :
    let uri : Uri := { scheme? := some "file", authority? := some "", path := "/ws/a.rego" }
    let d : Disk := { entries := [
      (["ws"], .folder), (["ws", "a.rego"], .file "package".toUTF8),
      (["ws", "b.rego"], .file "package b".toUTF8)] }
    let run : List (Disk × Event) := [(d, .rootsGiven [⟨"/ws"⟩])]
    let session : List Event := [.opened uri "# METADATA\npackage b"]
    let a := (fresh ()).after .standard (run ++ [(d, .scan)])
    let b := a.after .standard ((session ++ [Event.closed uri]).map (d, ·))
    (⟨"/ws/a.rego"⟩ : Path).text ∈ (a.listed d).map (·.text) ∧
      a.openFiles.contains ⟨"/ws/a.rego"⟩ = false ∧
      (d.readText ⟨"/ws/a.rego"⟩).toOption = some "package" ∧
      (∀ e ∈ session, (e.text? d ⟨"/ws/a.rego"⟩).isSome = true) ∧
      d.leadsTo uri ⟨"/ws/a.rego"⟩ = true ∧
      b.store.contributions.get? ⟨"/ws/a.rego"⟩ ≠ a.store.contributions.get? ⟨"/ws/a.rego"⟩ ∧
      b.allDiagnostics d ≠ a.allDiagnostics d := by
  decide +kernel

end PolicyLint.Analyzer
