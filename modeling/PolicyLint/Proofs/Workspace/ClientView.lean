import PolicyLint.FileSystem.Edit
import PolicyLint.Proofs.Uri.RoundTrip
import PolicyLint.Proofs.Uri.Spelling
import PolicyLint.Proofs.Workspace.Run
/-!
# What the client shows

The client shows, for each URI, the diagnostics of the last publication for it. The analyzer keeps
a record of what it sent and publishes differences only, so the record, the client and the store
have to agree after every pass (`Mirrored`), whatever the capabilities do.

Files are the same when their paths are, and URIs only when they are spelled alike. File by file the
client shows what the store holds for any spellings; URI by URI it does when the paths of all events
are spelled plainly.
-/

namespace PolicyLint

/-! ## Views -/

/-- Whether a publication is for a file, however that is spelled. -/
def isFor (x : Publication) (p : Path) : Bool :=
  x.1.filePath?.any (· == p)

/-- What the client shows for a file after some publications: nothing, or what the last one for the
file says. -/
def shown (ps : List Publication) (p : Path) : List Diagnostic :=
  ((ps.reverse.find? (isFor · p)).map (·.2)).getD []

/-- What the client shows for a URI after some publications. -/
def shownAt (ps : List Publication) (u : Uri) : List Diagnostic :=
  ((ps.reverse.find? (·.1 == u)).map (·.2)).getD []

/-- No publication of `xs`, which follow `ps`, tells the client what it already shows for a file
that is known. -/
def NoRepeats (known : Path → Bool) (ps xs : List Publication) : Prop :=
  ∀ before x later, xs = before ++ x :: later →
    ∀ p, known p = true → isFor x p = true → x.2 ≠ shown (ps ++ before) p

theorem isFor_ofAbsolute {p : Path} (hp : p.isAbsolute = true) (ds : List Diagnostic) (q : Path) :
    isFor (.ofAbsolute p, ds) q = (p == q) := by
  have hne : p.text ≠ "" := by
    intro h
    simp [Path.isAbsolute, h] at hp
  simp [isFor, Uri.filePath?_ofAbsolute hne]

theorem shown_append (ps : List Publication) (x : Publication) (p : Path) :
    shown (ps ++ [x]) p = if isFor x p then x.2 else shown ps p := by
  simp only [shown, List.reverse_append, List.reverse_singleton, List.singleton_append,
    List.find?_cons]
  cases isFor x p <;> rfl

/-- What holds at every place of a list holds at every place of a list with one more at the end. -/
theorem forall_split_append {α : Type} {P : List α → α → Prop} {l : List α} {y : α}
    (h : ∀ before x later, l = before ++ x :: later → P before x) (hy : P l y) :
    ∀ before x later, l ++ [y] = before ++ x :: later → P before x := by
  intro before x later heq
  rcases List.eq_nil_or_concat later with rfl | ⟨later, z, rfl⟩
  · obtain ⟨rfl, hxy⟩ := List.append_inj' heq rfl
    cases hxy
    exact hy
  · refine h before x later ?_
    rw [List.concat_eq_append, ← List.cons_append, ← List.append_assoc] at heq
    exact (List.append_inj' heq rfl).1

namespace Published

theorem shows_iff {sent : Published} {p : Path} {ds : List Diagnostic} :
    sent.shows p ds = true ↔ (sent.get? p).getD [] = ds := by
  unfold shows
  cases h : sent.get? p with
  | none =>
    rw [List.isEmpty_iff, Option.getD_none]
    exact eq_comm
  | some old => simp

end Published

namespace Analyzer

variable {σ : Type} {d : Disk} {s : Store}

/-! ## Sending -/

theorem uriOfPath_of_isAbsolute {p : Path} (hp : p.isAbsolute = true) :
    d.uriOfPath p = .ok (.ofAbsolute p) := by
  rw [Disk.uriOfPath, if_pos hp]

theorem retract_eq (acc : List Publication × Published) {p : Path} (hp : p.isAbsolute = true) :
    retract d acc p =
      (if acc.2.contains p then acc.1 ++ [(.ofAbsolute p, [])] else acc.1, acc.2.erase p) := by
  unfold retract Published.remove
  rw [uriOfPath_of_isAbsolute hp]
  cases acc.2.contains p <;> rfl

theorem publishFile_eq (acc : List Publication × Published) {p : Path}
    (hp : p.isAbsolute = true) :
    publishFile d s acc p =
      if acc.2.shows p (s.merged p) then acc
      else (acc.1 ++ [(.ofAbsolute p, s.merged p)], acc.2.insert p (s.merged p)) := by
  unfold publishFile Published.update
  rw [uriOfPath_of_isAbsolute hp]
  cases acc.2.shows p (s.merged p) <;> rfl

/-- After the publications `ps` of earlier passes, those of this one so far agree with the record of
what was sent. -/
structure Sending (Q : Path → Prop) (known : Path → Bool) (ps : List Publication)
    (acc : List Publication × Published) : Prop where
  sent : ∀ q, (acc.2.get? q).getD [] = shown (ps ++ acc.1) q
  quiet : NoRepeats known ps acc.1
  spelled : ∀ x ∈ acc.1, ∃ q, Q q ∧ x.1 = .ofAbsolute q

variable {Q : Path → Prop} {known : Path → Bool} {ps : List Publication}
variable {acc : List Publication × Published}

/-- One more publication, for a file that shows something else or that is not known. -/
theorem Sending.append (h : Sending Q known ps acc) {p : Path} (hp : Q p)
    (habs : p.isAbsolute = true) {ds : List Diagnostic} {published : Published}
    (hsent : ∀ q, (published.get? q).getD [] = if p == q then ds else (acc.2.get? q).getD [])
    (hquiet : ∀ q, known q = true → (p == q) = true → ds ≠ shown (ps ++ acc.1) q) :
    Sending Q known ps (acc.1 ++ [(.ofAbsolute p, ds)], published) where
  sent q := by
    rw [hsent, ← List.append_assoc, shown_append, isFor_ofAbsolute habs, h.sent]
  quiet := by
    refine forall_split_append h.quiet fun q hk hq => ?_
    rw [isFor_ofAbsolute habs] at hq
    exact hquiet q hk hq
  spelled x hx := by
    rcases List.mem_append.1 hx with hx | hx
    · exact h.spelled x hx
    · rw [List.mem_singleton.1 hx]
      exact ⟨p, hp, rfl⟩

theorem Sending.retract (h : Sending Q known ps acc) {p : Path} (hp : Q p)
    (habs : p.isAbsolute = true) (hk : ∀ q, known q = true → (p == q) = false) :
    Sending Q known ps (retract d acc p) := by
  rw [retract_eq acc habs]
  have hget : ∀ q, ((acc.2.erase p).get? q).getD [] =
      if p == q then [] else (acc.2.get? q).getD [] := by
    intro q
    rw [PathMap.get?_erase]
    split <;> rfl
  split
  · exact h.append hp habs hget fun q hq hpq => by simp [hk q hq] at hpq
  · next hc =>
    have hnone : acc.2.get? p = none := by simpa [PathMap.contains] using hc
    refine ⟨fun q => ?_, h.quiet, h.spelled⟩
    rw [hget, ← h.sent]
    split
    · next hpq => rw [← PathMap.get?_congr _ hpq, hnone]; rfl
    · rfl

theorem Sending.publishFile (h : Sending Q known ps acc) {p : Path} (hp : Q p)
    (habs : p.isAbsolute = true) : Sending Q known ps (publishFile d s acc p) := by
  rw [publishFile_eq acc habs]
  split
  · exact h
  · next hs =>
    refine h.append hp habs (fun q => ?_) fun q _ hpq heq => hs ?_
    · rw [PathMap.get?_insert]
      split <;> rfl
    · rw [Published.shows_iff, heq, ← h.sent q, PathMap.get?_congr _ hpq]

theorem sending_foldl_retract {paths : List Path} (hQ : ∀ p, Q p → p.isAbsolute = true)
    (h : Sending Q known ps acc) (hp : ∀ p ∈ paths, Q p)
    (hk : ∀ q, known q = true → ∀ p ∈ paths, (p == q) = false) :
    Sending Q known ps (paths.foldl (Analyzer.retract d) acc) := by
  induction paths generalizing acc with
  | nil => exact h
  | cons p paths ih =>
    have hQp : Q p := hp p (by simp)
    exact ih (h.retract hQp (hQ p hQp) fun q hq => hk q hq p (by simp))
      (fun q hq => hp q (by simp [hq])) fun q hq r hr => hk q hq r (by simp [hr])

theorem sending_foldl_publishFile {paths : List Path} (hQ : ∀ p, Q p → p.isAbsolute = true)
    (h : Sending Q known ps acc) (hp : ∀ p ∈ paths, Q p) :
    Sending Q known ps (paths.foldl (Analyzer.publishFile d s) acc) := by
  induction paths generalizing acc with
  | nil => exact h
  | cons p paths ih =>
    have hQp : Q p := hp p (by simp)
    exact ih (h.publishFile hQp (hQ p hQp)) fun q hq => hp q (by simp [hq])

/-! ## The record of what was sent -/

theorem snd_retract (acc : List Publication × Published) (p : Path) :
    (Analyzer.retract d acc p).2 = acc.2.erase p := by
  unfold Analyzer.retract Published.remove
  dsimp only
  split <;> rfl

theorem snd_publishFile (acc : List Publication × Published) (p : Path) :
    (Analyzer.publishFile d s acc p).2 =
      if acc.2.shows p (s.merged p) then acc.2 else acc.2.insert p (s.merged p) := by
  unfold Analyzer.publishFile Published.update
  cases acc.2.shows p (s.merged p) <;> dsimp only <;> split <;> rfl

theorem contains_foldl_retract {paths : List Path} {q : Path} :
    (paths.foldl (Analyzer.retract d) acc).2.contains q = true ↔
      acc.2.contains q = true ∧ ∀ p ∈ paths, (p == q) = false := by
  induction paths generalizing acc with
  | nil => simp
  | cons p paths ih =>
    rw [List.foldl_cons, ih, snd_retract, PathMap.contains, PathMap.get?_erase,
      List.forall_mem_cons]
    cases p == q <;> simp [PathMap.contains]

theorem get?_publishFile (p q : Path) :
    ((Analyzer.publishFile d s acc p).2.get? q).getD [] =
      if p == q then s.merged q else (acc.2.get? q).getD [] := by
  have hmerged : (p == q) = true → s.merged p = s.merged q := by
    intro hpq
    simp only [Store.merged, PathMap.get?_congr _ hpq]
  rw [snd_publishFile]
  split
  · next hs =>
    rw [Published.shows_iff] at hs
    split
    · next hpq => rw [← PathMap.get?_congr _ hpq, hs, hmerged hpq]
    · rfl
  · rw [PathMap.get?_insert]
    split
    · next hpq => exact hmerged hpq
    · rfl

theorem get?_foldl_publishFile (paths : List Path) (q : Path) :
    ((paths.foldl (Analyzer.publishFile d s) acc).2.get? q).getD [] =
      if paths.any (· == q) then s.merged q else (acc.2.get? q).getD [] := by
  induction paths generalizing acc with
  | nil => rfl
  | cons p paths ih =>
    rw [List.foldl_cons, ih, get?_publishFile, List.any_cons]
    cases p == q <;> cases paths.any (· == q) <;> rfl

theorem contains_foldl_publishFile {paths : List Path} {q : Path}
    (h : (paths.foldl (Analyzer.publishFile d s) acc).2.contains q = true) :
    acc.2.contains q = true ∨ paths.any (· == q) = true := by
  induction paths generalizing acc with
  | nil => exact Or.inl h
  | cons p paths ih =>
    rcases ih h with h | h
    · rw [snd_publishFile] at h
      split at h
      · exact Or.inl h
      · rw [PathMap.contains, PathMap.get?_insert] at h
        split at h
        · next hpq => exact Or.inr (by simp [hpq])
        · exact Or.inl h
    · right
      rw [List.any_cons, h, Bool.or_true]

/-! ## One pass -/

/-- The client, the record of what was sent and the store agree: `ps` are all publications so far. -/
structure Mirrored (Q : Path → Prop) (ps : List Publication) (a : Analyzer σ) : Prop where
  sent : ∀ q, (a.published.get? q).getD [] = shown ps q
  known : ∀ q, a.published.contains q = true → a.store.documents.contains q = true
  merged : ∀ q, a.store.documents.contains q = true →
    (a.published.get? q).getD [] = a.store.merged q
  spelled : ∀ x ∈ ps, ∃ q, Q q ∧ x.1 = .ofAbsolute q

/-- The client shows what the store holds for the files that are known, and nothing for others. -/
theorem Mirrored.shown_eq {a : Analyzer σ} (h : Mirrored Q ps a) (p : Path) :
    shown ps p = if a.store.documents.contains p then a.store.merged p else [] := by
  rw [← h.sent p]
  split
  · next hp => exact h.merged p hp
  · next hp =>
    have hnone : a.published.get? p = none := by
      cases hg : a.published.get? p with
      | none => rfl
      | some ds => exact absurd (h.known p (by simp [PathMap.contains, hg])) hp
    rw [hnone]
    rfl

variable {a b : Analyzer σ}

/-- Publishing makes the client show what the store holds. `deleted` are the files forgotten. -/
theorem mirrored_publish {deleted : List Path} (hQ : ∀ p, Q p → p.isAbsolute = true)
    (hdocs : ∀ p ∈ a.store.documents.keys, Q p) (hdel : ∀ p ∈ deleted, Q p)
    (hgone : ∀ q, a.store.documents.contains q = true → ∀ p ∈ deleted, (p == q) = false)
    (hsent : ∀ q, (a.published.get? q).getD [] = shown ps q)
    (hknown : ∀ q, a.published.contains q = true →
      a.store.documents.contains q = true ∨ ∃ p ∈ deleted, (p == q) = true)
    (hps : ∀ x ∈ ps, ∃ q, Q q ∧ x.1 = .ofAbsolute q) :
    Mirrored Q (ps ++ (a.publish d deleted).1) (a.publish d deleted).2 ∧
      NoRepeats a.store.documents.contains ps (a.publish d deleted).1 := by
  have hstart : Sending Q a.store.documents.contains ps ([], a.published) :=
    ⟨fun q => by rw [List.append_nil, hsent], fun _ _ _ h => by simp at h, by simp⟩
  have hsend := sending_foldl_publishFile (d := d) (s := a.store) hQ
    (sending_foldl_retract (d := d) hQ hstart hdel hgone) hdocs
  refine ⟨⟨hsend.sent, fun q hq => ?_, fun q hq => ?_, fun x hx => ?_⟩, hsend.quiet⟩
  · rcases contains_foldl_publishFile hq with h | h
    · obtain ⟨hq, hnot⟩ := contains_foldl_retract.1 h
      refine (hknown q hq).resolve_right ?_
      rintro ⟨p, hp, hpq⟩
      simp [hnot p hp] at hpq
    · change a.store.documents.contains q = true
      rwa [PathMap.contains_eq_any]
  · refine (get?_foldl_publishFile _ q).trans (if_pos ?_)
    rw [← PathMap.contains_eq_any]
    exact hq
  · rcases List.mem_append.1 hx with hx | hx
    · exact hps x hx
    · exact hsend.spelled x hx

theorem contains_worked {cap : Capabilities σ} {toLint deleted : List Path} {q : Path} :
    (a.worked cap toLint deleted).store.documents.contains q = true ↔
      a.store.documents.contains q = true ∧ ∀ p ∈ deleted, (p == q) = false := by
  rw [PathMap.contains_of_keys_removed (fun _ => mem_keys_worked) q]
  simp

theorem mirrored_pass {cap : Capabilities σ} {toLint deleted : List Path}
    (hQ : ∀ p, Q p → p.isAbsolute = true) (hw : Within Q a) (hdel : ∀ p ∈ deleted, Q p)
    (hsent : ∀ q, (a.published.get? q).getD [] = shown ps q)
    (hknown : ∀ q, a.published.contains q = true → a.store.documents.contains q = true)
    (hps : ∀ x ∈ ps, ∃ q, Q q ∧ x.1 = .ofAbsolute q) (hne : ¬(toLint = [] ∧ deleted = [])) :
    Mirrored Q (ps ++ (a.pass cap d toLint deleted).1) (a.pass cap d toLint deleted).2 ∧
      NoRepeats (a.pass cap d toLint deleted).2.store.documents.contains ps
        (a.pass cap d toLint deleted).1 := by
  have hpub := published_worked cap a toLint deleted
  rw [pass_eq cap d a hne]
  refine mirrored_publish hQ (fun p hp => hw.documents p (mem_keys_worked.1 hp).1) hdel
    (fun q hq => (contains_worked.1 hq).2) (fun q => by rw [hpub, hsent]) (fun q hq => ?_) hps
  rw [hpub] at hq
  by_cases h : ∃ p ∈ deleted, (p == q) = true
  · exact Or.inr h
  · refine Or.inl (contains_worked.2 ⟨hknown q hq, fun p hp => Bool.eq_false_iff.2 fun hpq => ?_⟩)
    exact h ⟨p, hp, hpq⟩

theorem Prepared.contains {due : List Path} (h : Prepared Q a b due) {q : Path}
    (hq : a.store.documents.contains q = true) : b.store.documents.contains q = true := by
  induction h with
  | start => exact hq
  | rest _ _ _ _ ih => exact ih
  | text _ _ text ih =>
    unfold withText Store.updateText
    split
    · exact ih
    · rw [PathMap.contains, PathMap.get?_insert]
      split
      · rfl
      · exact ih

/-- A pass keeps the client, the record and the store in agreement, and tells the client nothing it
already shows for a file that is known afterwards. -/
theorem Mirrored.step {cap : Capabilities σ} {r : List Publication × Analyzer σ}
    (hQ : ∀ p, Q p → p.isAbsolute = true) (hw : Within Q a) (h : Mirrored Q ps a)
    (hr : PassStep Q cap d a r) :
    Mirrored Q (ps ++ r.1) r.2 ∧ NoRepeats r.2.store.documents.contains ps r.1 := by
  have hquiet : ∀ known, NoRepeats known ps [] := fun known before x later heq => by simp at heq
  cases hr with
  | @work b due toLint deleted hb hl hd =>
    have hpub := hb.published
    by_cases hne : toLint = [] ∧ deleted = []
    · have hst := hb.store_eq hl hne.1
      rw [hne.1, hne.2, pass_nil, List.append_nil]
      refine ⟨⟨fun q => ?_, fun q => ?_, fun q => ?_, h.spelled⟩, hquiet _⟩
      · rw [hpub, h.sent]
      · rw [hpub, hst]
        exact h.known q
      · rw [hpub, hst]
        exact h.merged q
    · refine mirrored_pass hQ (hb.within hw) hd (fun q => ?_) (fun q hq => ?_) h.spelled hne
      · rw [hpub, h.sent]
      · rw [hpub] at hq
        exact hb.contains (h.known q hq)
  | relint settings =>
    by_cases hk : a.store.documents.keys = []
    · -- no file has a text, so nothing was sent that is still shown
      rw [hk, pass_nil, List.append_nil]
      refine ⟨⟨h.sent, h.known, fun q hq => ?_, h.spelled⟩, hquiet _⟩
      have hq : a.store.documents.contains q = true := hq
      rw [PathMap.contains_eq_any, hk] at hq
      cases hq
    · exact mirrored_pass hQ ⟨hw.known, hw.documents⟩ (by simp) h.sent h.known h.spelled
        fun hn => hk hn.1

/-! ## Runs -/

/-- The client, the record and the store agree after some passes, and no pass told the client
anything it already showed. -/
def MirroredBy (Q : Path → Prop) (passes : List (List Publication × Analyzer σ))
    (a : Analyzer σ) : Prop :=
  Mirrored Q (passes.flatMap (·.1)) a ∧ ∀ before r later, passes = before ++ r :: later →
    NoRepeats r.2.store.documents.contains (before.flatMap (·.1)) r.1

theorem mirrored_history (cap : Capabilities σ) (host : σ) {run : List (Disk × Event)}
    (hQ : ∀ p, Q p → p.isAbsolute = true)
    (hdisc : ∀ d roots, ∀ p ∈ Discovery.discover d roots, Q p)
    (hn : ∀ x ∈ run, ∀ p ∈ x.2.names x.1, Q p) :
    MirroredBy Q ((fresh host).history cap run) ((fresh host).after cap run) ∧
      Within Q ((fresh host).after cap run) := by
  have hstep : ∀ d a (passes : List (List Publication × Analyzer σ)) r, Within Q a →
      MirroredBy Q passes a → PassStep Q cap d a r → MirroredBy Q (passes ++ [r]) r.2 := by
    intro d a passes r hw h hr
    obtain ⟨hm, hq⟩ := h.1.step hQ hw hr
    refine ⟨?_, forall_split_append h.2 hq⟩
    rw [List.flatMap_append, List.flatMap_singleton]
    exact hm
  have hfresh : MirroredBy Q [] (fresh host) :=
    ⟨⟨fun _ => rfl, fun _ h => absurd h Bool.false_ne_true,
      fun _ h => absurd h Bool.false_ne_true, by simp⟩, fun _ _ _ h => by simp at h⟩
  have hwithin : Within Q (fresh host) := ⟨fun _ h => (nomatch h), fun _ h => (nomatch h)⟩
  have h := history_invariant hstep hdisc hwithin hn hfresh
  rw [List.foldl_append_eq_append, List.nil_append, ← List.flatMap_def,
    List.flatMap_singleton'] at h
  exact h

end Analyzer

/-- The paths an event spells in its URIs, or gives. -/
def Event.spelled : Event → List Path
  | .opened uri _ | .edited uri _ | .saved uri _ | .closed uri => uri.filePath?.toList
  | .filesChanged changes => changes.filterMap (·.1.filePath?)
  | .delete p => [p]
  | _ => []

theorem Event.names_of_spelled {Q : Path → Prop} {d : Disk} {e : Event}
    (hQ : ∀ p, Q p → Q (d.canonical p)) (h : ∀ p ∈ e.spelled, Q p) : ∀ p ∈ e.names d, Q p := by
  have hpolicy : ∀ {u : Uri}, (∀ q ∈ u.filePath?.toList, Q q) →
      ∀ p ∈ (d.policyPath? u).toList, Q p := by
    intro u hu p hp
    have hp : d.policyPath? u = some p := by simpa using hp
    unfold Disk.policyPath? at hp
    split at hp
    · obtain ⟨q, hq, rfl⟩ := Disk.pathOfUri_eq_ok_iff.1 (toOption_eq_some_iff.1 hp)
      exact hQ q (hu q (by simp [hq]))
    · cases hp
  cases e with
  | opened uri text => exact hpolicy h
  | edited uri text => exact hpolicy h
  | saved uri text? => exact hpolicy h
  | closed uri => exact hpolicy h
  | filesChanged changes =>
    intro p hp
    obtain ⟨u, hu, hup⟩ := List.mem_filterMap.1 hp
    obtain ⟨c, hc, rfl⟩ := List.mem_map.1 hu
    obtain ⟨q, hq, rfl⟩ := Disk.pathOfUri_eq_ok_iff.1 (toOption_eq_some_iff.1 hup)
    exact hQ q (h q (List.mem_filterMap.2 ⟨c, hc, hq⟩))
  | delete p => exact h
  | foldersChanged added removed => simp [names]
  | rootsGiven roots => simp [names]
  | scan => simp [names]
  | lint paths => simp [names]
  | relint => simp [names]
  | configure settings => simp [names]

/-- Among publications whose URIs are spelled plainly, those for a file are those with its URI. -/
theorem shownAt_ofAbsolute {ps : List Publication} {p : Path}
    (hps : ∀ x ∈ ps, ∃ q : Path, q.isPlain = true ∧ x.1 = .ofAbsolute q) (hp : p.isPlain = true) :
    shownAt ps (.ofAbsolute p) = shown ps p := by
  have hne : ∀ q : Path, q.isPlain = true → q.text ≠ "" := by
    intro q hq h
    have := Path.isAbsolute_of_isPlain hq
    simp [Path.isAbsolute, h] at this
  have hcongr : ∀ l : List Publication, (∀ x ∈ l, x ∈ ps) →
      l.find? (·.1 == Uri.ofAbsolute p) = l.find? (isFor · p) := by
    intro l hl
    induction l with
    | nil => rfl
    | cons x l ih =>
      obtain ⟨q, hq, hx⟩ := hps x (hl x (by simp))
      have hfor : isFor x p = (x.1 == Uri.ofAbsolute p) := by
        rw [Bool.eq_iff_iff, isFor, hx, Uri.filePath?_ofAbsolute (hne q hq), Option.any_some]
        constructor
        · intro h
          rw [Path.eq_of_isPlain hq hp h]
          exact BEq.rfl
        · intro h
          rw [Uri.ofAbsolute_inj (hne q hq) (hne p hp) (beq_iff_eq.1 h)]
          exact BEq.rfl
      rw [List.find?_cons, List.find?_cons, hfor, ih fun y hy => hl y (by simp [hy])]
  rw [shownAt, shown, hcongr _ fun x hx => List.mem_reverse.1 hx]

namespace Analyzer

variable {σ : Type} {cap : Capabilities σ}

def diagnosticsAt (d : Disk) (a : Analyzer σ) (u : Uri) : List Diagnostic :=
  (((a.allDiagnostics d).find? (·.1 == u)).map (·.2)).getD []

theorem filterMap_uriOfPath {d : Disk} {s : Store} {paths : List Path}
    (h : ∀ p ∈ paths, p.isAbsolute = true) :
    (paths.filterMap fun p => (d.uriOfPath p).toOption.map fun uri => (uri, s.merged p)) =
      paths.map fun p => (Uri.ofAbsolute p, s.merged p) := by
  induction paths with
  | nil => rfl
  | cons p paths ih =>
    rw [List.filterMap_cons, uriOfPath_of_isAbsolute (h p (by simp)),
      ih fun q hq => h q (by simp [hq])]
    rfl

theorem diagnosticsAt_eq (d : Disk) {a : Analyzer σ} (u : Uri)
    (h : ∀ p ∈ a.store.documents.keys, p.isAbsolute = true) :
    a.diagnosticsAt d u =
      ((a.store.documents.keys.find? (Uri.ofAbsolute · == u)).map a.store.merged).getD [] := by
  rw [diagnosticsAt, allDiagnostics, filterMap_uriOfPath h, List.find?_map, Option.map_map]
  rfl

/-- When all that was published, and all that is known, is spelled plainly, the client shows for
each URI what all diagnostics say there. -/
theorem shownAt_eq_diagnosticsAt {ps : List Publication} {a : Analyzer σ} (d : Disk) (u : Uri)
    (hm : Mirrored (·.isPlain = true) ps a) (hw : Within (·.isPlain = true) a) :
    shownAt ps u = a.diagnosticsAt d u := by
  have habs : ∀ p ∈ a.store.documents.keys, p.isAbsolute = true := fun p hp =>
    Path.isAbsolute_of_isPlain (hw.documents p hp)
  have hshown : ∀ p, p.isPlain = true → shownAt ps (.ofAbsolute p) =
      if a.store.documents.contains p then a.store.merged p else [] := by
    intro p hp
    rw [shownAt_ofAbsolute hm.spelled hp, hm.shown_eq]
  rw [diagnosticsAt_eq d u habs]
  cases hf : a.store.documents.keys.find? (Uri.ofAbsolute · == u) with
  | some p =>
    have hp := List.mem_of_find?_eq_some hf
    have hu : Uri.ofAbsolute p = u := by simpa using List.find?_some hf
    rw [← hu, hshown p (hw.documents p hp), if_pos (PathMap.contains_of_mem_keys hp)]
    rfl
  | none =>
    by_cases hpub : ∃ x ∈ ps, x.1 = u
    · obtain ⟨x, hx, rfl⟩ := hpub
      obtain ⟨q, hq, hxq⟩ := hm.spelled x hx
      rw [hxq, hshown q hq, if_neg]
      · rfl
      · intro hc
        obtain ⟨k, hk, hkq⟩ := PathMap.contains_iff.1 hc
        have hne := List.find?_eq_none.1 hf k hk
        rw [Path.eq_of_isPlain (hw.documents k hk) hq hkq, hxq] at hne
        exact hne BEq.rfl
    · have hnone : ps.reverse.find? (·.1 == u) = none := by
        refine List.find?_eq_none.2 fun x hx hxu => hpub ⟨x, List.mem_reverse.1 hx, ?_⟩
        exact beq_iff_eq.1 hxu
      rw [shownAt, hnone]
      rfl

/-- After every run over absolute paths the client shows for each file what the store holds, however
the file is spelled, and nothing for files that are not known. No pass tells the client what it
already shows for a file that is known after the pass. When all events spell their paths plainly,
the client shows for each URI what all diagnostics say there. -/
theorem client_shows_all_diagnostics (cap : Capabilities σ) (host : σ)
    (run : List (Disk × Event)) (h : ∀ x ∈ run, ∀ p ∈ x.2.spelled, p.isAbsolute = true) :
    let a := (fresh host).after cap run
    let ps := (fresh host).publications cap run
    (∀ p, shown ps p = if a.store.documents.contains p then a.store.merged p else []) ∧
    (∀ before r later, (fresh host).history cap run = before ++ r :: later →
      NoRepeats r.2.store.documents.contains (before.flatMap (·.1)) r.1) ∧
    ((∀ x ∈ run, ∀ p ∈ x.2.spelled, p.isPlain = true) →
      ∀ d u, shownAt ps u = a.diagnosticsAt d u) := by
  intro a ps
  have hps : ps = ((fresh host).history cap run).flatMap (·.1) := publications_eq ..
  obtain ⟨⟨hm, hquiet⟩, -⟩ := mirrored_history cap host (fun _ hp => hp)
    (fun d roots p hp => Path.isAbsolute_of_isPlain (Discovery.isPlain_discover hp))
    fun x hx => x.2.names_of_spelled (fun p hp => x.1.isAbsolute_canonical hp) (h x hx)
  refine ⟨fun p => ?_, hquiet, fun hplain d u => ?_⟩
  · rw [hps]
    exact hm.shown_eq p
  · obtain ⟨⟨hm, -⟩, hw⟩ := mirrored_history cap host
      (fun p hp => Path.isAbsolute_of_isPlain hp)
      (fun d roots p hp => Discovery.isPlain_discover hp)
      fun x hx => x.2.names_of_spelled (fun p hp => x.1.isPlain_canonical hp) (hplain x hx)
    rw [hps]
    exact shownAt_eq_diagnosticsAt d u hm hw

/-- Two files are found, and the editor makes one of them import the other. When the other is
deleted, the client shows nothing for it any more, and that the import points nowhere. -/
theorem client_shows_a_deletion :
    let uri (path : String) : Uri := { scheme? := some "file", authority? := some "", path }
    let d : Disk := { entries := [(["ws"], .folder),
      (["ws", "a.rego"], .file "# METADATA\npackage a\n# TODO".toUTF8),
      (["ws", "b.rego"], .file "# METADATA\npackage b".toUTF8)] }
    let gone := d.removeAt ["ws", "a.rego"]
    let before : List (Disk × Event) := [(d, .rootsGiven [⟨"/ws"⟩]), (d, .scan),
      (d, .edited (uri "/ws/b.rego") "# METADATA\npackage b\nimport data.a")]
    let run := before ++ [(gone, .filesChanged [(uri "/ws/a.rego", .deleted)])]
    let ps := (fresh ()).publications .standard run
    (∀ x ∈ run, ∀ p ∈ x.2.spelled, p.isPlain = true) ∧
      (∀ d u, shownAt ps u = ((fresh ()).after .standard run).diagnosticsAt d u) ∧
      (∀ past r later, (fresh ()).history .standard run = past ++ r :: later →
        NoRepeats r.2.store.documents.contains (past.flatMap (·.1)) r.1) ∧
      (shownAt ((fresh ()).publications .standard before) (uri "/ws/a.rego")).map (·.knownCode?) =
        [some .todoComment] ∧
      shownAt ps (uri "/ws/a.rego") = [] ∧
      (shownAt ps (uri "/ws/b.rego")).map (·.knownCode?) = [some .unresolvedImport] := by
  intro uri d gone before run ps
  have hplain : ∀ x ∈ run, ∀ p ∈ x.2.spelled, p.isPlain = true := by decide +kernel
  have habs : ∀ x ∈ run, ∀ p ∈ x.2.spelled, p.isAbsolute = true := fun x hx p hp =>
    Path.isAbsolute_of_isPlain (hplain x hx p hp)
  obtain ⟨-, hquiet, hshown⟩ := client_shows_all_diagnostics .standard () run habs
  exact ⟨hplain, hshown hplain, hquiet, by decide +kernel⟩

/-- What fails for URIs in other spellings, and for events rather than passes: a file that is closed
under another spelling, with its folder gone, is forgotten but still shown; and a file that loses its
root and gets it back in one event is cleared although the client shows nothing. -/
theorem stale_view_and_repeated_clearing :
    (let uri (path : String) : Uri := { scheme? := some "file", authority? := some "", path }
      let run : List (Disk × Event) :=
        [({}, .opened (uri "/ws/gone//a.rego") ""), ({}, .closed (uri "/ws/gone/a.rego"))]
      shownAt ((fresh ()).publications .standard run) (uri "/ws/gone//a.rego") ≠
        ((fresh ()).after .standard run).diagnosticsAt {} (uri "/ws/gone//a.rego")) ∧
    (let uri (path : String) : Uri := { scheme? := some "file", authority? := some "", path }
      let d : Disk := { entries := [
        (["ws"], .folder), (["ws", "a.rego"], .file "# METADATA\npackage a".toUTF8)] }
      let run : List (Disk × Event) := [(d, .rootsGiven [⟨"/ws"⟩]),
        (d, .opened (uri "/ws/a.rego") ""), (d, .closed (uri "/ws/a.rego"))]
      let a := (fresh ()).after .standard run
      let r := a.handle .standard d (.foldersChanged [uri "/ws"] [uri "/ws"])
      r.1 = [(uri "/ws/a.rego", [])] ∧ r.2.store.documents.contains ⟨"/ws/a.rego"⟩ = true ∧
        shownAt ((fresh ()).publications .standard run) (uri "/ws/a.rego") = []) := by
  decide +kernel

end Analyzer

end PolicyLint
