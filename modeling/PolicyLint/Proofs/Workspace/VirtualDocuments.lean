import PolicyLint.Proofs.Workspace.BatchOrder
/-!
# Virtual documents

Editors show documents that are no files, such as earlier versions of a file, under URIs that have a
scheme of their own and the path of the file. The analyzer goes by the path of a URI, whatever its
scheme is: a run comes to the same when all its URIs are made URIs of files. So what the editor does
to a virtual document happens to the file of that path. The analyzer stays as it is if and only if
the path leads to no policy file and to nothing that a change on the disk could bring in or take
away (`uris_go_by_their_path`).
-/

namespace PolicyLint

/-- The URI of the file that a URI names by its path. -/
def Uri.asFile (u : Uri) : Uri :=
  { u with scheme? := some "file" }

namespace Event

/-- The event with other URIs. -/
def mapUris (f : Uri → Uri) : Event → Event
  | .opened uri text => .opened (f uri) text
  | .edited uri text => .edited (f uri) text
  | .saved uri text? => .saved (f uri) text?
  | .closed uri => .closed (f uri)
  | .filesChanged changes => .filesChanged (changes.map fun c => (f c.1, c.2))
  | .foldersChanged added removed => .foldersChanged (added.map f) (removed.map f)
  | e => e

/-- All that an event says, it says of the document of one URI. -/
def IsAbout (u : Uri) : Event → Prop
  | .opened uri _ | .edited uri _ | .saved uri _ | .closed uri => uri = u
  | .filesChanged changes => ∀ c ∈ changes, c.1 = u
  | _ => False

end Event

namespace Analyzer

variable {σ : Type} {cap : Capabilities σ} {d : Disk} {a : Analyzer σ} {u v : Uri} {e : Event}

/-- Nothing is published, and what is stored, known and open stays the same. -/
structure Unmoved (a : Analyzer σ) (r : List Publication × Analyzer σ) : Prop where
  publications : r.1 = []
  store : r.2.store = a.store
  known : r.2.layout.known = a.layout.known
  openFiles : r.2.openFiles = a.openFiles

/-- A URI leads to no policy file, and whatever a change on the disk under this URI could take away
or bring in is open, and so is left to the editor. -/
structure NamesNothing (d : Disk) (a : Analyzer σ) (u : Uri) : Prop where
  policyPath? : d.policyPath? u = none
  taken : ∀ p q, d.pathOfUri u = .ok p → (p.extension?.isSome = true → p.isPolicy = true) →
    q.isWithin p = true → Knows a q → a.openFiles.contains q = true
  brought : ∀ p text, d.pathOfUri u = .ok p → p.isPolicy = true → d.readText p = .ok text →
    a.openFiles.contains p = true

/-! ## Only the path counts -/

theorem filePath?_congr (h : u.path = v.path) : u.filePath? = v.filePath? := by
  rw [Uri.filePath?, Uri.filePath?, h]

theorem toOption_pathOfUri_congr (d : Disk) (h : u.path = v.path) :
    (d.pathOfUri u).toOption = (d.pathOfUri v).toOption := by
  rw [Disk.pathOfUri, Disk.pathOfUri, filePath?_congr h]
  cases v.filePath? <;> rfl

theorem policyPath?_congr (d : Disk) (h : u.path = v.path) :
    d.policyPath? u = d.policyPath? v := by
  rw [Disk.policyPath?, Disk.policyPath?, filePath?_congr h, toOption_pathOfUri_congr d h]

theorem add_congr (d : Disk) (b : Batch σ) (h : u.path = v.path) (change : Change) :
    b.add d (u, change) = b.add d (v, change) := by
  unfold Batch.add Disk.pathOfUri
  rw [filePath?_congr h]
  cases v.filePath? <;> rfl

section SamePath

variable {f : Uri → Uri} (hf : ∀ u, (f u).path = u.path)
include hf

theorem pathsOfUris_map (d : Disk) (uris : List Uri) :
    d.pathsOfUris (uris.map f) = d.pathsOfUris uris := by
  rw [Disk.pathsOfUris, List.filterMap_map]
  exact congrArg (uris.filterMap ·) (funext fun u => toOption_pathOfUri_congr d (hf u))

theorem filesChanged_map (cap : Capabilities σ) (d : Disk) (a : Analyzer σ)
    (changes : List (Uri × Change)) :
    a.filesChanged cap d (changes.map fun c => (f c.1, c.2)) = a.filesChanged cap d changes := by
  have hadd : (fun (b : Batch σ) (c : Uri × Change) => b.add d (f c.1, c.2)) = Batch.add d :=
    funext fun b => funext fun c => add_congr d b (hf c.1) c.2
  rw [filesChanged, filesChanged, List.foldl_map, hadd]

/-- An event does the same under other URIs with the same paths. -/
theorem handle_mapUris (cap : Capabilities σ) (d : Disk) (a : Analyzer σ) (e : Event) :
    a.handle cap d (e.mapUris f) = a.handle cap d e := by
  cases e with
  | opened uri text => simp only [Event.mapUris, handle, opened, policyPath?_congr d (hf uri)]
  | edited uri text => simp only [Event.mapUris, handle, edited, policyPath?_congr d (hf uri)]
  | saved uri text? => simp only [Event.mapUris, handle, saved, policyPath?_congr d (hf uri)]
  | closed uri => simp only [Event.mapUris, handle, closed, policyPath?_congr d (hf uri)]
  | filesChanged changes => exact filesChanged_map hf cap d a changes
  | foldersChanged added removed =>
    simp only [Event.mapUris, handle, foldersChanged, pathsOfUris_map hf]
  | rootsGiven roots => rfl
  | scan => rfl
  | lint paths => rfl
  | relint => rfl
  | configure settings => rfl
  | delete p => rfl

theorem after_mapUris (cap : Capabilities σ) (a : Analyzer σ) (run : List (Disk × Event)) :
    a.after cap (run.map fun x => (x.1, x.2.mapUris f)) = a.after cap run := by
  induction run generalizing a with
  | nil => rfl
  | cons x run ih =>
    change after cap (a.handle cap x.1 (x.2.mapUris f)).2 _ = after cap (a.handle cap x.1 x.2).2 run
    rw [handle_mapUris hf, ih]

theorem publications_mapUris (cap : Capabilities σ) (a : Analyzer σ) (run : List (Disk × Event)) :
    a.publications cap (run.map fun x => (x.1, x.2.mapUris f)) = a.publications cap run := by
  induction run generalizing a with
  | nil => rfl
  | cons x run ih =>
    rw [List.map_cons, publications, publications, handle_mapUris hf, ih]

end SamePath

/-! ## URIs that name nothing -/

theorem load_eq_self {b : Batch σ} {p : Path}
    (h : ∀ text, p.isPolicy = true → d.readText p = .ok text →
      b.analyzer.openFiles.contains p = true) : b.load d p = b := by
  unfold Batch.load
  split
  · rfl
  · next hread =>
    obtain ⟨hpolicy, hclosed⟩ : p.isPolicy = true ∧ ¬b.analyzer.openFiles.contains p = true := by
      simpa using hread
    rw [reload_eq]
    cases hr : d.readText p with
    | error fault => rfl
    | ok text => exact absurd (h text hpolicy hr) hclosed

theorem delete_eq_self {b : Batch σ} {p : Path}
    (h : ∀ q, q.isWithin p = true → Knows b.analyzer q →
      b.analyzer.openFiles.contains q = true) : b.delete p = b := by
  have hnone : ((b.analyzer.layout.matching p ++
      b.analyzer.store.documents.keys.filter (·.isWithin p)).filter
        fun f => !b.analyzer.openFiles.contains f) = [] := by
    refine List.filter_eq_nil_iff.2 fun q hq => ?_
    have hopen : b.analyzer.openFiles.contains q = true := by
      rcases List.mem_append.1 hq with hq | hq
      · obtain ⟨hq, hwithin⟩ := List.mem_filter.1 hq
        exact h q hwithin (Or.inl (PathMap.contains_of_mem_keys hq))
      · obtain ⟨hq, hwithin⟩ := List.mem_filter.1 hq
        exact h q hwithin (Or.inr (PathMap.contains_of_mem_keys hq))
    simp [hopen]
  rw [Batch.delete, hnone, List.append_nil]

theorem NamesNothing.add (h : NamesNothing d a u) (change : Change) :
    Batch.add d { analyzer := a } (u, change) = { analyzer := a } := by
  cases hp : d.pathOfUri u with
  | error fault =>
    unfold Batch.add
    dsimp only
    rw [hp]
  | ok p =>
    by_cases hext : p.extension?.isSome = true → p.isPolicy = true
    · have hload : Batch.load d { analyzer := a } p = { analyzer := a } :=
        load_eq_self fun text => h.brought p text hp
      rw [add_of_looked_at hp hext]
      cases change with
      | created => exact hload
      | changed => exact hload
      | deleted => exact delete_eq_self fun q => h.taken p q hp hext
      | other => rfl
    · exact add_of_passed_over hp hext ..

theorem NamesNothing.batch (h : NamesNothing d a u) {changes : List (Uri × Change)}
    (hu : ∀ c ∈ changes, c.1 = u) : a.batch d changes = { analyzer := a } := by
  unfold Analyzer.batch
  induction changes with
  | nil => rfl
  | cons c changes ih =>
    obtain ⟨v, change⟩ := c
    obtain rfl : v = u := hu (v, change) (List.mem_cons_self ..)
    rw [List.foldl_cons, h.add]
    exact ih fun c hc => hu c (List.mem_cons_of_mem _ hc)

/-- Events about a URI that names nothing do nothing. -/
theorem NamesNothing.handle (h : NamesNothing d a u) (he : e.IsAbout u) :
    a.handle cap d e = ([], a) := by
  have hnone := h.policyPath?
  cases e with
  | opened uri text =>
    obtain rfl : uri = u := he
    rw [Analyzer.handle, opened, hnone]
  | edited uri text =>
    obtain rfl : uri = u := he
    rw [Analyzer.handle, edited, hnone]
  | saved uri text? =>
    obtain rfl : uri = u := he
    rw [Analyzer.handle]
    unfold saved
    rw [hnone]
  | closed uri =>
    obtain rfl : uri = u := he
    rw [Analyzer.handle, closed, hnone]
  | filesChanged changes =>
    change (a.filesWork d changes).run cap d = _
    rw [filesWork, h.batch he]
    rfl
  | foldersChanged added removed => exact he.elim
  | rootsGiven roots => exact he.elim
  | scan => exact he.elim
  | lint paths => exact he.elim
  | relint => exact he.elim
  | configure settings => exact he.elim
  | delete p => exact he.elim

/-! ## URIs that name something -/

theorem openFiles_opened {p : Path} (hp : d.policyPath? u = some p) (text : String) :
    (a.handle cap d (.opened u text)).2.openFiles = a.openFiles.add p := by
  rw [handle_eq_run a (by simp), Work.openFiles_run]
  simp only [work, hp]
  rfl

theorem openFiles_closed {p : Path} (hp : d.policyPath? u = some p) :
    (a.handle cap d (.closed u)).2.openFiles = a.openFiles.erase p := by
  rw [handle_eq_run a (by simp), Work.openFiles_run]
  simp only [work, hp]
  unfold closing
  split
  · cases d.readText p <;> rfl
  · rfl

/-- The known files after a single change on the disk. -/
theorem contains_known_change (cap : Capabilities σ) (d : Disk) (a : Analyzer σ) (c : Uri × Change)
    (q : Path) :
    (a.handle cap d (.filesChanged [c])).2.layout.known.contains q =
      ((Batch.add d { analyzer := a } c).analyzer.layout.known.contains q &&
        !(Batch.add d { analyzer := a } c).deleted.any (· == q)) := by
  rw [← PathSet.contains_ofList, PathMap.contains_eq_any (PathSet.ofList _)]
  exact contains_known_pass ..

/-- The files with a text after a single change on the disk. -/
theorem contains_documents_change (cap : Capabilities σ) (d : Disk) (a : Analyzer σ)
    (c : Uri × Change) (q : Path) :
    (a.handle cap d (.filesChanged [c])).2.store.documents.contains q =
      ((Batch.add d { analyzer := a } c).analyzer.store.documents.contains q &&
        !(Batch.add d { analyzer := a } c).deleted.any (· == q)) := by
  rw [← PathSet.contains_ofList, PathMap.contains_eq_any (PathSet.ofList _)]
  exact contains_documents_pass ..

/-- A policy file is opened with a document of its path, and closed with it. -/
theorem policyPath?_of_unmoved (h : ∀ e : Event, e.IsAbout u → Unmoved a (a.handle cap d e)) :
    d.policyPath? u = none := by
  cases hp : d.policyPath? u with
  | none => rfl
  | some p =>
    have hopened := (h (.opened u "") rfl).openFiles
    have hclosed := (h (.closed u) rfl).openFiles
    rw [openFiles_opened hp] at hopened
    rw [openFiles_closed hp] at hclosed
    have hopen : a.openFiles.contains p = true := by
      rw [← hopened, PathSet.contains_add, BEq.rfl, Bool.true_or]
    rw [← hclosed, PathMap.contains, PathMap.get?_erase, if_pos BEq.rfl] at hopen
    cases hopen

/-- A deletion takes away all files that are not open. -/
theorem not_knows_of_unmoved {p q : Path} (hp : d.pathOfUri u = .ok p)
    (hext : p.extension?.isSome = true → p.isPolicy = true) (hq : q.isWithin p = true)
    (hclosed : a.openFiles.contains q = false)
    (h : Unmoved a (a.handle cap d (.filesChanged [(u, .deleted)]))) : ¬Knows a q := by
  intro hknows
  have hadd : Batch.add d { analyzer := a } (u, .deleted) = Batch.delete { analyzer := a } p :=
    add_of_looked_at hp hext ..
  have hdeleted := (any_delete (b := { analyzer := a }) p hclosed).2 (Or.inr ⟨hq, hknows⟩)
  have hknown := contains_known_change cap d a (u, .deleted) q
  have hdocuments := contains_documents_change cap d a (u, .deleted) q
  rw [h.known, hadd, hdeleted, Bool.not_true, Bool.and_false] at hknown
  rw [h.store, hadd, hdeleted, Bool.not_true, Bool.and_false] at hdocuments
  unfold Knows at hknows
  rw [hknown, hdocuments] at hknows
  simp at hknows

/-- A policy file that is not open and can be read becomes known when it is created. -/
theorem knows_of_unmoved {p : Path} {text : String} (hp : d.pathOfUri u = .ok p)
    (hpolicy : p.isPolicy = true) (hread : d.readText p = .ok text)
    (hclosed : a.openFiles.contains p = false)
    (h : Unmoved a (a.handle cap d (.filesChanged [(u, .created)]))) : Knows a p := by
  have hadd : Batch.add d { analyzer := a } (u, .created) = Batch.load d { analyzer := a } p :=
    add_of_looked_at hp (fun _ => hpolicy) ..
  have hload : (Batch.load d { analyzer := a } p).analyzer = (a.withText p text).addKnown p ∧
      (Batch.load d { analyzer := a } p).deleted = [] := by
    unfold Batch.load
    dsimp only
    rw [hpolicy, hclosed, reload_eq, hread]
    exact ⟨rfl, rfl⟩
  have hknown := contains_known_change cap d a (u, .created) p
  rw [h.known, hadd, hload.1, hload.2, contains_addKnown _ hpolicy, BEq.rfl] at hknown
  exact Or.inl hknown

theorem namesNothing_of_unmoved
    (h : ∀ e : Event, e.IsAbout u → Unmoved a (a.handle cap d e)) : NamesNothing d a u := by
  have hchange : ∀ change, Unmoved a (a.handle cap d (.filesChanged [(u, change)])) :=
    fun change => h _ fun c hc => by rw [List.mem_singleton.1 hc]
  have htaken : ∀ p q, d.pathOfUri u = .ok p →
      (p.extension?.isSome = true → p.isPolicy = true) → q.isWithin p = true → Knows a q →
      a.openFiles.contains q = true := by
    intro p q hp hext hq hknows
    cases hclosed : a.openFiles.contains q with
    | true => rfl
    | false => exact absurd hknows (not_knows_of_unmoved hp hext hq hclosed (hchange .deleted))
  refine ⟨policyPath?_of_unmoved h, htaken, fun p text hp hpolicy hread => ?_⟩
  cases hclosed : a.openFiles.contains p with
  | true => rfl
  | false =>
    have hknows := knows_of_unmoved hp hpolicy hread hclosed (hchange .created)
    have hself : p.isWithin p = true := by simp [Path.isWithin]
    rw [← hclosed]
    exact htaken p p hp (fun _ => hpolicy) hself hknows

/-- A run comes to the same when all its URIs are made URIs of files. After any run, the events about
a URI leave the analyzer as it is if and only if the path of the URI names nothing. -/
theorem uris_go_by_their_path (cap : Capabilities σ) (host : σ) (run : List (Disk × Event))
    (d : Disk) (u : Uri) :
    let a := (fresh host).after cap run
    let asFiles := run.map fun x => (x.1, x.2.mapUris Uri.asFile)
    (fresh host).after cap asFiles = a ∧
      (fresh host).publications cap asFiles = (fresh host).publications cap run ∧
      ((∀ e : Event, e.IsAbout u → Unmoved a (a.handle cap d e)) ↔ NamesNothing d a u) := by
  intro a asFiles
  have hpath : ∀ u : Uri, u.asFile.path = u.path := fun _ => rfl
  refine ⟨after_mapUris hpath cap _ run, publications_mapUris hpath cap _ run,
    namesNothing_of_unmoved, fun h e he => ?_⟩
  rw [h.handle he]
  exact ⟨rfl, rfl, rfl, rfl⟩

/-- An earlier version of a file that the editor shows takes the place of the file. -/
theorem earlier_version_replaces_the_file :
    let d : Disk := { entries := [
      (["ws"], .folder), (["ws", "a.rego"], .file "package a".toUTF8)] }
    let run : List (Disk × Event) := [(d, .rootsGiven [⟨"/ws"⟩]), (d, .scan)]
    let u : Uri := { scheme? := some "git", path := "/ws/a.rego" }
    let a := (fresh ()).after .standard run
    let b := (a.handle .standard d (.opened u "package b")).2
    (¬∀ e : Event, e.IsAbout u → Unmoved a (a.handle .standard d e)) ∧
      a.store.documents.get? ⟨"/ws/a.rego"⟩ = some "package a" ∧
      b.store.documents.get? ⟨"/ws/a.rego"⟩ = some "package b" ∧
      a.openFiles.contains ⟨"/ws/a.rego"⟩ = false ∧
      b.openFiles.contains ⟨"/ws/a.rego"⟩ = true := by
  intro d run u a b
  refine ⟨fun h => ?_, by decide +kernel, by decide +kernel, by decide +kernel, by decide +kernel⟩
  have hnothing := ((uris_go_by_their_path .standard () run d u).2.2.1 h).policyPath?
  have hsome : (d.policyPath? u).isSome = true := by decide +kernel
  rw [hnothing] at hsome
  cases hsome

end Analyzer

end PolicyLint
