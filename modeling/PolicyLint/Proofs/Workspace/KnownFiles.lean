import Mathlib.Data.List.Induction
import PolicyLint.Proofs.Workspace.Listing
import PolicyLint.Proofs.Workspace.Roots
import PolicyLint.Proofs.Workspace.Scan
/-!
# Which files are known

A layout lets in no file but policy files when files are added one by one. Discovery looks at the names
of what it visits, but lists the real paths, and the two differ where it visits a link: a link with the
name of a policy file lets in whatever it leads to, be it a text file or a folder (`Strays`). This is
the only way: without such a link, all known files are policy files (`only_policies_known_iff`).
-/

namespace PolicyLint

/-- What is no link has the same name behind all links above it. -/
theorem Disk.isPolicy_of_realPath? {d : Disk} {p q : Path} (hpolicy : q.isPolicy = true)
    (hlink : d.isLink q = false) (h : d.realPath? q = some p) : p.isPolicy = true := by
  obtain ⟨name, hname⟩ := Path.exists_fileName?_of_isPolicy hpolicy
  obtain ⟨l, hl, rfl⟩ := realPath?_eq_some_iff.1 h
  obtain ⟨folder, -, -, hlast⟩ := resolve_fileName? hname hl
  have hreal := Path.fileName?_ofNames folder (isEntryName_of_fileName? hname)
  rw [hlast hlink, Path.isPolicy_congr (hreal.trans hname.symm)]
  exact hpolicy

namespace Discovery

variable {d : Disk} {roots : List Path} {p q : Path}

/-! ## Names and real paths -/

/-- Discovery visits what it comes to for the sake of any root. -/
def Visits (d : Disk) (roots : List Path) (q : Path) : Prop :=
  ∃ root ∈ roots, VisitsFrom d root q

/-- Discovery lists the real paths of what it visits under the name of a policy file. -/
theorem mem_discover_iff_visits :
    p ∈ discover d roots ↔ ∃ q, Visits d roots q ∧ q.isPolicy = true ∧ d.realPath? q = some p := by
  rw [mem_discover]
  constructor
  · rintro ⟨root, hroot, hp⟩
    obtain ⟨q, hvisits, hq⟩ := mem_below_iff_visits.1 hp
    exact ⟨q, ⟨root, hroot, hvisits⟩, hq⟩
  · rintro ⟨q, ⟨root, hroot, hvisits⟩, hq⟩
    exact ⟨root, hroot, mem_below_iff_visits.2 ⟨q, hvisits, hq⟩⟩

/-- Discovery visits a link that has the name of a policy file and leads to what has no such name. -/
structure Strays (d : Disk) (roots : List Path) (q p : Path) : Prop where
  visits : Visits d roots q
  named : q.isPolicy = true
  link : d.isLink q = true
  leads : d.realPath? q = some p
  other : p.isPolicy = false

theorem Strays.mem_discover (h : Strays d roots q p) : p ∈ discover d roots :=
  mem_discover_iff_visits.2 ⟨q, h.visits, h.named, h.leads⟩

/-- What discovery lists is a policy file, unless it went astray there. -/
theorem policy_or_strays (h : p ∈ discover d roots) :
    p.isPolicy = true ∨ ∃ q, Strays d roots q p := by
  obtain ⟨q, hvisits, hnamed, hleads⟩ := mem_discover_iff_visits.1 h
  cases hp : p.isPolicy with
  | true => exact Or.inl rfl
  | false =>
    refine Or.inr ⟨q, hvisits, hnamed, ?_, hleads, hp⟩
    by_contra hlink
    rw [Disk.isPolicy_of_realPath? hnamed (eq_false_of_ne_true hlink) hleads] at hp
    cases hp

end Discovery

namespace Layout

/-! ## What lets files in -/

inductive Operation
  | addRoot (root : Path)
  | addRoots (roots : List Path)
  | removeRoot (root : Path)
  | discover
  | addFile (file : Path)
  | removeFile (file : Path)

def step (l : Layout) (d : Disk) : Operation → Layout
  | .addRoot root => l.addRoot root
  | .addRoots roots => l.addRoots roots
  | .removeRoot root => (l.removeRoot root).2
  | .discover => (l.discover d).2
  | .addFile file => (l.addFile file).2
  | .removeFile file => (l.removeFile file).2

/-- The layout after several operations, each on the disk as it is then. -/
def after (l : Layout) (steps : List (Disk × Operation)) : Layout :=
  steps.foldl (fun l s => l.step s.1 s.2) l

def OnlyPolicies (l : Layout) : Prop :=
  ∀ p ∈ l.known.keys, p.isPolicy = true

variable {l : Layout} {d : Disk} {p : Path} {steps : List (Disk × Operation)}

theorem after_concat (l : Layout) (steps : List (Disk × Operation)) (s : Disk × Operation) :
    l.after (steps ++ [s]) = (l.after steps).step s.1 s.2 :=
  List.foldl_concat ..

theorem keys_known_discover (l : Layout) (d : Disk) :
    (l.step d .discover).known.keys = Discovery.discover d l.roots.keys :=
  PathSet.keys_ofList_keys _

/-- Only discovery makes files known that are no policy files. -/
theorem mem_known_step {operation : Operation} (h : p ∈ (l.step d operation).known.keys) :
    p ∈ l.known.keys ∨ p.isPolicy = true ∨
      operation = .discover ∧ ∃ q, Discovery.Strays d l.roots.keys q p := by
  cases operation with
  | addRoot root => exact Or.inl h
  | addRoots roots =>
    rw [step, Analyzer.known_addRoots] at h
    exact Or.inl h
  | removeRoot root =>
    rw [step, keys_known_removeRoot] at h
    exact Or.inl (List.mem_filter.1 h).1
  | discover =>
    rw [keys_known_discover] at h
    exact Or.inr ((Discovery.policy_or_strays h).imp_right fun hstrays => ⟨rfl, hstrays⟩)
  | addFile file =>
    rw [step, addFile] at h
    split at h
    · next hpolicy =>
      rcases PathSet.mem_keys_add h with rfl | hp
      · exact Or.inr (Or.inl hpolicy)
      · exact Or.inl hp
    · exact Or.inl h
  | removeFile file => exact Or.inl (PathMap.mem_keys_erase.1 h).1

/-- A known file is a policy file, unless some discovery went astray there. -/
theorem mem_known_after (h : p ∈ (l.after steps).known.keys) :
    p ∈ l.known.keys ∨ p.isPolicy = true ∨
      ∃ before d q, before ++ [(d, .discover)] <+: steps ∧
        Discovery.Strays d (l.after before).roots.keys q p := by
  induction steps using List.reverseRecOn with
  | nil => exact Or.inl h
  | append_singleton steps s ih =>
    obtain ⟨d, operation⟩ := s
    rw [after_concat] at h
    rcases mem_known_step h with hp | hpolicy | ⟨rfl, q, hstrays⟩
    · refine (ih hp).imp_right (Or.imp_right ?_)
      rintro ⟨before, d, q, hbefore, hstrays⟩
      exact ⟨before, d, q, hbefore.trans (List.prefix_append ..), hstrays⟩
    · exact Or.inr (Or.inl hpolicy)
    · exact Or.inr (Or.inr ⟨steps, d, q, List.prefix_refl _, hstrays⟩)

/-! ## What scans read -/

/-- After a scan, a file that has a text and is not open is a policy file, unless discovery went astray
there. -/
theorem policy_or_strays_of_scanned {a : Analyzer Unit}
    (hp : (a.scan .standard d).2.store.documents.contains p = true)
    (hclosed : a.openFiles.contains p = false) :
    p.isPolicy = true ∨
      ∃ q f, Discovery.Strays d a.layout.roots.keys q f ∧ (f == p) = true := by
  obtain ⟨f, hf, hfp⟩ := Analyzer.listed_of_scanned a hp hclosed
  have hname : f.fileName? = p.fileName? := by
    unfold Path.fileName?
    rw [Path.beq_iff.1 hfp]
  rcases Discovery.policy_or_strays hf with hpolicy | ⟨q, hstrays⟩
  · exact Or.inl (Path.isPolicy_congr hname ▸ hpolicy)
  · exact Or.inr ⟨q, f, hstrays, hfp⟩

/-- In a run of operations on changing disks, only policy files are ever known if and only if no
discovery goes astray, from a link with the name of a policy file to what has no such name. Likewise,
the files that have a text after a scan and are not open are policy files, except where the scan's
discovery goes astray; and what it strays to is read as if it were a policy file. -/
theorem only_policies_known_iff (steps : List (Disk × Operation)) (a : Analyzer Unit) (d : Disk) :
    let b := (a.scan .standard d).2
    let roots := a.layout.roots.keys
    ((∀ before, before <+: steps → (({} : Layout).after before).OnlyPolicies) ↔
      ∀ before e, before ++ [(e, .discover)] <+: steps →
        ∀ q p, ¬Discovery.Strays e (({} : Layout).after before).roots.keys q p) ∧
    (∀ p, b.store.documents.contains p = true → a.openFiles.contains p = false →
      p.isPolicy = true ∨ ∃ q f, Discovery.Strays d roots q f ∧ (f == p) = true) ∧
    (∀ q p text, Discovery.Strays d roots q p → a.openFiles.contains p = false →
      d.readText p = .ok text → b.store.documents.get? p = some text) := by
  intro b roots
  refine ⟨⟨?_, ?_⟩, fun p => policy_or_strays_of_scanned, ?_⟩
  · intro h before e hbefore q p hstrays
    have hknown : p ∈ (({} : Layout).after (before ++ [(e, .discover)])).known.keys := by
      rw [after_concat, keys_known_discover]
      exact hstrays.mem_discover
    have hpolicy := h _ hbefore p hknown
    rw [hstrays.other] at hpolicy
    cases hpolicy
  · intro h before hbefore p hp
    rcases mem_known_after hp with hnone | hpolicy | ⟨first, e, q, hfirst, hstrays⟩
    · cases hnone
    · exact hpolicy
    · exact absurd hstrays (h first e (hfirst.trans hbefore) q p)
  · intro q p text hstrays hclosed hread
    exact Analyzer.get?_scan hstrays.mem_discover hclosed hread

/-- A link named as a policy file makes a text file known, and a scan reads it. -/
theorem link_lets_a_text_file_in :
    let d : Disk := { entries := [
      (["ws"], .folder), (["ws", "a.rego"], .file "package a".toUTF8),
      (["ws", "notes.txt"], .file "hello".toUTF8), (["ws", "l.rego"], .link ⟨"notes.txt"⟩)] }
    let steps : List (Disk × Operation) := [(d, .addRoot ⟨"/ws"⟩), (d, .discover)]
    let a : Analyzer Unit := ((Analyzer.fresh ()).addRoots [⟨"/ws"⟩]).2
    let notes := Path.ofNames ["ws", "notes.txt"]
    (¬∀ before, before <+: steps → (({} : Layout).after before).OnlyPolicies) ∧
      (a.scan .standard d).2.store.documents.get? notes = some "hello" ∧
      notes.text = "/ws/notes.txt" := by
  intro d steps a notes
  obtain ⟨hknown, -, hscan⟩ := only_policies_known_iff steps a d
  have hstrays : Discovery.Strays d [⟨"/ws"⟩] (Path.ofNames ["ws", "l.rego"]) notes := {
    visits := ⟨⟨"/ws"⟩, List.mem_cons_self .., Or.inr ⟨["ws"],
      toOption_eq_some_iff.1 (by decide +kernel), rfl, ["ws", "l.rego"], by decide +kernel,
      by decide +kernel, rfl⟩⟩
    named := by decide +kernel
    link := by decide +kernel
    leads := Disk.realPath?_eq_some_iff.2 ⟨_, toOption_eq_some_iff.1 (by decide +kernel), rfl⟩
    other := by decide +kernel }
  refine ⟨fun h => ?_, ?_, by decide +kernel⟩
  · exact hknown.1 h [(d, .addRoot ⟨"/ws"⟩)] d (List.prefix_refl _) _ _ hstrays
  · exact hscan _ _ _ hstrays rfl (toOption_eq_some_iff.1 (by decide +kernel))

end Layout

end PolicyLint
