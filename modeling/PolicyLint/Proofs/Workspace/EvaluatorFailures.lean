import Mathlib.Data.List.Forall2
import PolicyLint.Proofs.CrossFile.FindingOrder
import PolicyLint.Proofs.FileSystem.Entries
import PolicyLint.Proofs.Workspace.Deletion
import PolicyLint.Proofs.Workspace.Preparation
/-!
# Evaluators that fail

A category whose evaluation fails in a pass keeps the findings it had, and nothing else is kept: a
category that is evaluated has what it finds now, one that is off has nothing, and of a forgotten
file nothing is left (`failing_category_keeps_its_findings`).

What a pass stores for a file is put together from the shares of the categories, one after the other
(`findingsIn_recompute`), and each share carries the code of its category. So the old findings of a
failing category are found again by their code in whatever the passes before have stored.

No failure leaves a trace once a pass goes through without one. What such a pass stores depends on the
contributions and the settings alone (`crossFindings_recompute`), and these are the same as in a run
in which no evaluator fails, for evaluators write what no other part of the analyzer reads
(`AlikeWorks.run`).
-/

namespace PolicyLint

variable {σ τ ρ : Type}

/-! ## Evaluators -/

/-- When evaluators fail: from a state of their own, whether the evaluation of a category fails, and
the state after it. Such a state can count, or hold a script, so any evaluators may fail in any
pass. -/
abbrev Outage (ρ : Type) := ρ → Category → PathMap Contribution → Option EvaluationFailure × ρ

namespace Capabilities

/-- The parser and the linter of `cap`, with an evaluator for every category that never fails. -/
def uninterrupted (cap : Capabilities τ) : Capabilities τ :=
  { cap with
    categories := Category.all
    evaluate host c state := (.ok (c.evaluate state), host) }

/-- The parser and the linter of `cap`, with an evaluator for every category that fails as `outage`
says. -/
def interrupted (cap : Capabilities τ) (outage : Outage ρ) : Capabilities (τ × ρ) where
  parse host p text := (cap.parse host.1 p text).map (·, host.2)
  lint host p m text s := (cap.lint host.1 p m text s).map (·, host.2)
  categories := Category.all
  evaluate host c state :=
    let (fault?, next) := outage host.2 c state
    (match fault? with
      | some fault => .error fault
      | none => .ok (c.evaluate state), (host.1, next))

theorem lintsAlike_interrupted (cap : Capabilities τ) (outage : Outage ρ) :
    (cap.interrupted outage).LintsAlike Prod.fst cap.uninterrupted :=
  ⟨fun _ _ _ => rfl, fun _ _ _ _ _ => rfl⟩

/-- Evaluators for all categories, each of which fails or finds what its category finds. -/
structure Evaluates (cap : Capabilities σ) : Prop where
  categories : cap.categories = Category.all
  evaluate : ∀ host c state fs, (cap.evaluate host c state).1 = .ok fs → fs = c.evaluate state

theorem evaluates_uninterrupted (cap : Capabilities τ) : cap.uninterrupted.Evaluates :=
  ⟨rfl, fun _ _ _ _ hfs => (Except.ok.inj hfs).symm⟩

theorem evaluates_interrupted (cap : Capabilities τ) (outage : Outage ρ) :
    (cap.interrupted outage).Evaluates := by
  refine ⟨rfl, fun host c state fs hfs => ?_⟩
  change (match (outage host.2 c state).1 with
    | some fault => .error fault
    | none => .ok (c.evaluate state)) = Except.ok fs at hfs
  split at hfs
  · cases hfs
  · exact (Except.ok.inj hfs).symm

variable {cap : Capabilities σ}

theorem Evaluates.contained (hcap : cap.Evaluates) : cap.Contained := by
  intro host c state fs hfs
  rw [hcap.evaluate host c state fs hfs]
  exact contained_standard () c state _ rfl

theorem Evaluates.findings (hcap : cap.Evaluates) {host next : σ} {c : Category}
    {state : PathMap Contribution} {fs : List (Path × Diagnostic)}
    (hfs : cap.findings host c state = (.ok fs, next)) : fs = c.findings state := by
  have hmem : cap.categories.contains c = true := by
    rw [hcap.categories]
    cases c <;> decide
  unfold Capabilities.findings at hfs
  rw [if_pos hmem] at hfs
  have hvalue : (cap.evaluate host c state).1.map sortFindings = .ok fs := congrArg Prod.fst hfs
  cases hv : (cap.evaluate host c state).1 with
  | error fault =>
    rw [hv] at hvalue
    cases hvalue
  | ok found =>
    rw [hv] at hvalue
    cases hvalue
    rw [hcap.evaluate host c state found hv]
    rfl

end Capabilities

/-! ## The findings of a category -/

/-- The stored findings of a category in a file: those that carry its code. -/
def Store.stored (s : Store) (c : Category) (p : Path) : List Diagnostic :=
  ((s.crossFindings.get? p).getD []).filter fun d => d.knownCode? = some c.code

/-- What the evaluation of a category over the current contributions finds in a file. -/
def Store.found (s : Store) (c : Category) (p : Path) : List Diagnostic :=
  ((c.findings (s.state c)).filter (·.1 == p)).map (·.2)

namespace Analyzer

def findingsIn (m : ByFile) (p : Path) : List Diagnostic :=
  (m.get? p).getD []

theorem findingsIn_appendTo (m : ByFile) (p q : Path) (ds : List Diagnostic) :
    findingsIn (appendTo m p ds) q = findingsIn m q ++ if p == q then ds else [] := by
  rw [findingsIn, get?_appendTo]
  split
  · rfl
  · exact (List.append_nil _).symm

/-- What is added for several files is found in each, behind what was there. -/
theorem findingsIn_foldl_appendTo {α : Type} (path : α → Path) (ds : α → List Diagnostic)
    (xs : List α) (m : ByFile) (q : Path) :
    findingsIn (xs.foldl (fun m x => appendTo m (path x) (ds x)) m) q =
      findingsIn m q ++ (xs.filter (path · == q)).flatMap ds := by
  induction xs generalizing m with
  | nil => exact (List.append_nil _).symm
  | cons x xs ih =>
    rw [List.foldl_cons, ih, findingsIn_appendTo, List.append_assoc, List.filter_cons]
    cases path x == q <;> rfl

/-- The old findings of a category are added to those of the file they were in. -/
theorem findingsIn_foldl_entries (m : ByFile) (s : Store) (c : Category) (p : Path) :
    findingsIn (s.crossFindings.entries.foldl (fun m e =>
        appendTo m e.1 (e.2.filter fun d => d.knownCode? = some c.code)) m) p =
      findingsIn m p ++ s.stored c p := by
  rw [findingsIn_foldl_appendTo Prod.fst, PathMap.filter_entries, Store.stored,
    PathMap.get?_eq_entryFor?]
  cases s.crossFindings.entryFor? p with
  | none => rfl
  | some e => simp

theorem findingsIn_foldl_findings (m : ByFile) (s : Store) (c : Category) (p : Path) :
    findingsIn ((c.findings (s.state c)).foldl (fun m f => appendTo m f.1 [f.2]) m) p =
      findingsIn m p ++ s.found c p := by
  rw [findingsIn_foldl_appendTo Prod.fst fun f => [f.2], Store.found, List.map_eq_flatMap]

/-! ## Recomputing -/

/-- The enabled categories of a list whose evaluation fails, one being evaluated after the other. -/
def failures (cap : Capabilities σ) (a : Analyzer σ) : List Category → σ → List Category
  | [], _ => []
  | c :: cs, host =>
    if a.settings.isEnabled c.code then
      match cap.findings host c (a.store.state c) with
      | (.ok _, host) => failures cap a cs host
      | (.error _, host) => c :: failures cap a cs host
    else failures cap a cs host

/-- The enabled categories whose evaluation fails when the findings across files are computed
anew. -/
def failing (cap : Capabilities σ) (a : Analyzer σ) : List Category :=
  failures cap a cap.categories a.host

/-- What a category has in a file when those in `failing` cannot be evaluated. -/
def share (a : Analyzer σ) (failing : List Category) (p : Path) (c : Category) : List Diagnostic :=
  if a.settings.isEnabled c.code then
    if c ∈ failing then a.store.stored c p else a.store.found c p
  else []

/-- Adds what an enabled category finds. -/
def addFound (a : Analyzer σ) (m : ByFile) (c : Category) : ByFile :=
  if a.settings.isEnabled c.code then
    (c.findings (a.store.state c)).foldl (fun m f => appendTo m f.1 [f.2]) m
  else m

/-- The findings of all enabled categories over the current contributions. -/
def foundAnew (a : Analyzer σ) : ByFile :=
  Category.all.foldl (addFound a) (a.store.contributions.filterMap fun _ => some [])

variable {cap : Capabilities σ} {a : Analyzer σ} {p : Path} {c : Category}

theorem failures_subset (cs : List Category) (host : σ) : failures cap a cs host ⊆ cs := by
  induction cs generalizing host with
  | nil => exact List.Subset.refl []
  | cons c cs ih =>
    rw [failures]
    split
    · split
      · exact List.subset_cons_of_subset c (ih _)
      · exact List.cons_subset_cons c (ih _)
    · exact List.subset_cons_of_subset c (ih _)

theorem share_congr {fs gs : List Category} (h : c ∈ fs ↔ c ∈ gs) :
    a.share fs p c = a.share gs p c := by
  unfold share
  simp only [h]

theorem knownCode?_of_mem_share {fs : List Category} {d : Diagnostic} (h : d ∈ a.share fs p c) :
    d.knownCode? = some c.code := by
  unfold share at h
  split at h
  · split at h
    · exact of_decide_eq_true (List.mem_filter.1 h).2
    · obtain ⟨x, hx, rfl⟩ := List.mem_map.1 h
      exact Category.knownCode?_of_mem_findings (List.mem_filter.1 hx).1
  · cases h

/-- The categories of a list, evaluated one after the other, add their shares in this order. -/
theorem findingsIn_foldl_addCategory (hcap : cap.Evaluates) {cs : List Category} (hcs : cs.Nodup)
    (m : ByFile) (host : σ) :
    findingsIn (cs.foldl (addCategory cap a) (m, host)).1 p =
      findingsIn m p ++ cs.flatMap (a.share (failures cap a cs host) p) := by
  induction cs generalizing m host with
  | nil => exact (List.append_nil _).symm
  | cons c cs ih =>
    obtain ⟨hc, hcs⟩ := List.nodup_cons.1 hcs
    have hself (host : σ) : c ∉ failures cap a cs host := fun h => hc (failures_subset cs host h)
    rw [List.foldl_cons, List.flatMap_cons, addCategory, failures]
    dsimp only
    by_cases he : a.settings.isEnabled c.code = true
    · rw [if_pos he, if_pos he]
      rcases hf : cap.findings host c (a.store.state c) with ⟨fault | fs, next⟩
      · have hshare : a.share (c :: failures cap a cs next) p c = a.store.stored c p := by
          rw [share, if_pos he, if_pos (List.mem_cons_self ..)]
        -- that this category failed is of no account for the others
        have hothers : ∀ k ∈ cs, a.share (c :: failures cap a cs next) p k =
            a.share (failures cap a cs next) p k := fun k hk =>
          share_congr (List.mem_cons.trans (or_iff_right fun h => hc (h ▸ hk)))
        dsimp only
        rw [ih hcs, findingsIn_foldl_entries, hshare, List.flatMap_congr hothers,
          List.append_assoc]
      · have hshare : a.share (failures cap a cs next) p c = a.store.found c p := by
          rw [share, if_pos he, if_neg (hself next)]
        dsimp only
        rw [ih hcs, hcap.findings hf, findingsIn_foldl_findings, hshare, List.append_assoc]
    · have hshare : a.share (failures cap a cs host) p c = [] := if_neg he
      rw [if_neg he, if_neg he, ih hcs, hshare, List.nil_append]

/-- What is stored for a file once the findings across files are computed anew. -/
theorem findingsIn_recompute (hcap : cap.Evaluates) (a : Analyzer σ) (p : Path) :
    findingsIn (a.recompute cap).store.crossFindings p =
      Category.all.flatMap (a.share (a.failing cap) p) := by
  have hstart : findingsIn (a.store.contributions.filterMap fun _ => some []) p = [] := by
    rw [findingsIn, PathMap.get?_filterMap]
    cases a.store.contributions.get? p <;> rfl
  change findingsIn (cap.categories.foldl (addCategory cap a) _).1 p = _
  rw [failing, hcap.categories, findingsIn_foldl_addCategory hcap (by decide), hstart,
    List.nil_append]

/-- The stored findings of a category are its share then. -/
theorem stored_recompute (hcap : cap.Evaluates) (a : Analyzer σ) (c : Category) (p : Path) :
    (a.recompute cap).store.stored c p = a.share (a.failing cap) p c := by
  have hshares (k : Category) : (a.share (a.failing cap) p k).filter
      (fun d => d.knownCode? = some c.code) = if k = c then a.share (a.failing cap) p k else [] := by
    split
    · next hk =>
      refine List.filter_eq_self.2 fun d hd => decide_eq_true ?_
      rw [knownCode?_of_mem_share hd, hk]
    · next hk =>
      refine List.filter_eq_nil_iff.2 fun d hd hcode => hk ?_
      rw [knownCode?_of_mem_share hd] at hcode
      exact Category.code_inj (Option.some.inj (of_decide_eq_true hcode))
  change (findingsIn (a.recompute cap).store.crossFindings p).filter _ = _
  rw [findingsIn_recompute hcap, List.filter_flatMap]
  simp only [hshares]
  cases c <;> simp [Category.all]

/-- Where no evaluation fails, the evaluators have no say. -/
theorem foldl_addCategory_of_no_failures (hcap : cap.Evaluates) {cs : List Category}
    (m : ByFile) {host : σ} (h : failures cap a cs host = []) :
    (cs.foldl (addCategory cap a) (m, host)).1 = cs.foldl (addFound a) m := by
  induction cs generalizing m host with
  | nil => rfl
  | cons c cs ih =>
    rw [failures] at h
    rw [List.foldl_cons, List.foldl_cons, addCategory, addFound]
    dsimp only
    by_cases he : a.settings.isEnabled c.code = true
    · rw [if_pos he] at h
      rw [if_pos he, if_pos he]
      rcases hf : cap.findings host c (a.store.state c) with ⟨fault | fs, next⟩
      · rw [hf] at h
        cases h
      · rw [hf] at h
        rw [← hcap.findings hf]
        exact ih _ h
    · rw [if_neg he] at h
      rw [if_neg he, if_neg he]
      exact ih _ h

/-- Without a failure, what is stored depends on the contributions and the settings alone. -/
theorem crossFindings_recompute (hcap : cap.Evaluates) (h : a.failing cap = []) :
    (a.recompute cap).store.crossFindings = a.foundAnew := by
  rw [failing, hcap.categories] at h
  change (cap.categories.foldl (addCategory cap a) _).1 = _
  rw [hcap.categories]
  exact foldl_addCategory_of_no_failures hcap _ h

/-- Computing the findings across files anew leaves alone what evaluators leave alone. -/
theorem host_recompute (f : σ → τ) (cap : Capabilities σ)
    (hcap : ∀ host c state, f (cap.evaluate host c state).2 = f host) (a : Analyzer σ) :
    f (a.recompute cap).host = f a.host := by
  have hfindings (host : σ) (c : Category) (state : PathMap Contribution) :
      f (cap.findings host c state).2 = f host := by
    unfold Capabilities.findings
    split
    · exact hcap host c state
    · rfl
  have hstep (acc : ByFile × σ) (c : Category) : f (addCategory cap a acc c).2 = f acc.2 := by
    unfold addCategory
    split
    · rw [← hfindings acc.2 c (a.store.state c)]
      rcases cap.findings acc.2 c (a.store.state c) with ⟨fault | fs, host⟩ <;> rfl
    · rfl
  have hfold (cs : List Category) (acc : ByFile × σ) :
      f (cs.foldl (addCategory cap a) acc).2 = f acc.2 := by
    induction cs generalizing acc with
    | nil => rfl
    | cons c cs ih => exact (ih _).trans (hstep acc c)
  exact hfold cap.categories _

end Analyzer

/-! ## Passes -/

namespace Work

open Analyzer

/-- The analyzer once a work has forgotten and linted what it is to. -/
def linted (cap : Capabilities σ) (w : Work σ) : Analyzer σ :=
  w.toLint.foldl (lintFile cap) (w.deleted.foldl forget w.start)

/-- The enabled categories whose evaluation fails in the pass that a work asks for. -/
def failing (cap : Capabilities σ) (w : Work σ) : List Category :=
  (w.linted cap).failing cap

variable {cap : Capabilities σ} {d : Disk} {w : Work σ} {p : Path}

theorem run_eq (hwork : ¬(w.toLint = [] ∧ w.deleted = [])) :
    w.run cap d = ((w.linted cap).recompute cap).publish d w.deleted :=
  pass_eq cap d w.start hwork

theorem run_eq_of_idle (hidle : w.toLint = [] ∧ w.deleted = []) :
    (w.run cap d).2 = w.linted cap := by
  unfold Work.run linted
  rw [hidle.1, hidle.2]
  rfl

/-- Once a work has forgotten and linted, its pass writes what other parts do not look at. -/
theorem run_eq_recast (cap : Capabilities σ) (d : Disk) (w : Work σ) :
    (w.run cap d).2 = (w.linted cap).recast (w.run cap d).2.store.crossFindings
      (w.run cap d).2.published (w.run cap d).2.host := by
  by_cases hidle : w.toLint = [] ∧ w.deleted = []
  · rw [run_eq_of_idle hidle]
    rfl
  · rw [run_eq hidle]
    rfl

theorem host_run (f : σ → τ) (cap : Capabilities σ)
    (hcap : ∀ host c state, f (cap.evaluate host c state).2 = f host) (d : Disk) (w : Work σ) :
    f (w.run cap d).2.host = f (w.linted cap).host := by
  by_cases hidle : w.toLint = [] ∧ w.deleted = []
  · rw [run_eq_of_idle hidle]
  · rw [run_eq hidle]
    exact host_recompute f cap hcap (w.linted cap)

/-- Up to the point where the findings across files are computed anew, a file that is not forgotten
has those that it had. -/
theorem stored_linted (cap : Capabilities σ) (hp : w.deleted.any (· == p) = false) (c : Category) :
    (w.linted cap).store.stored c p = w.start.store.stored c p := by
  have hforget := congrArg FileRecord.crossFindings? (file_foldl_forget w.deleted w.start p)
  rw [hp, if_neg Bool.false_ne_true] at hforget
  change (w.deleted.foldl forget w.start).store.crossFindings.get? p =
    w.start.store.crossFindings.get? p at hforget
  rw [Store.stored, linted, crossFindings_foldl_lintFile, hforget]
  rfl

/-- What a pass leaves of the findings of a category in a file that it does not forget. -/
theorem stored_run (hcap : cap.Evaluates) (d : Disk) (hwork : ¬(w.toLint = [] ∧ w.deleted = []))
    (hp : w.deleted.any (· == p) = false) (c : Category) :
    (w.run cap d).2.store.stored c p =
      if (w.run cap d).2.settings.isEnabled c.code then
        if c ∈ w.failing cap then w.start.store.stored c p else (w.run cap d).2.store.found c p
      else [] := by
  rw [run_eq hwork, ← stored_linted cap hp]
  exact stored_recompute hcap (w.linted cap) c p

/-- All that a pass stores for a file are the findings of the categories, in their order. -/
theorem crossFindings_run (hcap : cap.Evaluates) (d : Disk)
    (hwork : ¬(w.toLint = [] ∧ w.deleted = [])) (p : Path) :
    ((w.run cap d).2.store.crossFindings.get? p).getD [] =
      Category.all.flatMap fun c => (w.run cap d).2.store.stored c p := by
  rw [run_eq hwork]
  refine (findingsIn_recompute hcap (w.linted cap) p).trans ?_
  exact List.flatMap_congr fun c _ => (stored_recompute hcap (w.linted cap) c p).symm

end Work

namespace Analyzer

/-! ## Runs with and without failures -/

variable {cap : Capabilities τ} {outage : Outage ρ} {d : Disk} {a : Analyzer (τ × ρ)}
  {b : Analyzer τ} {w : Work (τ × ρ)} {v : Work τ}

/-- `b` is `a` without a state of the evaluators, and with findings across files and publications of
its own. -/
def Alike (a : Analyzer (τ × ρ)) (b : Analyzer τ) : Prop :=
  ∃ x u, b = a.recast x u a.host.1

/-- The same for works. -/
def AlikeWorks (w : Work (τ × ρ)) (v : Work τ) : Prop :=
  ∃ x u, v = w.recast x u w.start.host.1

theorem AlikeWorks.linted (h : AlikeWorks w v) (cap : Capabilities τ) (outage : Outage ρ) :
    Alike (w.linted (cap.interrupted outage)) (v.linted cap.uninterrupted) := by
  obtain ⟨x, u, rfl⟩ := h
  obtain ⟨x', hforgot⟩ := exists_foldl_forget_recast w.deleted w.start x u w.start.host.1
  rw [← host_foldl_forget w.deleted w.start] at hforgot
  have hlinted := foldl_lintFile_recast (x := x') (u := u)
    (cap.lintsAlike_interrupted outage) w.toLint (w.deleted.foldl forget w.start)
  rw [← hforgot, host_foldl_forget] at hlinted
  exact ⟨x', u, hlinted⟩

/-- Alike works have alike results, whichever evaluations fail. -/
theorem AlikeWorks.run (h : AlikeWorks w v) (cap : Capabilities τ) (outage : Outage ρ) (d : Disk) :
    Alike (w.run (cap.interrupted outage) d).2 (v.run cap.uninterrupted d).2 := by
  obtain ⟨x, u, hlinted⟩ := h.linted cap outage
  let l := w.linted (cap.interrupted outage)
  let r := (w.run (cap.interrupted outage) d).2
  let s := (v.run cap.uninterrupted d).2
  have hself : r = l.recast r.store.crossFindings r.published r.host := Work.run_eq_recast ..
  have hhost : s.host = r.host.1 :=
    calc s.host = (v.linted cap.uninterrupted).host :=
          Work.host_run id cap.uninterrupted (fun _ _ _ => rfl) d v
      _ = l.host.1 := by rw [hlinted]; rfl
      _ = r.host.1 :=
          (Work.host_run Prod.fst (cap.interrupted outage) (fun _ _ _ => rfl) d w).symm
  refine ⟨s.store.crossFindings, s.published, ?_⟩
  calc s = (v.linted cap.uninterrupted).recast s.store.crossFindings s.published s.host :=
        Work.run_eq_recast ..
    _ = l.recast s.store.crossFindings s.published s.host := by rw [hlinted]; rfl
    _ = r.recast s.store.crossFindings s.published s.host := by rw [hself]; rfl
    _ = r.recast s.store.crossFindings s.published r.host.1 := by rw [hhost]

theorem failing_uninterrupted (b : Analyzer τ) : b.failing cap.uninterrupted = [] := by
  have hnone (cs : List Category) (host : τ) : failures cap.uninterrupted b cs host = [] := by
    induction cs generalizing host with
    | nil => rfl
    | cons c cs ih =>
      have hok : cap.uninterrupted.findings host c (b.store.state c) =
          (.ok (c.findings (b.store.state c)), host) := by
        cases c <;> rfl
      rw [failures, hok]
      dsimp only
      rw [ih, ite_self]
  exact hnone _ _

/-- Alike works store the same findings across files when no evaluation fails. -/
theorem AlikeWorks.crossFindings_run (h : AlikeWorks w v)
    (hwork : ¬(w.toLint = [] ∧ w.deleted = []))
    (hfailing : w.failing (cap.interrupted outage) = []) :
    (w.run (cap.interrupted outage) d).2.store.crossFindings =
      (v.run cap.uninterrupted d).2.store.crossFindings := by
  have hbusy : ¬(v.toLint = [] ∧ v.deleted = []) := by
    obtain ⟨x, u, rfl⟩ := h
    exact hwork
  obtain ⟨x, u, hlinted⟩ := h.linted cap outage
  rw [Work.run_eq hwork, Work.run_eq hbusy]
  refine (crossFindings_recompute (cap.evaluates_interrupted outage) hfailing).trans ?_
  refine Eq.trans ?_
    (crossFindings_recompute cap.evaluates_uninterrupted (failing_uninterrupted _)).symm
  rw [hlinted]
  rfl

theorem Alike.work (h : Alike a b) (d : Disk) (e : Event) :
    AlikeWorks (a.work d e) (b.work d e) := by
  obtain ⟨x, u, rfl⟩ := h
  obtain ⟨x', hwork⟩ := exists_work_recast (d := d) x u a.host.1 a e
  refine ⟨x', u, ?_⟩
  rw [host_work]
  exact hwork

theorem Alike.additionWork (h : Alike a b) (d : Disk) (roots : List Path) :
    AlikeWorks (a.additionWork d roots) (b.additionWork d roots) := by
  obtain ⟨x, u, rfl⟩ := h
  refine ⟨x, u, ?_⟩
  rw [host_additionWork]
  exact additionWork_recast a roots

/-- Over alike analyzers an event asks for alike works, one by one, and leaves alike analyzers. -/
theorem Alike.works (h : Alike a b) (e : Event) :
    List.Forall₂ AlikeWorks (a.works (cap.interrupted outage) d e) (b.works cap.uninterrupted d e) ∧
      Alike (a.handle (cap.interrupted outage) d e).2 (b.handle cap.uninterrupted d e).2 := by
  have hfirst : AlikeWorks (a.work d e) (b.work d e) := h.work d e
  have hbetween := hfirst.run cap outage d
  by_cases he : ∃ added removed, e = .foldersChanged added removed
  · obtain ⟨added, removed, rfl⟩ := he
    have hsecond := hbetween.additionWork d (d.pathsOfUris added)
    refine ⟨.cons hfirst (.cons hsecond .nil), ?_⟩
    change Alike (a.foldersChanged _ d added removed).2 (b.foldersChanged _ d added removed).2
    rw [foldersChanged_eq_run, foldersChanged_eq_run]
    exact hsecond.run cap outage d
  · replace he : ∀ added removed, e ≠ .foldersChanged added removed :=
      fun added removed h => he ⟨added, removed, h⟩
    rw [works_eq_singleton a he, works_eq_singleton b he, handle_eq_run a he, handle_eq_run b he]
    exact ⟨.cons hfirst .nil, hbetween⟩

/-- After every run, what an analyzer has apart from findings across files and publications is what
it would have if no evaluation had failed. -/
theorem alike_after (host : τ) (start : ρ) (run : List (Disk × Event)) :
    Alike ((fresh (host, start)).after (cap.interrupted outage) run)
      ((fresh host).after cap.uninterrupted run) := by
  have hrun (a : Analyzer (τ × ρ)) (b : Analyzer τ) (h : Alike a b) :
      Alike (a.after (cap.interrupted outage) run) (b.after cap.uninterrupted run) := by
    induction run generalizing a b with
    | nil => exact h
    | cons x run ih => exact ih _ _ (h.works x.2).2
  exact hrun _ _ ⟨.empty, .empty, rfl⟩

/-! ## What an event leaves of the findings of each category -/

/-- The works of an event, each with the analyzer that the pass before it left. -/
def stages (cap : Capabilities σ) (d : Disk) (a : Analyzer σ) (e : Event) :
    List (Analyzer σ × Work σ) :=
  (a :: (a.passes cap d e).map (·.2)).zip (a.works cap d e)

theorem crossFindings_of_mem_stages {cap : Capabilities σ} {a : Analyzer σ} {e : Event}
    (he : e.isRelint = false) {x : Analyzer σ × Work σ} (hx : x ∈ a.stages cap d e) :
    x.2.start.store.crossFindings = x.1.store.crossFindings := by
  have hfirst := crossFindings_work (d := d) a he
  cases e with
  | foldersChanged added removed =>
    rcases List.mem_cons.1 hx with rfl | hx
    · exact hfirst
    · rw [List.mem_singleton.1 hx]
      exact crossFindings_additionWork ..
  | _ =>
    rw [List.mem_singleton.1 hx]
    exact hfirst

/-- After every run, whichever evaluations failed in it and fail now, a pass with work to do, other
than one that lints everything anew, leaves of each file that it does not forget the findings that it
had of the enabled categories that fail, what is found now of the other enabled categories, and
nothing else, in the order of the categories. A forgotten file has no entry. And whenever a pass with
work to do goes through without a failure, the findings across files are those of the same run with
evaluators that never fail. -/
theorem failing_category_keeps_its_findings (cap : Capabilities τ) (outage : Outage ρ) (host : τ)
    (start : ρ) (run : List (Disk × Event)) (d : Disk) (e : Event) :
    let flaky := cap.interrupted outage
    let steady := cap.uninterrupted
    let a := (fresh (host, start)).after flaky run
    let b := (fresh host).after steady run
    (e.isRelint = false →
      ∀ x ∈ a.stages flaky d e, ¬(x.2.toLint = [] ∧ x.2.deleted = []) → ∀ p,
        let before := x.1
        let after := (x.2.run flaky d).2
        (x.2.deleted.any (· == p) = true → after.store.crossFindings.get? p = none) ∧
        (x.2.deleted.any (· == p) = false →
          (∀ c, after.store.stored c p =
            if after.settings.isEnabled c.code then
              if c ∈ x.2.failing flaky then before.store.stored c p else after.store.found c p
            else []) ∧
          (after.store.crossFindings.get? p).getD [] =
            after.store.stored .missingMetadata p ++ after.store.stored .unresolvedImport p)) ∧
    List.Forall₂ (fun w v => ¬(w.toLint = [] ∧ w.deleted = []) → w.failing flaky = [] →
        (w.run flaky d).2.store.crossFindings = (v.run steady d).2.store.crossFindings)
      (a.works flaky d e) (b.works steady d e) := by
  intro flaky steady a b
  have hflaky : flaky.Evaluates := cap.evaluates_interrupted outage
  constructor
  · intro he x hx hwork p
    have hbefore : x.2.start.store.crossFindings = x.1.store.crossFindings :=
      crossFindings_of_mem_stages he hx
    refine ⟨fun hp => ?_, fun hp => ⟨fun c => ?_, ?_⟩⟩
    · have hgone : (x.2.run flaky d).2.store.file p = {} :=
        file_pass_of_gone hflaky.contained d (Or.inl hp)
      exact congrArg FileRecord.crossFindings? hgone
    · have hkept : x.1.store.stored c p = x.2.start.store.stored c p := by
        rw [Store.stored, Store.stored, hbefore]
      rw [hkept]
      exact Work.stored_run hflaky d hwork hp c
    · rw [Work.crossFindings_run hflaky d hwork]
      simp [Category.all]
  · have halike : Alike a b := alike_after host start run
    exact (halike.works e).1.imp fun w v h hwork => h.crossFindings_run hwork

/-- A package without metadata is given an import of nothing while the first category cannot be
evaluated: the finding about the package stays, and that about the import is new. Once the package is
documented and no evaluation fails, the first is gone, as it would be without the failure. -/
theorem finding_outlives_a_failing_evaluation :
    let d : Disk := {}
    let uri : Uri := { scheme? := some "file", authority? := some "", path := "/ws/a.rego" }
    let p : Path := ⟨"/ws/a.rego"⟩
    let outage : Outage Nat := fun calls c _ =>
      (if calls = 2 then some (Disturbances.failure c.name) else none, calls + 1)
    let flaky := Capabilities.standard.interrupted outage
    let steady := Capabilities.standard.uninterrupted
    let first : Event := .opened uri "package a"
    let second : Event := .edited uri "package a\nimport data.b"
    let third : Event := .edited uri "# METADATA\npackage a\nimport data.b"
    let a := (fresh ((), 0)).after flaky [(d, first)]
    let b := (fresh ((), 0)).after flaky [(d, first), (d, second)]
    let c := (fresh ((), 0)).after flaky [(d, first), (d, second), (d, third)]
    (a.work d second).failing flaky = [.missingMetadata] ∧
      b.store.stored .missingMetadata p = a.store.stored .missingMetadata p ∧
      ((b.store.crossFindings.get? p).getD []).map (·.knownCode?) =
        [some .missingMetadata, some .unresolvedImport] ∧
      c.store.crossFindings =
        ((fresh ()).after steady [(d, first), (d, second), (d, third)]).store.crossFindings ∧
      ((c.store.crossFindings.get? p).getD []).map (·.knownCode?) = [some .unresolvedImport] := by
  intro d uri p outage flaky steady first second third a b c
  have hsecond : (a.work d second).failing flaky = [.missingMetadata] ∧
      ¬((a.work d second).toLint = [] ∧ (a.work d second).deleted = []) ∧
      (a.work d second).deleted.any (· == p) = false ∧
      b.settings.isEnabled Category.missingMetadata.code = true ∧
      ((b.store.crossFindings.get? p).getD []).map (·.knownCode?) =
        [some .missingMetadata, some .unresolvedImport] := by decide +kernel
  have hthird : ¬((b.work d third).toLint = [] ∧ (b.work d third).deleted = []) ∧
      (b.work d third).failing flaky = [] ∧
      ((c.store.crossFindings.get? p).getD []).map (·.knownCode?) = [some .unresolvedImport] := by
    decide +kernel
  have hedited (text : String) (added removed : List Uri) :
      Event.edited uri text ≠ .foldersChanged added removed := fun he => by cases he
  have hb : b = ((a.work d second).run flaky d).2 :=
    congrArg Prod.snd (handle_eq_run a (hedited _))
  have hc : c = ((b.work d third).run flaky d).2 :=
    congrArg Prod.snd (handle_eq_run b (hedited _))
  obtain ⟨hfails, hbusy, hp, henabled, hshown⟩ := hsecond
  have hkept : b.store.stored .missingMetadata p = a.store.stored .missingMetadata p := by
    obtain ⟨hpass, -⟩ :=
      failing_category_keeps_its_findings .standard outage () 0 [(d, first)] d second
    have hstored := ((hpass rfl (a, a.work d second) (List.mem_singleton_self _) hbusy p).2 hp).1
      .missingMetadata
    rw [← hb, if_pos henabled, hfails, if_pos (List.mem_singleton_self _)] at hstored
    exact hstored
  obtain ⟨hbusy, hnone, hleft⟩ := hthird
  have hrecovered : c.store.crossFindings =
      ((fresh ()).after steady [(d, first), (d, second), (d, third)]).store.crossFindings := by
    obtain ⟨-, hpasses⟩ :=
      failing_category_keeps_its_findings .standard outage () 0 [(d, first), (d, second)] d third
    have hsteady : (fresh ()).after steady [(d, first), (d, second), (d, third)] = _ :=
      congrArg Prod.snd
        (handle_eq_run ((fresh ()).after steady [(d, first), (d, second)]) (hedited _))
    rw [hc, hsteady]
    exact (List.forall₂_cons.1 hpasses).1 hbusy hnone
  exact ⟨hfails, hkept, hshown, hrecovered, hleft⟩

end Analyzer

end PolicyLint
