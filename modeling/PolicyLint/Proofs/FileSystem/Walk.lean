import PolicyLint.FileSystem.Disk
/-!
# Walks through a disk

A path is resolved by a walk. Each step of it starts from a folder, and goes to an entry of that
folder, to the folder above, or on from where a link starts (`Leads`). A path is resolved to a
location if and only if there is such a walk that follows no more links than are allowed
(`resolveFrom_eq_ok_iff`), so what is true of resolved paths is shown by induction on walks.

Walks can be put one behind the other (`Leads.append`), and a walk over the steps of a list stops, on
its way, behind the first of them (`Leads.split`).
-/

namespace PolicyLint

def Entry.isLink : Entry → Bool
  | .link _ => true
  | _ => false

namespace Disk

/-- Where the target of a link is resolved from. -/
def linkBase (here : Location) (target : Path) : Location :=
  if target.isAbsolute then [] else here

/-- The steps lead from one location to another, over at most the given number of links. -/
inductive Leads (d : Disk) : Nat → Location → List Step → Location → Prop
  | done {links : Nat} {here : Location} : Leads d links here [] here
  | stay {links : Nat} {here l : Location} {rest : List Step} (hfolder : d.isFolder here = true)
      (h : Leads d links here rest l) : Leads d links here (.stay :: rest) l
  | up {links : Nat} {here l : Location} {rest : List Step} (hfolder : d.isFolder here = true)
      (h : Leads d links here.dropLast rest l) : Leads d links here (.up :: rest) l
  | name {links : Nat} {here l : Location} {rest : List Step} {s : String} {e : Entry}
      (hfolder : d.isFolder here = true) (hentry : d.entry? (here ++ [s]) = some e)
      (hlink : e.isLink = false) (h : Leads d links (here ++ [s]) rest l) :
      Leads d links here (.name s :: rest) l
  | link {links : Nat} {here l : Location} {rest : List Step} {s : String} {target : Path}
      (hfolder : d.isFolder here = true) (hentry : d.entry? (here ++ [s]) = some (.link target))
      (h : Leads d links (linkBase here target) (target.steps ++ rest) l) :
      Leads d (links + 1) here (.name s :: rest) l

variable {d : Disk} {links more : Nat} {here l m : Location} {steps rest : List Step}

theorem Leads.mono (h : Leads d links here steps l) (hle : links ≤ more) :
    Leads d more here steps l := by
  induction h generalizing more with
  | done => exact .done
  | stay hfolder _ ih => exact .stay hfolder (ih hle)
  | up hfolder _ ih => exact .up hfolder (ih hle)
  | name hfolder hentry hlink _ ih => exact .name hfolder hentry hlink (ih hle)
  | link hfolder hentry _ ih =>
    cases more with
    | zero => cases hle
    | succ more => exact .link hfolder hentry (ih (Nat.le_of_succ_le_succ hle))

/-! ## Resolving is walking -/

theorem leads_of_walk {follow : Location → List Step → Except DiskFault Location}
    (hf : ∀ here steps l, follow here steps = .ok l →
      ∃ fewer, fewer < links ∧ Leads d fewer here steps l)
    (h : d.walk follow here steps = .ok l) : Leads d links here steps l := by
  induction steps generalizing here with
  | nil =>
    cases h
    exact .done
  | cons step rest ih =>
    unfold walk at h
    by_cases hfolder : d.isFolder here = true
    · rw [if_pos hfolder] at h
      cases step with
      | stay => exact .stay hfolder (ih h)
      | up => exact .up hfolder (ih h)
      | name s =>
        dsimp only at h
        cases hentry : d.entry? (here ++ [s]) with
        | none =>
          rw [hentry] at h
          cases h
        | some e =>
          rw [hentry] at h
          cases e with
          | link target =>
            obtain ⟨fewer, hlt, hleads⟩ := hf _ _ _ h
            exact (Leads.link hfolder hentry hleads).mono hlt
          | folder => exact .name hfolder hentry rfl (ih h)
          | file bytes => exact .name hfolder hentry rfl (ih h)
    · rw [if_neg hfolder] at h
      cases h

theorem leads_of_resolveFrom (h : d.resolveFrom links here steps = .ok l) :
    Leads d links here steps l := by
  induction links generalizing here steps l with
  | zero => exact leads_of_walk (fun _ _ _ hf => by cases hf) h
  | succ links ih => exact leads_of_walk (fun _ _ _ hf => ⟨links, Nat.lt_succ_self _, ih hf⟩) h

theorem Leads.resolveFrom (h : Leads d links here steps l) :
    d.resolveFrom links here steps = .ok l := by
  induction h with
  | @done links here => cases links <;> rfl
  | @stay links here l rest hfolder _ ih =>
    rw [← ih]
    cases links <;> simp [Disk.resolveFrom, walk, hfolder]
  | @up links here l rest hfolder _ ih =>
    rw [← ih]
    cases links <;> simp [Disk.resolveFrom, walk, hfolder]
  | @name links here l rest s e hfolder hentry hlink _ ih =>
    rw [← ih]
    cases e with
    | link target => cases hlink
    | folder => cases links <;> simp [Disk.resolveFrom, walk, hfolder, hentry]
    | file bytes => cases links <;> simp [Disk.resolveFrom, walk, hfolder, hentry]
  | link hfolder hentry _ ih =>
    rw [← ih]
    simp [Disk.resolveFrom, walk, hfolder, hentry, linkBase]

/-- Steps are resolved to a location if and only if they lead there. -/
theorem resolveFrom_eq_ok_iff :
    d.resolveFrom links here steps = .ok l ↔ Leads d links here steps l :=
  ⟨leads_of_resolveFrom, Leads.resolveFrom⟩

theorem resolve_eq_ok_iff {p : Path} :
    d.resolve p = .ok l ↔ p.isAbsolute = true ∧ Leads d maxLinks [] p.steps l := by
  unfold resolve
  split
  · next habs => simp [habs, resolveFrom_eq_ok_iff]
  · next habs => simp [habs]

theorem Leads.unique (h : Leads d links here steps l) (h' : Leads d more here steps m) :
    l = m := by
  have hl := (h.mono (Nat.le_max_left links more)).resolveFrom
  rw [(h'.mono (Nat.le_max_right links more)).resolveFrom] at hl
  exact (Except.ok.inj hl).symm

theorem isFolder_of_file {bytes : ByteArray} (h : d.entry? l = some (.file bytes)) :
    d.isFolder l = false := by
  unfold isFolder
  rw [h]

/-- Only folders are walked from. -/
theorem Leads.eq_of_not_isFolder (h : Leads d links here steps l)
    (hfolder : d.isFolder here = false) : steps = [] ∧ l = here := by
  cases h with
  | done => exact ⟨rfl, rfl⟩
  | stay h _ => rw [hfolder] at h; cases h
  | up h _ => rw [hfolder] at h; cases h
  | name h _ _ _ => rw [hfolder] at h; cases h
  | link h _ _ => rw [hfolder] at h; cases h

/-! ## Walks in two parts -/

theorem Leads.append (h : Leads d links here steps m) (hrest : Leads d more m rest l) :
    Leads d (links + more) here (steps ++ rest) l := by
  induction h with
  | done => exact hrest.mono (Nat.le_add_left ..)
  | stay hfolder _ ih => exact .stay hfolder (ih hrest)
  | up hfolder _ ih => exact .up hfolder (ih hrest)
  | name hfolder hentry hlink _ ih => exact .name hfolder hentry hlink (ih hrest)
  | @link links _ _ rest' _ _ hfolder hentry _ ih =>
    have hleads := ih hrest
    rw [List.append_assoc] at hleads
    rw [Nat.add_right_comm]
    exact .link hfolder hentry hleads

/-- A walk stops behind its first steps, and goes on from there. -/
theorem Leads.split (h : Leads d links here (steps ++ rest) l) :
    ∃ m, Leads d links here steps m ∧ Leads d links m rest l := by
  generalize hall : steps ++ rest = all at h
  induction h generalizing steps with
  | @done links here =>
    obtain ⟨rfl, rfl⟩ := List.append_eq_nil_iff.1 hall
    exact ⟨here, .done, .done⟩
  | @stay links here l tail hfolder h ih =>
    rcases List.append_eq_cons_iff.1 hall with ⟨rfl, rfl⟩ | ⟨first, rfl, rfl⟩
    · exact ⟨here, .done, .stay hfolder h⟩
    · obtain ⟨m, hfirst, hrest⟩ := ih rfl
      exact ⟨m, .stay hfolder hfirst, hrest⟩
  | @up links here l tail hfolder h ih =>
    rcases List.append_eq_cons_iff.1 hall with ⟨rfl, rfl⟩ | ⟨first, rfl, rfl⟩
    · exact ⟨here, .done, .up hfolder h⟩
    · obtain ⟨m, hfirst, hrest⟩ := ih rfl
      exact ⟨m, .up hfolder hfirst, hrest⟩
  | @name links here l tail s e hfolder hentry hlink h ih =>
    rcases List.append_eq_cons_iff.1 hall with ⟨rfl, rfl⟩ | ⟨first, rfl, rfl⟩
    · exact ⟨here, .done, .name hfolder hentry hlink h⟩
    · obtain ⟨m, hfirst, hrest⟩ := ih rfl
      exact ⟨m, .name hfolder hentry hlink hfirst, hrest⟩
  | @link links here l tail s target hfolder hentry h ih =>
    rcases List.append_eq_cons_iff.1 hall with ⟨rfl, rfl⟩ | ⟨first, rfl, rfl⟩
    · exact ⟨here, .done, .link hfolder hentry h⟩
    · -- the steps of the target come before those that are left
      obtain ⟨m, hfirst, hrest⟩ := ih (List.append_assoc ..)
      exact ⟨m, .link hfolder hentry hfirst, hrest.mono (Nat.le_succ links)⟩

/-- What is true of every name in a path is true of every name on the way. -/
theorem Leads.forall_names {Q : String → Prop} (h : Leads d links here steps l)
    (hpaths : ∀ (p : Path) (s : String), .name s ∈ p.steps → Q s)
    (hsteps : ∀ s, .name s ∈ steps → Q s) (hhere : ∀ s ∈ here, Q s) : ∀ s ∈ l, Q s := by
  induction h with
  | done => exact hhere
  | stay _ _ ih => exact ih (fun s hs => hsteps s (List.mem_cons_of_mem _ hs)) hhere
  | up _ _ ih =>
    exact ih (fun s hs => hsteps s (List.mem_cons_of_mem _ hs))
      fun s hs => hhere s (List.dropLast_subset _ hs)
  | name _ _ _ _ ih =>
    refine ih (fun s hs => hsteps s (List.mem_cons_of_mem _ hs)) fun s hs => ?_
    rcases List.mem_append.1 hs with hs | hs
    · exact hhere s hs
    · rw [List.mem_singleton.1 hs]
      exact hsteps _ (List.mem_cons_self ..)
  | @link links here l rest name target _ _ _ ih =>
    refine ih (fun s hs => ?_) fun s hs => ?_
    · rcases List.mem_append.1 hs with hs | hs
      · exact hpaths target s hs
      · exact hsteps s (List.mem_cons_of_mem _ hs)
    · unfold linkBase at hs
      split at hs
      · cases hs
      · exact hhere s hs

end Disk

end PolicyLint
