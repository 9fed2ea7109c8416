import PolicyLint.FileSystem.PathMap
/-!
# Maps as their entries

A map keyed by paths is told by the entry it has for each path: the value, and the spelling that the
entry was first made under (`ext_entryFor?`). Setting a value and removing an entry are felt at the
entry of one path alone, so what is done at different paths can be done in any order
(`erase_insert_of_ne`, `erase_comm`), and what is done at a path is undone by removing its entry
(`erase_insert_self`).
-/

namespace PolicyLint

namespace PathMap

variable {α : Type} {m n : PathMap α} {p q : Path}

theorem nodup_of_ascending {es : List (Path × α)} (h : Ascending es) : es.Nodup := by
  refine h.imp ?_
  rintro e f hlt rfl
  rw [Path.order_eq_iff.2 (BEq.rfl : (e.1 == e.1) = true)] at hlt
  cases hlt

/-- Ascending entries are told by their members. -/
theorem eq_of_ascending {es fs : List (Path × α)} (hes : Ascending es) (hfs : Ascending fs)
    (h : ∀ e, e ∈ es ↔ e ∈ fs) : es = fs := by
  have hperm : es.Perm fs :=
    (List.perm_ext_iff_of_nodup (nodup_of_ascending hes) (nodup_of_ascending hfs)).2 h
  refine List.Perm.eq_of_pairwise ?_ hes hfs hperm
  intro e f _ _ hef hfe
  rw [Std.OrientedCmp.gt_iff_lt.2 hfe] at hef
  cases hef

theorem ext_entryFor? (h : ∀ p, m.entryFor? p = n.entryFor? p) : m = n := by
  have hentries : m.entries = n.entries := by
    refine eq_of_ascending m.ascending n.ascending fun e => ?_
    have hself : (e.1 == e.1) = true := BEq.rfl
    have hm := @entryFor?_eq_some_iff α m e.1 e
    rw [h e.1, entryFor?_eq_some_iff] at hm
    simpa [hself] using hm.symm
  cases m
  cases n
  cases hentries
  rfl

/-- The entries for a path are the one entry that it has, or none. -/
theorem filter_entries (m : PathMap α) (p : Path) :
    (m.entries.filter fun e => e.1 == p) = (m.entryFor? p).toList := by
  refine eq_of_ascending (m.ascending.filter _) ?_ fun e => ?_
  · cases m.entryFor? p with
    | none => exact List.Pairwise.nil
    | some e => exact List.pairwise_singleton ..
  · rw [List.mem_filter, Option.mem_toList, entryFor?_eq_some_iff]

/-! ## Setting and removing -/

theorem erase_insert_self (a : α) (h : (p == q) = true) : (m.insert p a).erase q = m.erase q := by
  refine ext_entryFor? fun r => ?_
  rw [entryFor?_erase, entryFor?_erase, entryFor?_insert]
  split
  · rfl
  · next hqr =>
    have hpr : ¬ (p == r) = true := fun k => hqr (BEq.trans (BEq.symm h) k)
    rw [if_neg hpr]

theorem erase_insert_of_ne (a : α) (h : (p == q) = false) :
    (m.insert p a).erase q = (m.erase q).insert p a := by
  refine ext_entryFor? fun r => ?_
  have hqp : (q == p) = false := by rw [BEq.comm, h]
  rw [entryFor?_erase, entryFor?_insert, entryFor?_insert, entryFor?_erase, entryFor?_erase, hqp]
  by_cases hqr : (q == r) = true
  · have hpr : (p == r) = false := by
      rw [← Bool.not_eq_true]
      exact fun k => by rw [BEq.trans k (BEq.symm hqr)] at h; cases h
    simp [hqr, hpr]
  · simp [hqr]

theorem erase_comm (m : PathMap α) (p q : Path) : (m.erase p).erase q = (m.erase q).erase p := by
  refine ext_entryFor? fun r => ?_
  simp only [entryFor?_erase]
  split <;> split <;> rfl

theorem erase_erase_self (h : (p == q) = true) : (m.erase p).erase q = m.erase q := by
  refine ext_entryFor? fun r => ?_
  simp only [entryFor?_erase]
  split
  · rfl
  · next hqr => rw [if_neg fun k => hqr (BEq.trans (BEq.symm h) k)]

/-! ## Keys -/

theorem pairwise_keys (m : PathMap α) : m.keys.Pairwise fun p q => (p == q) = false := by
  refine List.pairwise_map.2 (m.ascending.imp fun {e f} hlt => ?_)
  rw [Bool.eq_false_iff]
  intro heq
  rw [Path.order_eq_iff.2 heq] at hlt
  cases hlt

theorem nodup_keys (m : PathMap α) : m.keys.Nodup :=
  m.pairwise_keys.imp fun {p q} hne heq => by rw [heq, BEq.rfl] at hne; cases hne

theorem eq_of_mem_keys (hp : p ∈ m.keys) (hq : q ∈ m.keys) (h : (p == q) = true) : p = q := by
  obtain ⟨e, he, rfl⟩ := List.mem_map.1 hp
  obtain ⟨f, hf, rfl⟩ := List.mem_map.1 hq
  rw [m.entry_unique he hf h]

end PathMap

theorem PathSet.ext_keys {s t : PathSet} (h : ∀ p, p ∈ s.keys ↔ p ∈ t.keys) : s = t := by
  have hmem : ∀ (s : PathSet) (e : Path × Unit), e ∈ s.entries ↔ e.1 ∈ s.keys := by
    intro s e
    refine ⟨List.mem_map_of_mem, fun he => ?_⟩
    obtain ⟨f, hf, hfe⟩ := List.mem_map.1 he
    exact (Prod.ext hfe rfl : f = e) ▸ hf
  have hentries : s.entries = t.entries :=
    PathMap.eq_of_ascending s.ascending t.ascending fun e => by rw [hmem, hmem, h]
  cases s
  cases t
  cases hentries
  rfl

end PolicyLint
