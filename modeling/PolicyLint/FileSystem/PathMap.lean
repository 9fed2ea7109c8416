import PolicyLint.FileSystem.Path
/-!
# Maps keyed by paths

Entries are kept in the order of their paths, and there is one entry for paths that are the same.
An entry keeps the spelling of the path it was first made under. A map carries the proof that its
entries ascend, so that what a map holds is said by its look-ups alone.
-/

namespace PolicyLint

/-- Entries in strictly ascending order of their paths. -/
abbrev Ascending {α : Type} (es : List (Path × α)) : Prop :=
  es.Pairwise fun e f => e.1.order f.1 = .lt

structure PathMap (α : Type) where
  entries : List (Path × α)
  ascending : Ascending entries
deriving Repr

namespace PathMap

variable {α β : Type}

def empty : PathMap α := ⟨[], .nil⟩

instance : EmptyCollection (PathMap α) := ⟨empty⟩

instance : Inhabited (PathMap α) := ⟨empty⟩

def get? (m : PathMap α) (p : Path) : Option α :=
  (m.entries.find? fun e => e.1 == p).map (·.2)

def contains (m : PathMap α) (p : Path) : Bool :=
  (m.get? p).isSome

/-- The paths that have an entry, in order. -/
def keys (m : PathMap α) : List Path :=
  m.entries.map (·.1)

/-- Sets the value at a path within ordered entries. -/
def insertEntry (p : Path) (a : α) : List (Path × α) → List (Path × α)
  | [] => [(p, a)]
  | e :: rest =>
    if e.1 == p then (e.1, a) :: rest
    else if p.order e.1 == .lt then (p, a) :: e :: rest
    else e :: insertEntry p a rest

theorem mem_insertEntry {p : Path} {a : α} {e : Path × α} {es : List (Path × α)}
    (h : e ∈ insertEntry p a es) : e = (p, a) ∨ ∃ f ∈ es, e.1 = f.1 := by
  induction es with
  | nil => exact Or.inl (by simpa [insertEntry] using h)
  | cons f es ih =>
    simp only [insertEntry] at h
    split at h
    · rcases List.mem_cons.1 h with rfl | h
      · exact Or.inr ⟨f, by simp⟩
      · exact Or.inr ⟨e, by simp [h]⟩
    · split at h
      · rcases List.mem_cons.1 h with rfl | h
        · exact Or.inl rfl
        · exact Or.inr ⟨e, h, rfl⟩
      · rcases List.mem_cons.1 h with rfl | h
        · exact Or.inr ⟨e, by simp⟩
        · rcases ih h with h | ⟨g, hg, hq⟩
          · exact Or.inl h
          · exact Or.inr ⟨g, by simp [hg], hq⟩

theorem ascending_insertEntry (p : Path) (a : α) {es : List (Path × α)} (h : Ascending es) :
    Ascending (insertEntry p a es) := by
  induction es with
  | nil => simp [insertEntry, Ascending]
  | cons e es ih =>
    obtain ⟨hhead, htail⟩ := List.pairwise_cons.1 h
    simp only [insertEntry]
    split
    · exact List.pairwise_cons.2 ⟨hhead, htail⟩
    · next hne =>
      split
      · next hlt =>
        have hlt := beq_iff_eq.1 hlt
        refine List.pairwise_cons.2 ⟨fun f hf => ?_, h⟩
        rcases List.mem_cons.1 hf with rfl | hf
        · exact hlt
        · exact Std.TransCmp.lt_trans hlt (hhead f hf)
      · next hnlt =>
        refine List.pairwise_cons.2 ⟨fun f hf => ?_, ih htail⟩
        rcases mem_insertEntry hf with rfl | ⟨g, hg, hfg⟩
        · -- neither the same path nor before it: the path comes after it
          cases ho : p.order e.1 with
          | lt => exact absurd (beq_iff_eq.2 ho) hnlt
          | eq => exact absurd (BEq.symm (Path.order_eq_iff.1 ho)) hne
          | gt => exact Std.OrientedCmp.gt_iff_lt.1 ho
        · rw [hfg]; exact hhead g hg

def insert (m : PathMap α) (p : Path) (a : α) : PathMap α :=
  ⟨insertEntry p a m.entries, ascending_insertEntry p a m.ascending⟩

def erase (m : PathMap α) (p : Path) : PathMap α :=
  ⟨m.entries.filter fun e => !(e.1 == p), m.ascending.filter _⟩

def filter (m : PathMap α) (keep : Path → α → Bool) : PathMap α :=
  ⟨m.entries.filter fun e => keep e.1 e.2, m.ascending.filter _⟩

theorem ascending_filterMap (f : α → Option β) {es : List (Path × α)} (h : Ascending es) :
    Ascending (es.filterMap fun e => (f e.2).map fun b => (e.1, b)) := by
  refine List.pairwise_filterMap.2 (h.imp fun {x y} hxy => ?_)
  intro u hu v hv
  obtain ⟨_, -, rfl⟩ := Option.map_eq_some_iff.1 hu
  obtain ⟨_, -, rfl⟩ := Option.map_eq_some_iff.1 hv
  exact hxy

/-- Changes the values for which there is a new one, and drops the others. -/
def filterMap (m : PathMap α) (f : α → Option β) : PathMap β :=
  ⟨m.entries.filterMap fun e => (f e.2).map fun b => (e.1, b), ascending_filterMap f m.ascending⟩

/-! ## Entries -/

/-- The entry for a path, under the spelling it was first made with. -/
def entryFor? (m : PathMap α) (p : Path) : Option (Path × α) :=
  m.entries.find? fun e => e.1 == p

theorem get?_eq_entryFor? (m : PathMap α) (p : Path) : m.get? p = (m.entryFor? p).map (·.2) := rfl

theorem entryFor?_congr (m : PathMap α) {p q : Path} (h : (p == q) = true) :
    m.entryFor? p = m.entryFor? q := by
  have htest : (fun e : Path × α => e.1 == p) = fun e => e.1 == q := by
    funext e
    rw [Bool.eq_iff_iff]
    exact ⟨fun k => BEq.trans k h, fun k => BEq.trans k (BEq.symm h)⟩
  rw [entryFor?, entryFor?, htest]

theorem entry_unique (m : PathMap α) {e f : Path × α} (he : e ∈ m.entries) (hf : f ∈ m.entries)
    (h : (e.1 == f.1) = true) : e = f := by
  suffices hs : ∀ es : List (Path × α), Ascending es → e ∈ es → f ∈ es → e = f from
    hs m.entries m.ascending he hf
  intro es hes he hf
  have heq : e.1.order f.1 = .eq := Path.order_eq_iff.2 h
  induction es with
  | nil => cases he
  | cons g es ih =>
    obtain ⟨hhead, htail⟩ := List.pairwise_cons.1 hes
    rcases List.mem_cons.1 he with he | he <;> rcases List.mem_cons.1 hf with hf | hf
    · rw [he, hf]
    · rw [he, hhead f hf] at heq; cases heq
    · rw [hf, Std.OrientedCmp.gt_iff_lt.2 (hhead e he)] at heq; cases heq
    · exact ih htail he hf

theorem entryFor?_eq_some_iff {m : PathMap α} {p : Path} {e : Path × α} :
    m.entryFor? p = some e ↔ e ∈ m.entries ∧ (e.1 == p) = true := by
  constructor
  · intro h
    have hp := List.find?_some h
    exact ⟨List.mem_of_find?_eq_some h, hp⟩
  · rintro ⟨he, hp⟩
    cases hf : m.entryFor? p with
    | none => exact absurd hp (List.find?_eq_none.1 hf e he)
    | some f =>
      have hq := List.find?_some hf
      rw [m.entry_unique (List.mem_of_find?_eq_some hf) he (BEq.trans hq (BEq.symm hp))]

theorem find?_insertEntry {p q : Path} (a : α) {es : List (Path × α)} (h : Ascending es) :
    (insertEntry p a es).find? (fun e => e.1 == q) =
      if p == q then some ((((es.find? fun e => e.1 == p).map (·.1)).getD p), a)
      else es.find? fun e => e.1 == q := by
  induction es with
  | nil => by_cases hpq : (p == q) = true <;> simp [insertEntry, hpq]
  | cons e es ih =>
    obtain ⟨hhead, htail⟩ := List.pairwise_cons.1 h
    simp only [insertEntry]
    split
    · next hep =>
      have hq : (e.1 == q) = (p == q) := by
        rw [Bool.eq_iff_iff]
        exact ⟨BEq.trans (BEq.symm hep), BEq.trans hep⟩
      by_cases hpq : (p == q) = true <;> simp [hq, hep, hpq]
    · next hep =>
      split
      · next hlt =>
        -- the path comes before all entries, so it has none
        have hnone : ((e :: es).find? fun f => f.1 == p) = none := by
          refine List.find?_eq_none.2 fun f hf hfp => ?_
          have hpf : p.order f.1 = .lt := by
            rcases List.mem_cons.1 hf with rfl | hf
            · exact beq_iff_eq.1 hlt
            · exact Std.TransCmp.lt_trans (beq_iff_eq.1 hlt) (hhead f hf)
          rw [Path.order_eq_iff.2 (BEq.symm hfp)] at hpf
          cases hpf
        rw [hnone, List.find?_cons]
        by_cases hpq : (p == q) = true <;> simp [hpq]
      · rw [List.find?_cons, ih htail, List.find?_cons, List.find?_cons]
        have hep : (e.1 == p) = false := by simpa using hep
        by_cases hpq : (p == q) = true
        · have heq : (e.1 == q) = false := by
            rw [← Bool.not_eq_true] at hep ⊢
            exact fun k => hep (BEq.trans k (BEq.symm hpq))
          simp [hpq, hep, heq]
        · cases e.1 == q <;> simp [hpq]

/-- A value that is set keeps the spelling of the entry, if there is one. -/
theorem entryFor?_insert (m : PathMap α) (p q : Path) (a : α) :
    (m.insert p a).entryFor? q =
      if p == q then some (((m.entryFor? p).map (·.1)).getD p, a) else m.entryFor? q :=
  find?_insertEntry a m.ascending

theorem entryFor?_erase (m : PathMap α) (p q : Path) :
    (m.erase p).entryFor? q = if p == q then none else m.entryFor? q := by
  unfold entryFor? erase
  rw [List.find?_filter]
  split
  · next hpq =>
    refine List.find?_eq_none.2 fun e _ he => ?_
    obtain ⟨hne, heq⟩ := of_decide_eq_true he
    have hep : (e.1 == p) = true := BEq.trans heq (BEq.symm hpq)
    rw [hep] at hne
    cases hne
  · next hpq =>
    congr 1
    funext e
    by_cases heq : (e.1 == q) = true
    · have hep : (e.1 == p) = false := by
        rw [← Bool.not_eq_true]
        exact fun k => hpq (BEq.trans (BEq.symm k) heq)
      simp [heq, hep]
    · simp [heq]

/-! ## Looking up -/

theorem get?_congr (m : PathMap α) {p q : Path} (h : (p == q) = true) : m.get? p = m.get? q := by
  rw [get?_eq_entryFor?, get?_eq_entryFor?, m.entryFor?_congr h]

theorem contains_congr (m : PathMap α) {p q : Path} (h : (p == q) = true) :
    m.contains p = m.contains q := by
  rw [contains, contains, get?_congr m h]

theorem get?_eq_some_iff {m : PathMap α} {p : Path} {a : α} :
    m.get? p = some a ↔ ∃ e ∈ m.entries, (e.1 == p) = true ∧ e.2 = a := by
  simp only [get?_eq_entryFor?, Option.map_eq_some_iff, entryFor?_eq_some_iff, and_assoc]

theorem get?_eq_none_iff {m : PathMap α} {p : Path} :
    m.get? p = none ↔ ∀ e ∈ m.entries, (e.1 == p) = false := by
  simp [get?, List.find?_eq_none]

theorem get?_insert (m : PathMap α) (p q : Path) (a : α) :
    (m.insert p a).get? q = if p == q then some a else m.get? q := by
  rw [get?_eq_entryFor?, entryFor?_insert]
  split <;> rfl

theorem get?_erase (m : PathMap α) (p q : Path) :
    (m.erase p).get? q = if p == q then none else m.get? q := by
  rw [get?_eq_entryFor?, entryFor?_erase]
  split <;> rfl

theorem erase_of_not_contains {m : PathMap α} {p : Path} (h : m.contains p = false) :
    m.erase p = m := by
  have hnone : m.get? p = none := by simpa [contains] using h
  have hentries : (m.erase p).entries = m.entries := by
    refine List.filter_eq_self.2 fun e he => ?_
    rw [get?_eq_none_iff.1 hnone e he]
    rfl
  obtain ⟨es, hes⟩ := m
  simp only [erase, PathMap.mk.injEq]
  exact hentries

theorem get?_filterMap (m : PathMap α) (f : α → Option β) (p : Path) :
    (m.filterMap f).get? p = (m.get? p).bind f := by
  cases h : m.get? p with
  | none =>
    refine get?_eq_none_iff.2 fun e he => ?_
    obtain ⟨x, hx, hb⟩ := List.mem_filterMap.1 he
    obtain ⟨b, -, rfl⟩ := Option.map_eq_some_iff.1 hb
    exact get?_eq_none_iff.1 h x hx
  | some a =>
    obtain ⟨e, he, hp, rfl⟩ := get?_eq_some_iff.1 h
    simp only [Option.bind_some]
    cases hf : f e.2 with
    | none =>
      refine get?_eq_none_iff.2 fun g hg => ?_
      obtain ⟨x, hx, hb⟩ := List.mem_filterMap.1 hg
      obtain ⟨b, hb, rfl⟩ := Option.map_eq_some_iff.1 hb
      cases hq : x.1 == p with
      | false => rfl
      | true =>
        rw [m.entry_unique hx he (BEq.trans hq (BEq.symm hp)), hf] at hb
        cases hb
    | some b =>
      exact get?_eq_some_iff.2
        ⟨(e.1, b), List.mem_filterMap.2 ⟨e, he, by simp [hf]⟩, hp, rfl⟩

/-! ## Keys -/

theorem contains_iff {m : PathMap α} {p : Path} :
    m.contains p = true ↔ ∃ q ∈ m.keys, (q == p) = true := by
  simp only [contains, Option.isSome_iff_exists, get?_eq_some_iff, keys, List.mem_map]
  constructor
  · rintro ⟨_, e, he, hp, rfl⟩
    exact ⟨e.1, ⟨e, he, rfl⟩, hp⟩
  · rintro ⟨_, ⟨e, he, rfl⟩, hp⟩
    exact ⟨e.2, e, he, hp, rfl⟩

theorem contains_eq_any (m : PathMap α) (p : Path) : m.contains p = m.keys.any (· == p) := by
  rw [Bool.eq_iff_iff, contains_iff, List.any_eq_true]

theorem contains_of_mem_keys {m : PathMap α} {p : Path} (h : p ∈ m.keys) : m.contains p = true :=
  contains_iff.2 ⟨p, h, BEq.rfl⟩

theorem keys_insert (m : PathMap α) {p : Path} (a : α) (h : m.contains p = true) :
    (m.insert p a).keys = m.keys := by
  suffices hs : ∀ es : List (Path × α), Ascending es → (∃ e ∈ es, (e.1 == p) = true) →
      (insertEntry p a es).map (·.1) = es.map (·.1) by
    obtain ⟨q, hq, hqp⟩ := contains_iff.1 h
    obtain ⟨e, he, rfl⟩ := List.mem_map.1 hq
    exact hs m.entries m.ascending ⟨e, he, hqp⟩
  intro es hes hex
  induction es with
  | nil => simp at hex
  | cons e es ih =>
    simp only [insertEntry]
    split
    · rfl
    · next hne =>
      obtain ⟨hhead, htail⟩ := List.pairwise_cons.1 hes
      obtain ⟨f, hf, hfp⟩ := hex
      rcases List.mem_cons.1 hf with rfl | hf
      · exact absurd hfp hne
      · -- the entry of the path comes later, so the path does not come before this one
        have hlt : e.1.order p = .lt := by
          rw [← Std.TransCmp.congr_right (Path.order_eq_iff.2 hfp)]
          exact hhead f hf
        have hgt : p.order e.1 = .gt := Std.OrientedCmp.gt_iff_lt.2 hlt
        simp [hgt, ih htail ⟨f, hf, hfp⟩]

theorem mem_keys_insert {m : PathMap α} {p q : Path} {a : α} (h : q ∈ (m.insert p a).keys) :
    q = p ∨ q ∈ m.keys := by
  obtain ⟨e, he, rfl⟩ := List.mem_map.1 h
  rcases mem_insertEntry he with rfl | ⟨f, hf, hq⟩
  · exact Or.inl rfl
  · exact Or.inr (hq ▸ List.mem_map_of_mem hf)

theorem mem_keys_filter {m : PathMap α} {keep : Path → α → Bool} {q : Path}
    (h : q ∈ (m.filter keep).keys) : q ∈ m.keys := by
  obtain ⟨e, he, rfl⟩ := List.mem_map.1 h
  exact List.mem_map_of_mem (List.mem_filter.1 he).1

theorem mem_keys_erase {m : PathMap α} {p q : Path} :
    q ∈ (m.erase p).keys ↔ q ∈ m.keys ∧ (q == p) = false := by
  simp only [keys, erase, List.mem_map, List.mem_filter]
  constructor
  · rintro ⟨e, ⟨he, hp⟩, rfl⟩
    exact ⟨⟨e, he, rfl⟩, by simpa using hp⟩
  · rintro ⟨⟨e, he, rfl⟩, hp⟩
    exact ⟨e, ⟨he, by simpa using hp⟩, rfl⟩

/-- When all that a map lost is the keys of a list, it has lost those paths however they are
spelled. -/
theorem contains_of_keys_removed {m : PathMap α} {n : PathMap β} {ps : List Path}
    (h : ∀ q, q ∈ m.keys ↔ q ∈ n.keys ∧ ∀ p ∈ ps, (p == q) = false) (q : Path) :
    m.contains q = (n.contains q && !ps.any (· == q)) := by
  rw [Bool.eq_iff_iff, contains_iff, Bool.and_eq_true, contains_iff, Bool.not_eq_true',
    List.any_eq_false]
  constructor
  · rintro ⟨k, hk, hkq⟩
    obtain ⟨hn, hps⟩ := (h k).1 hk
    refine ⟨⟨k, hn, hkq⟩, fun p hp hpq => ?_⟩
    have hpk := hps p hp
    rw [BEq.trans hpq (BEq.symm hkq)] at hpk
    cases hpk
  · rintro ⟨⟨k, hn, hkq⟩, hps⟩
    refine ⟨k, (h k).2 ⟨hn, fun p hp => Bool.eq_false_iff.2 fun hpk => ?_⟩, hkq⟩
    exact hps p hp (BEq.trans hpk hkq)

end PathMap

/-- Sets of paths, as maps that hold nothing. -/
abbrev PathSet := PathMap Unit

namespace PathSet

def add (s : PathSet) (p : Path) : PathSet :=
  if s.contains p then s else s.insert p ()

def ofList (paths : List Path) : PathSet :=
  paths.foldl add .empty

theorem mem_keys_add {s : PathSet} {p q : Path} (h : q ∈ (s.add p).keys) :
    q = p ∨ q ∈ s.keys := by
  unfold add at h
  split at h
  · exact Or.inr h
  · exact PathMap.mem_keys_insert h

theorem contains_add (s : PathSet) (p q : Path) :
    (s.add p).contains q = (p == q || s.contains q) := by
  unfold add
  split
  · next h =>
    cases hpq : p == q with
    | false => simp
    | true =>
      have : s.contains q = true := by
        rw [PathMap.contains, ← PathMap.get?_congr s hpq]
        exact h
      simp [this]
  · cases hpq : p == q <;> simp [PathMap.contains, PathMap.get?_insert, hpq]

theorem mem_of_mem_keys_ofList {ps : List Path} {q : Path} (h : q ∈ (ofList ps).keys) :
    q ∈ ps := by
  suffices hs : ∀ (ps : List Path) (s : PathSet), q ∈ (ps.foldl add s).keys →
      q ∈ ps ∨ q ∈ s.keys by
    rcases hs ps .empty h with h | h
    · exact h
    · cases h
  intro ps
  induction ps with
  | nil => exact fun s h => Or.inr h
  | cons p ps ih =>
    intro s h
    rcases ih _ h with h | h
    · exact Or.inl (List.mem_cons_of_mem p h)
    · rcases mem_keys_add h with rfl | h
      · exact Or.inl (List.mem_cons_self ..)
      · exact Or.inr h

theorem contains_ofList (ps : List Path) (q : Path) :
    (ofList ps).contains q = ps.any (· == q) := by
  suffices hs : ∀ (ps : List Path) (s : PathSet),
      (ps.foldl add s).contains q = (ps.any (· == q) || s.contains q) by
    rw [ofList, hs]
    exact Bool.or_false _
  intro ps
  induction ps with
  | nil => intro s; rfl
  | cons p ps ih =>
    intro s
    rw [List.foldl_cons, ih, contains_add, List.any_cons]
    cases p == q <;> cases ps.any (· == q) <;> rfl

end PathSet

end PolicyLint
