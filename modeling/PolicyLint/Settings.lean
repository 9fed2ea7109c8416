import PolicyLint.Diagnostic.Code
import PolicyLint.Json
/-!
# Settings

What a client may set: how long a line may be, and which rules and categories are off. Settings
are read all or nothing: a value with one malformed field stands for the defaults.
-/

namespace PolicyLint

/-- What a client may set. -/
structure Settings where
  /-- how many characters a line may have -/
  maxLineLength : Nat := 120
  /-- names of rules that are off, ascending -/
  disabledRules : List String := []
  /-- names of categories that are off, ascending -/
  disabledCategories : List String := []
deriving DecidableEq, Repr, Inhabited

/-- Adds a text to an ascending list of texts without repetition. -/
def insertSorted (s : String) : List String → List String
  | [] => [s]
  | t :: ts => if s = t then t :: ts else if s < t then s :: t :: ts else t :: insertSorted s ts

/-- The texts of a list, ascending and each once. -/
def sortedSet (texts : List String) : List String :=
  texts.foldr insertSorted []

theorem mem_insertSorted {s t : String} {ts : List String} :
    t ∈ insertSorted s ts ↔ t = s ∨ t ∈ ts := by
  induction ts with
  | nil => simp [insertSorted]
  | cons u ts ih =>
    unfold insertSorted
    split
    · next h => simp [h]
    · split
      · simp
      · simp only [List.mem_cons, ih]
        exact or_left_comm

theorem pairwise_insertSorted (s : String) {ts : List String} (h : ts.Pairwise (· < ·)) :
    (insertSorted s ts).Pairwise (· < ·) := by
  induction ts with
  | nil => exact List.pairwise_singleton ..
  | cons u ts ih =>
    obtain ⟨hhead, htail⟩ := List.pairwise_cons.1 h
    unfold insertSorted
    split
    · exact h
    · next hne =>
      split
      · next hlt =>
        refine List.pairwise_cons.2 ⟨fun t ht => ?_, h⟩
        rcases List.mem_cons.1 ht with rfl | ht
        · exact hlt
        · exact String.lt_trans hlt (hhead t ht)
      · next hge =>
        have hus : u < s := by
          rw [← String.not_le]
          exact fun hsu => hne (String.le_antisymm hsu (String.not_lt.1 hge))
        refine List.pairwise_cons.2 ⟨fun t ht => ?_, ih htail⟩
        rcases mem_insertSorted.1 ht with rfl | ht
        · exact hus
        · exact hhead t ht

theorem mem_sortedSet {t : String} {ts : List String} : t ∈ sortedSet ts ↔ t ∈ ts := by
  induction ts with
  | nil => simp [sortedSet]
  | cons s ts ih =>
    change t ∈ insertSorted s (sortedSet ts) ↔ _
    rw [mem_insertSorted, ih, List.mem_cons]

theorem pairwise_sortedSet (ts : List String) : (sortedSet ts).Pairwise (· < ·) := by
  induction ts with
  | nil => exact .nil
  | cons s ts ih => exact pairwise_insertSorted s ih

theorem eq_sortedSet_iff {xs ts : List String} :
    xs = sortedSet ts ↔ xs.Pairwise (· < ·) ∧ ∀ t, t ∈ xs ↔ t ∈ ts := by
  constructor
  · rintro rfl
    exact ⟨pairwise_sortedSet ts, fun t => mem_sortedSet⟩
  · rintro ⟨hxs, hmem⟩
    have nodup {l : List String} (h : l.Pairwise (· < ·)) : l.Nodup :=
      h.imp fun hlt => String.ne_of_lt hlt
    have hperm : xs.Perm (sortedSet ts) :=
      (List.perm_ext_iff_of_nodup (nodup hxs) (nodup (pairwise_sortedSet ts))).2 fun t => by
        rw [hmem, mem_sortedSet]
    exact hperm.eq_of_pairwise (fun _ _ _ _ h k => absurd k (String.lt_asymm h)) hxs
      (pairwise_sortedSet ts)

namespace Settings

/-- A rule is on unless its name or its category is off. -/
def isEnabled (s : Settings) (c : Code) : Bool :=
  !s.disabledRules.contains c.name && !s.disabledCategories.contains c.category

/-- A list of texts, read as a set. -/
def readSet? (v : Json) : Option (List String) :=
  v.arr?.bind fun items => (items.mapM Json.str?).map sortedSet

/-- Reads one field: `fallback` stands for a field that is not given. -/
def readField? {α : Type} (fallback : α) (read? : Json → Option α) : Option Json → Option α
  | none => some fallback
  | some v => read? v

def readFields? (maxLineLength disabledRules disabledCategories : Option Json) :
    Option Settings := do
  let defaults : Settings := {}
  return {
    maxLineLength := ← readField? defaults.maxLineLength (Json.natBelow? UInt64.size) maxLineLength
    disabledRules := ← readField? defaults.disabledRules readSet? disabledRules
    disabledCategories := ← readField? defaults.disabledCategories readSet? disabledCategories }

/-- Reads an object by its keys, or an array of at most three items by their places. -/
def read? : Json → Option Settings
  | .obj fields =>
    readFields? (fields.lookup "maxLineLength") (fields.lookup "disabledRules")
      (fields.lookup "disabledCategories")
  | .arr items =>
    if items.length ≤ 3 then readFields? items[0]? items[1]? items[2]? else none
  | _ => none

/-- The settings a client's value stands for. They may be nested under the key `regal`; a missing
or malformed value stands for the defaults. -/
def ofValue (value : Option Json) : Settings :=
  (value.bind fun v => read? ((v.field? "regal").getD v)).getD {}

end Settings

end PolicyLint
