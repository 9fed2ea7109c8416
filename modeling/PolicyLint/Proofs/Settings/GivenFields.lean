import PolicyLint.Settings
/-!
# The fields that a client gives

A client gives the fields of settings by key in an object, or by place in an array of at most three
items. Settings are read all or nothing: as long as everything given has the shape of its field, the
settings are what is given and the defaults for the rest; with one malformed field they are the
defaults throughout (`settings_all_or_nothing`).

So nothing else of a value counts: neither keys that no field has, nor whether the settings are nested
under the key `regal`.
-/

namespace PolicyLint.Settings

/-! ## What is given -/

inductive Field
  | maxLineLength
  | disabledRules
  | disabledCategories

def Field.key : Field → String
  | maxLineLength => "maxLineLength"
  | disabledRules => "disabledRules"
  | disabledCategories => "disabledCategories"

def Field.place : Field → Nat
  | maxLineLength => 0
  | disabledRules => 1
  | disabledCategories => 2

/-- The value that holds the fields: the one under the key `regal`, if there is that key. -/
def holder (v : Json) : Json :=
  match v.field? "regal" with
  | some w => w
  | none => v

/-- Only objects, and arrays with no more items than there are fields, hold fields. -/
def HoldsFields (w : Json) : Prop :=
  (∃ fields, w = .obj fields) ∨ ∃ items, w = .arr items ∧ items.length ≤ 3

/-- What a value gives for a field. -/
def given? (w : Json) (f : Field) : Option Json :=
  match w with
  | .obj fields => fields.lookup f.key
  | .arr items => items[f.place]?
  | _ => none

/-- A value is an integer that fits into 64 bits. -/
def IsCount (v : Json) (n : Nat) : Prop :=
  v = .int n ∧ n < UInt64.size

/-- A value is a list of texts, and the ascending list `texts` has the same ones. -/
def IsSet (v : Json) (texts : List String) : Prop :=
  ∃ items : List String, v = .arr (items.map .str) ∧
    texts.Pairwise (· < ·) ∧ ∀ t, t ∈ texts ↔ t ∈ items

/-- `x` is what is given, or the default where nothing is. -/
def IsGiven {α : Type} (default : α) (Is : Json → α → Prop) (given : Option Json) (x : α) : Prop :=
  match given with
  | some v => Is v x
  | none => x = default

/-- What is given, if anything is, has the right shape. -/
def Fits {α : Type} (Is : Json → α → Prop) (given : Option Json) : Prop :=
  ∀ v, given = some v → ∃ x, Is v x

/-- A value holds fields, and all that it gives have the right shape. -/
structure WellFormed (w : Json) : Prop where
  holds : HoldsFields w
  maxLineLength : Fits IsCount (given? w .maxLineLength)
  disabledRules : Fits IsSet (given? w .disabledRules)
  disabledCategories : Fits IsSet (given? w .disabledCategories)

/-- Settings are what a value gives, and the defaults for what it does not give. -/
structure GivenBy (w : Json) (s : Settings) : Prop where
  maxLineLength : IsGiven 120 IsCount (given? w .maxLineLength) s.maxLineLength
  disabledRules : IsGiven [] IsSet (given? w .disabledRules) s.disabledRules
  disabledCategories : IsGiven [] IsSet (given? w .disabledCategories) s.disabledCategories

/-! ## Single fields -/

theorem natBelow?_eq_some_iff {v : Json} {n : Nat} :
    v.natBelow? UInt64.size = some n ↔ IsCount v n := by
  unfold Json.natBelow? IsCount
  split
  · next k =>
    split
    · next h =>
      simp only [Option.some.injEq, Json.int.injEq]
      omega
    · next h =>
      simp only [reduceCtorEq, Json.int.injEq, false_iff]
      omega
  · next h =>
    simp only [reduceCtorEq, false_iff]
    rintro ⟨rfl, -⟩
    exact h n rfl

theorem str?_eq_some_iff {v : Json} {t : String} : v.str? = some t ↔ v = .str t := by
  cases v <;> simp [Json.str?]

theorem mapM_str?_eq_some_iff {items : List Json} {texts : List String} :
    items.mapM Json.str? = some texts ↔ items = texts.map .str := by
  induction items generalizing texts with
  | nil => cases texts <;> simp
  | cons v items ih =>
    simp only [List.mapM_cons, Option.bind_eq_bind, Option.bind_eq_some_iff, str?_eq_some_iff, ih,
      Option.pure_def, Option.some_inj]
    constructor
    · rintro ⟨t, rfl, texts, rfl, rfl⟩
      rfl
    · intro h
      cases texts with
      | nil => cases h
      | cons t texts =>
        cases h
        exact ⟨t, rfl, texts, rfl, rfl⟩

theorem readSet?_eq_some_iff {v : Json} {texts : List String} :
    readSet? v = some texts ↔ IsSet v texts := by
  unfold readSet? IsSet
  cases v with
  | arr items =>
    simp only [Json.arr?, Option.bind_some, Option.map_eq_some_iff, mapM_str?_eq_some_iff,
      Json.arr.injEq]
    refine exists_congr fun given => and_congr_right fun _ => ?_
    rw [eq_comm, eq_sortedSet_iff]
  | _ => simp [Json.arr?]

section

variable {α : Type} {default : α} {reader? : Json → Option α} {Is : Json → α → Prop}
  {given : Option Json}

theorem readField?_eq_some_iff (h : ∀ {v x}, reader? v = some x ↔ Is v x) {x : α} :
    readField? default reader? given = some x ↔ IsGiven default Is given x := by
  cases given with
  | none => exact Option.some_inj.trans eq_comm
  | some v => exact h

/-- A field that fits has a value, which is what is given or the default. -/
theorem fits_iff (default : α) : Fits Is given ↔ ∃ x, IsGiven default Is given x := by
  cases given with
  | none => simp [Fits, IsGiven]
  | some v => simp [Fits, IsGiven]

end

/-! ## All fields -/

theorem readFields?_eq_some_iff {w : Json} {s : Settings} :
    readFields? (given? w .maxLineLength) (given? w .disabledRules) (given? w .disabledCategories) =
      some s ↔ GivenBy w s := by
  unfold readFields?
  simp only [Option.bind_eq_bind, Option.bind_eq_some_iff, Option.pure_def, Option.some_inj,
    readField?_eq_some_iff natBelow?_eq_some_iff, readField?_eq_some_iff readSet?_eq_some_iff]
  constructor
  · rintro ⟨n, hn, rules, hrules, categories, hcategories, rfl⟩
    exact ⟨hn, hrules, hcategories⟩
  · rintro ⟨hn, hrules, hcategories⟩
    exact ⟨_, hn, _, hrules, _, hcategories, rfl⟩

theorem read?_eq_some_iff {w : Json} {s : Settings} :
    read? w = some s ↔ HoldsFields w ∧ GivenBy w s := by
  rw [← readFields?_eq_some_iff]
  cases w with
  | obj fields => simp [HoldsFields, read?, given?, Field.key]
  | arr items => simp [HoldsFields, read?, given?, Field.place]
  | _ => simp [HoldsFields, read?]

/-- What is well-formed gives settings, and nothing else does. -/
theorem wellFormed_iff {w : Json} : WellFormed w ↔ HoldsFields w ∧ ∃ s, GivenBy w s := by
  constructor
  · rintro ⟨hholds, hn, hrules, hcategories⟩
    obtain ⟨n, hn⟩ := (fits_iff 120).1 hn
    obtain ⟨rules, hrules⟩ := (fits_iff []).1 hrules
    obtain ⟨categories, hcategories⟩ := (fits_iff []).1 hcategories
    exact ⟨hholds, ⟨n, rules, categories⟩, hn, hrules, hcategories⟩
  · rintro ⟨hholds, s, hn, hrules, hcategories⟩
    exact ⟨hholds, (fits_iff 120).2 ⟨_, hn⟩, (fits_iff []).2 ⟨_, hrules⟩,
      (fits_iff []).2 ⟨_, hcategories⟩⟩

theorem ofValue_eq (v : Json) : ofValue (some v) = (read? (holder v)).getD {} := by
  have hholder : holder v = (v.field? "regal").getD v := by
    unfold holder
    cases v.field? "regal" <;> rfl
  rw [ofValue, Option.bind_some, hholder]

/-- Settings are read all or nothing, and from nothing but the fields: a well-formed value stands for
what it gives and the defaults for the rest, any other for the defaults. -/
theorem settings_all_or_nothing (v : Json) :
    (WellFormed (holder v) → ∀ s, ofValue (some v) = s ↔ GivenBy (holder v) s) ∧
    (¬WellFormed (holder v) → ofValue (some v) = {}) ∧
    (∀ v' fields fields', holder v = .obj fields → holder v' = .obj fields' →
      (∀ f : Field, fields.lookup f.key = fields'.lookup f.key) →
        ofValue (some v) = ofValue (some v')) ∧
    (v.field? "regal" = none → ofValue (some (.obj [("regal", v)])) = ofValue (some v)) := by
  refine ⟨fun h s => ?_, fun h => ?_, fun v' fields fields' hv hv' hsame => ?_, fun h => ?_⟩
  · obtain ⟨hholds, t, ht⟩ := wellFormed_iff.1 h
    have hread : read? (holder v) = some t := read?_eq_some_iff.2 ⟨hholds, ht⟩
    rw [ofValue_eq, hread, Option.getD_some, ← Option.some_inj, ← hread, read?_eq_some_iff,
      and_iff_right hholds]
  · have hread : read? (holder v) = none := by
      refine Option.eq_none_iff_forall_ne_some.2 fun s hs => h (wellFormed_iff.2 ?_)
      obtain ⟨hholds, hs⟩ := read?_eq_some_iff.1 hs
      exact ⟨hholds, s, hs⟩
    rw [ofValue_eq, hread]
    rfl
  · have hfields : read? (.obj fields) = read? (.obj fields') := by
      have hn := hsame .maxLineLength
      have hrules := hsame .disabledRules
      have hcategories := hsame .disabledCategories
      simp only [Field.key] at hn hrules hcategories
      rw [read?, read?, hn, hrules, hcategories]
    rw [ofValue_eq, ofValue_eq, hv, hv', hfields]
  · have hplain : holder v = v := by
      rw [holder, h]
    have hnested : holder (.obj [("regal", v)]) = v := rfl
    rw [ofValue_eq, ofValue_eq, hplain, hnested]

/-- Rules given twice and in any order are one set, and a key that no field has does not matter; but
with a malformed number, the rules are not turned off either. -/
theorem malformed_number_discards_rules :
    let rules : Json := .arr [.str "todo-comment", .str "line-length", .str "todo-comment"]
    let v : Json := .obj [("regal", .obj [("colour", .bool true), ("maxLineLength", .int 80),
      ("disabledRules", rules)])]
    let w : Json := .obj [("maxLineLength", .int (-1)), ("disabledRules", rules)]
    ofValue (some v) =
        { maxLineLength := 80, disabledRules := ["line-length", "todo-comment"] } ∧
      ofValue (some w) = {} := by
  intro rules v w
  have hrules : IsSet rules ["line-length", "todo-comment"] :=
    readSet?_eq_some_iff.1 (by decide +kernel)
  have hn : IsCount (.int 80) 80 := ⟨rfl, by decide⟩
  have hv : WellFormed (holder v) := {
    holds := Or.inl ⟨_, rfl⟩
    maxLineLength := by
      rintro _ ⟨⟩
      exact ⟨80, hn⟩
    disabledRules := by
      rintro _ ⟨⟩
      exact ⟨_, hrules⟩
    disabledCategories := nofun }
  have hw : ¬WellFormed (holder w) := by
    intro h
    obtain ⟨n, hn, -⟩ := h.maxLineLength _ rfl
    cases hn
  exact ⟨((settings_all_or_nothing v).1 hv _).2 ⟨hn, hrules, rfl⟩,
    (settings_all_or_nothing w).2.1 hw⟩

end PolicyLint.Settings
