import PolicyLint.FileSystem.Edit
import PolicyLint.Proofs.FileSystem.RealPath
/-!
# Disks that grow

While policy files appear or change their texts, and all else on a disk stays as it is, no path
loses what it leads to (`Gains.resolve`). A path that led nowhere may lead somewhere now, but then it
leads to a policy file that was not there before (`Gains.resolve_or_new`): nothing lies below what
is new, and no link is new.

A path that ends in a name leads to an entry of that name, unless there is a link of that name to
follow (`resolve_ofNames_cases`).
-/

namespace PolicyLint

/-- Whether the name at a location is that of a policy file. -/
def Location.isPolicy (l : Location) : Bool :=
  l.getLast?.any fun name => (Path.mk name).isPolicy

namespace Disk

/-- `later` is `d` after policy files appeared or changed their texts, and nothing else did. -/
def Gains (d later : Disk) : Prop :=
  ∀ l, later.entry? l = d.entry? l ∨ Location.isPolicy l = true ∧
    (d.entry? l = none ∨ ∃ old, d.entry? l = some (.file old)) ∧
    ∃ new, later.entry? l = some (.file new)

variable {d later : Disk} {p q : Path} {l : Location}

namespace Gains

theorem trans {last : Disk} (h : d.Gains later) (h' : later.Gains last) : d.Gains last := by
  intro l
  rcases h l with hsame | ⟨hpolicy, hold, new, hnew⟩
  · rw [← hsame]
    exact h' l
  · refine Or.inr ⟨hpolicy, hold, ?_⟩
    rcases h' l with hsame | ⟨-, -, hlast⟩
    · exact ⟨new, hsame.trans hnew⟩
    · exact hlast

/-! ## Entries -/

theorem entry (h : d.Gains later) {e : Entry} (hl : d.entry? l = some e)
    (he : ∀ bytes, e ≠ .file bytes) : later.entry? l = some e := by
  rcases h l with hsame | ⟨-, hnone | ⟨old, hold⟩, -⟩
  · rw [hsame, hl]
  · rw [hl] at hnone
    cases hnone
  · rw [hl] at hold
    exact absurd (Option.some.inj hold) (he old)

theorem folder (h : d.Gains later) (hl : d.entry? l = some .folder) :
    later.entry? l = some .folder :=
  h.entry hl (by rintro bytes ⟨⟩)

theorem link (h : d.Gains later) {target : Path} (hl : d.entry? l = some (.link target)) :
    later.entry? l = some (.link target) :=
  h.entry hl (by rintro bytes ⟨⟩)

theorem file (h : d.Gains later) {bytes : ByteArray} (hl : d.entry? l = some (.file bytes)) :
    ∃ new, later.entry? l = some (.file new) := by
  rcases h l with hsame | ⟨-, -, hnew⟩
  · exact ⟨bytes, hsame.trans hl⟩
  · exact hnew

theorem new (h : d.Gains later) (hl : d.entry? l = none) :
    later.entry? l = none ∨ ∃ bytes, later.entry? l = some (.file bytes) := by
  rcases h l with hsame | ⟨-, -, hnew⟩
  · exact Or.inl (hsame.trans hl)
  · exact Or.inr hnew

theorem isSome (h : d.Gains later) (hl : (d.entry? l).isSome = true) :
    (later.entry? l).isSome = true := by
  rcases h l with hsame | ⟨-, -, new, hnew⟩
  · rw [hsame]
    exact hl
  · rw [hnew]
    rfl

theorem isFolder (h : d.Gains later) (l : Location) : later.isFolder l = d.isFolder l := by
  unfold Disk.isFolder
  rcases h l with hsame | ⟨-, hnone | ⟨old, hold⟩, new, hnew⟩
  · rw [hsame]
  · rw [hnone, hnew]
  · rw [hold, hnew]

end Gains

/-- Writing a policy file, new or not, makes a disk grow. -/
theorem gains_put {l : Location} (hpolicy : Location.isPolicy l = true)
    (hold : d.entry? l = none ∨ ∃ old, d.entry? l = some (.file old)) (bytes : ByteArray) :
    d.Gains (d.put l (.file bytes)) := by
  have hne : l ≠ [] := by
    rintro rfl
    cases hpolicy
  intro m
  rw [entry?_put d hne]
  by_cases hm : m = l
  · rw [if_pos hm, hm]
    exact Or.inr ⟨hpolicy, hold, bytes, rfl⟩
  · rw [if_neg hm]
    exact Or.inl rfl

namespace Gains

/-! ## Where paths lead -/

/-- A location where there was nothing and there is a file now. -/
def New (d later : Disk) (l : Location) : Prop :=
  d.entry? l = none ∧ ∃ bytes, later.entry? l = some (.file bytes)

theorem leads (h : d.Gains later) {links : Nat} {here : Location} {steps : List Step}
    (hl : Leads d links here steps l) : Leads later links here steps l := by
  induction hl with
  | done => exact .done
  | stay hfolder _ ih => exact .stay ((h.isFolder _).trans hfolder) ih
  | up hfolder _ ih => exact .up ((h.isFolder _).trans hfolder) ih
  | @name links here l rest s e hfolder hentry hlink _ ih =>
    cases e with
    | link target => cases hlink
    | folder => exact .name ((h.isFolder _).trans hfolder) (h.folder hentry) rfl ih
    | file bytes =>
      obtain ⟨new, hnew⟩ := h.file hentry
      exact .name ((h.isFolder _).trans hfolder) hnew rfl ih
  | link hfolder hentry _ ih => exact .link ((h.isFolder _).trans hfolder) (h.link hentry) ih

theorem leads_or_new (h : d.Gains later) {links : Nat} {here : Location} {steps : List Step}
    (hl : Leads later links here steps l) : Leads d links here steps l ∨ New d later l := by
  induction hl with
  | done => exact Or.inl .done
  | stay hfolder _ ih => exact ih.imp_left (.stay ((h.isFolder _).symm.trans hfolder))
  | up hfolder _ ih => exact ih.imp_left (.up ((h.isFolder _).symm.trans hfolder))
  | @name links here l rest s e hfolder hentry hlink hrest ih =>
    rw [h.isFolder] at hfolder
    cases hold : d.entry? (here ++ [s]) with
    | none =>
      rcases h.new hold with hnone | ⟨bytes, hnew⟩
      · rw [hnone] at hentry
        cases hentry
      · -- nothing lies below a new file, so the path ends there
        obtain ⟨-, rfl⟩ := hrest.eq_of_not_isFolder (isFolder_of_file hnew)
        exact Or.inr ⟨hold, bytes, hnew⟩
    | some old =>
      cases old with
      | link target =>
        rw [h.link hold] at hentry
        cases hentry
        cases hlink
      | folder => exact ih.imp_left (.name hfolder hold rfl)
      | file bytes => exact ih.imp_left (.name hfolder hold rfl)
  | @link links here l rest s target hfolder hentry _ ih =>
    rw [h.isFolder] at hfolder
    have hold : d.entry? (here ++ [s]) = some (.link target) := by
      rcases h (here ++ [s]) with hsame | ⟨-, -, new, hnew⟩
      · rw [← hsame, hentry]
      · rw [hentry] at hnew
        cases hnew
    exact ih.imp_left (.link hfolder hold)

/-- No path loses what it leads to. -/
theorem resolve (h : d.Gains later) (hr : d.resolve p = .ok l) : later.resolve p = .ok l :=
  resolve_eq_ok_iff.2 ((resolve_eq_ok_iff.1 hr).imp_right h.leads)

/-- A path that leads to what it did not lead to before leads to a new file. -/
theorem resolve_or_new (h : d.Gains later) (hr : later.resolve p = .ok l) :
    d.resolve p = .ok l ∨ New d later l := by
  obtain ⟨habs, hl⟩ := resolve_eq_ok_iff.1 hr
  exact (h.leads_or_new hl).imp_left fun hl => resolve_eq_ok_iff.2 ⟨habs, hl⟩

theorem realPath? (h : d.Gains later) (hp : d.realPath? p = some q) :
    later.realPath? p = some q := by
  obtain ⟨l, hl, rfl⟩ := realPath?_eq_some_iff.1 hp
  exact realPath?_eq_some_iff.2 ⟨l, h.resolve hl, rfl⟩

/-- A path leads where it led before if what it leads to is what was there before. -/
theorem resolve_iff (h : d.Gains later)
    (hsame : ∀ l, later.resolve p = .ok l → later.entry? l = d.entry? l) :
    later.resolve p = .ok l ↔ d.resolve p = .ok l := by
  refine ⟨fun hr => ?_, h.resolve⟩
  rcases h.resolve_or_new hr with hold | ⟨hnone, bytes, hnew⟩
  · exact hold
  · rw [hsame l hr, hnone] at hnew
    cases hnew

end Gains

/-! ## Paths that end in a name -/

/-- A path of names leads to an entry of the last name, unless there is a link of that name. -/
theorem resolve_ofNames_cases {names : List String} {name : String} (hname : IsEntryName name)
    (hr : d.resolve (Path.ofNames (names ++ [name])) = .ok l) :
    l.getLast? = some name ∨ ∃ folder target, d.entry? (folder ++ [name]) = some (.link target) := by
  have hlast := Path.fileName?_ofNames names hname
  by_cases hlink : d.isLink (Path.ofNames (names ++ [name])) = true
  · obtain ⟨last, folder, target, hlast', -, htarget⟩ := isLink_eq_true_iff.1 hlink
    rw [hlast] at hlast'
    cases hlast'
    exact Or.inr ⟨folder, target, htarget⟩
  · obtain ⟨folder, -, -, hl⟩ := resolve_fileName? hlast hr
    rw [hl (eq_false_of_ne_true hlink)]
    exact Or.inl List.getLast?_concat

end Disk

end PolicyLint
