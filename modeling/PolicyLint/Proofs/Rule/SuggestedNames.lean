import PolicyLint.CrossFile.Facts
import PolicyLint.Proofs.Rego.Names
import PolicyLint.Proofs.Text.SnakeWords
import PolicyLint.Proofs.Uri.Spelling
import PolicyLint.Rule.SnakeCaseName
/-!
# Suggested names

The rule on rule names suggests the snake case of a name. The suggestion is accepted itself, and for a
public rule it is an identifier that names a public rule again. The leading underscores of a private
rule are lost with the others, though: a private rule that takes its suggested name is public, and has
to be documented from then on (`suggestion_keeps_all_but_privacy`).
-/

namespace PolicyLint

/-- A module in which all definitions of a rule take another name. -/
def Rego.Module.rename (m : Module) (old new : String) : Module :=
  { m with rules := m.rules.map fun r => if r.name = old then { r with name := new } else r }

/-- No rule of a name has to be documented. -/
def MissingMetadata.IsExempt (m : Rego.Module) (name : String) : Prop :=
  ∀ f ∈ (MetadataFacts.ofModule m).rules, f.name ≠ name

namespace SnakeCaseName

variable {m : Rego.Module} {r : Rego.Rule} {name : String}

/-! ## The text of a suggestion -/

theorem toList_suggestion (name : String) :
    (suggestion name).toList = SnakeCase.ofIdent name.toList :=
  String.toList_ofList

theorem flags_suggestion (name : String) : flags (suggestion name) = false := by
  have hsnake := SnakeCase.isSnakeCase_ofIdent name.toList
  have haccepts : SnakeCase.accepts (suggestion name).toList = true := by
    rw [toList_suggestion, SnakeCase.accepts_iff, hsnake.dropWhile_eq]
    exact hsnake
  rw [flags, haccepts]
  rfl

/-- Only a name that is all underscores has nothing to suggest, and no such name is flagged. -/
theorem suggestion_ne_empty (h : flags name = true) : suggestion name ≠ "" := by
  intro hempty
  have hletters : SnakeCase.letters name.toList = [] := by
    have hmap := SnakeCase.letters_ofIdent name.toList
    rw [← toList_suggestion, hempty] at hmap
    exact List.map_eq_nil_iff.1 hmap.symm
  have hbare : name.toList.dropWhile (· = '_') = [] :=
    List.dropWhile_eq_nil_iff.2 fun c hc => by
      simpa using List.filter_eq_nil_iff.1 hletters c hc
  rw [flags, SnakeCase.accepts, hbare] at h
  cases h

theorem isIdentRest_toLower {c : Char} (h : Rego.Lexeme.isIdentRest c = true) :
    Rego.Lexeme.isIdentRest c.toLower = true := by
  cases hupper : c.isUpper with
  | false => rwa [SnakeCase.toLower_of_not_isUpper hupper]
  | true => simp [Rego.Lexeme.isIdentRest, Char.isAlphanum, Char.isAlpha, hupper]

theorem isIdentifier_suggestion (h : Rego.IsIdentifier name.toList)
    (hpublic : name.toList.head? ≠ some '_') : Rego.IsIdentifier (suggestion name).toList := by
  obtain ⟨c, rest, hname, hstart, hrest⟩ := h
  have hc : c ≠ '_' := by simpa [hname] using hpublic
  have hsame := SnakeCase.letters_ofIdent name.toList
  have hhead := (SnakeCase.isSnakeCase_ofIdent name.toList).head?_ne
  have hletters : SnakeCase.letters name.toList = c :: SnakeCase.letters rest := by
    rw [hname]
    exact List.filter_cons_of_pos (by simpa using hc)
  rw [hletters, List.map_cons] at hsame
  rw [toList_suggestion]
  cases hcs : SnakeCase.ofIdent name.toList with
  | nil =>
    rw [hcs] at hsame
    cases hsame
  | cons d ds =>
    have hd : d ≠ '_' := by simpa [hcs] using hhead
    rw [hcs, SnakeCase.letters, List.filter_cons_of_pos (by simpa using hd)] at hsame
    obtain ⟨rfl, htail⟩ := List.cons.inj hsame
    refine ⟨_, ds, rfl, ?_, fun e he => ?_⟩
    · have halpha : c.isAlpha = true := by simpa [Rego.Lexeme.isIdentStart, hc] using hstart
      simp [Rego.Lexeme.isIdentStart, halpha]
    · by_cases hunderscore : e = '_'
      · rw [hunderscore]
        rfl
      · have hmem : e ∈ (SnakeCase.letters rest).map Char.toLower := by
          rw [← htail]
          exact List.mem_filter.2 ⟨he, by simpa using hunderscore⟩
        obtain ⟨b, hb, rfl⟩ := List.mem_map.1 hmem
        exact isIdentRest_toLower (hrest b (List.mem_filter.1 hb).1)

/-! ## Rules that take their suggested names -/

/-- The private rules are those that are exempt. -/
theorem isExempt_iff (hr : r ∈ m.rules) :
    MissingMetadata.IsExempt m r.name ↔ r.isPrivate = true := by
  constructor
  · intro h
    by_contra hpublic
    exact h ⟨r.name, r.annotated, r.head⟩
      (List.mem_map.2 ⟨r, List.mem_filter.2 ⟨hr, by simpa using hpublic⟩, rfl⟩) rfl
  · intro hprivate f hf hname
    obtain ⟨q, hq, rfl⟩ := List.mem_map.1 hf
    have hpublic := (List.mem_filter.1 hq).2
    have hsame : q.isPrivate = r.isPrivate :=
      congrArg (fun name : String => name.toList.head? == some '_') hname
    rw [hsame, hprivate] at hpublic
    cases hpublic

theorem mem_rules_rename (hr : r ∈ m.rules) (new : String) :
    { r with name := new } ∈ (m.rename r.name new).rules :=
  List.mem_map.2 ⟨r, hr, if_pos rfl⟩

/-- What is suggested names a public rule. -/
theorem isPrivate_suggestion (r : Rego.Rule) (name : String) :
    ({ r with name := suggestion name } : Rego.Rule).isPrivate = false := by
  have hhead := (SnakeCase.isSnakeCase_ofIdent name.toList).head?_ne
  simpa [Rego.Rule.isPrivate, toList_suggestion] using hhead

/-- The finding on a flagged rule of a text that parses suggests a name that is accepted, with the
letters and digits of the flagged one; for a public rule it is an identifier. But whether the rule is
private, and so exempt from documentation, stays the same for public rules only. -/
theorem suggestion_keeps_all_but_privacy {text : String} (hparse : Rego.parse text = .ok m)
    (hr : r ∈ m.rules) (hflagged : flags r.name = true) :
    ∃ name, .ofCode .preferSnakeCase r.head
        ("Rule `" ++ r.name ++ "` should be snake_case, e.g. `" ++ name ++ "`") ∈ check m ∧
      name ≠ "" ∧ flags name = false ∧
      SnakeCase.letters name.toList = (SnakeCase.letters r.name.toList).map Char.toLower ∧
      (r.isPrivate = false → Rego.IsIdentifier name.toList) ∧
      (({ r with name } : Rego.Rule).isPrivate = r.isPrivate ↔ r.isPrivate = false) ∧
      ((MissingMetadata.IsExempt (m.rename r.name name) name ↔
        MissingMetadata.IsExempt m r.name) ↔ r.isPrivate = false) := by
  have hpublic := isPrivate_suggestion r r.name
  have hexempt := isExempt_iff (mem_rules_rename hr (suggestion r.name))
  refine ⟨suggestion r.name, ?_, suggestion_ne_empty hflagged, flags_suggestion r.name, ?_,
    fun h => ?_, ?_, ?_⟩
  · exact List.mem_map.2 ⟨r, List.mem_filter.2 ⟨hr, hflagged⟩, rfl⟩
  · rw [toList_suggestion]
    exact SnakeCase.letters_ofIdent r.name.toList
  · exact isIdentifier_suggestion (Rego.isIdentifier_of_mem_rules hparse hr)
      (by simpa [Rego.Rule.isPrivate] using h)
  · rw [hpublic]
    exact eq_comm
  · rw [hexempt, hpublic, isExempt_iff hr]
    simp

/-- A private rule in mixed case is told to become a public one. -/
theorem suggestion_publishes_private_helper :
    let r : Rego.Rule := ⟨"_privateHelper", ⟨⟨2, 0⟩, ⟨2, 14⟩⟩, false, false⟩
    ∃ m, Rego.parse "package a\n\n_privateHelper := 1" = .ok m ∧ r ∈ m.rules ∧
      flags r.name = true ∧ r.isPrivate = true ∧
      ∃ name, .ofCode .preferSnakeCase r.head
          ("Rule `" ++ r.name ++ "` should be snake_case, e.g. `" ++ name ++ "`") ∈ check m ∧
        SnakeCase.letters name.toList = "privatehelper".toList ∧
        ({ r with name } : Rego.Rule).isPrivate = false ∧
        ¬MissingMetadata.IsExempt (m.rename r.name name) name := by
  intro r
  have hrules : (Rego.parse "package a\n\n_privateHelper := 1").toOption.map (·.rules) = some [r] := by
    decide +kernel
  obtain ⟨m, hparse, hm⟩ := Option.map_eq_some_iff.1 hrules
  replace hparse := toOption_eq_some_iff.1 hparse
  have hr : r ∈ m.rules := hm ▸ List.mem_singleton_self r
  have hflagged : flags r.name = true := by decide +kernel
  have hprivate : r.isPrivate = true := by decide +kernel
  obtain ⟨name, hfinding, -, -, hletters, -, hkept, hexempt⟩ :=
    suggestion_keeps_all_but_privacy hparse hr hflagged
  rw [hprivate] at hkept hexempt
  refine ⟨m, hparse, hr, hflagged, hprivate, name, hfinding, hletters.trans (by decide +kernel),
    ?_, fun h => ?_⟩
  · cases hnamed : ({ r with name } : Rego.Rule).isPrivate with
    | false => rfl
    | true => cases hkept.1 hnamed
  · cases hexempt.1 (iff_of_true h ((isExempt_iff hr).2 hprivate))

end SnakeCaseName

end PolicyLint
