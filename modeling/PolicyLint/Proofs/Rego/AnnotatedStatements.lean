import PolicyLint.Proofs.Rego.CommentBlocks
import PolicyLint.Proofs.Rego.Grammar
/-!
# What annotations document

A rule, or the package, is annotated if and only if the line directly above the one on which its
statement starts is the last of a block of comments that is an annotation, and whose scope, if it names
one, fits (`DocumentedAbove`).
-/

namespace PolicyLint.Rego

/-! ## The law -/

/-- The line directly above is the last of a block of comments that says `METADATA` and names one of
some scopes, or none. -/
def DocumentedAbove (tokens : List Token) (scopes : List String) (line : UInt32) : Prop :=
  ∃ first rest, first :: rest ∈ commentBlocks tokens ∧ SaysMetadata first ∧
    (∃ scope?, IsScopeOf rest scope? ∧ ∀ scope ∈ scope?, scope ∈ scopes) ∧
    (rest.getLastD first).line + 1 = line

/-- The statement that starts with `t` declares a rule: `t` is its name, or the word `default` directly
before its name. -/
def Declares (t : Token) (after : List Token) (r : Rule) : Prop :=
  match r.isDefault with
  | false => r.name = t.text ∧ r.head = t.range
  | true => t.isWord "default" = true ∧
      ∃ name rest, after = name :: rest ∧ r.name = name.text ∧ r.head = name.range

/-! ## Annotations above a line -/

variable {text : String} {tokens : List Token} {m : Module}

theorem mem_of_mem_commentBlocks {block : List Token} (hblock : block ∈ commentBlocks tokens)
    {t : Token} (ht : t ∈ block) : t ∈ tokens ∧ t.kind = .comment := by
  have hown : t ∈ ownLine none tokens := by
    rw [← List.flatten_splitBy isBelow (ownLine none tokens)]
    exact List.mem_flatten_of_mem hblock ht
  exact mem_of_mem_ownLine hown

/-- An annotation for some scopes stands above a line if and only if the line is documented so. -/
theorem annotatedAbove_iff (h : tokenize text = .ok tokens) {applies : Annotation → Bool}
    {scopes : List String}
    (happlies : ∀ a, applies a = true ↔ ∀ scope ∈ a.scope?, scope ∈ scopes) (line : UInt32) :
    annotatedAbove (Rego.Annotation.ofTokens tokens) applies line = true ↔
      DocumentedAbove tokens scopes line := by
  have hlast {first : Token} {rest : List Token} (hblock : first :: rest ∈ commentBlocks tokens) :
      (rest.getLastD first).range.stop.line = (rest.getLastD first).line := by
    have hmem := List.mem_of_getLast? (getLast?_cons_eq first rest)
    obtain ⟨ht, hcomment⟩ := mem_of_mem_commentBlocks hblock hmem
    exact stop_line_of_comment h ht hcomment
  simp only [annotatedAbove, List.any_eq_true, Bool.and_eq_true, happlies, mem_annotations_iff h,
    Annotation.endsAbove, beq_iff_eq]
  constructor
  · rintro ⟨a, ⟨_, hblock, first, rest, rfl, hmetadata, hscope, hrange⟩, hline, hfits⟩
    refine ⟨first, rest, hblock, hmetadata, ⟨a.scope?, hscope, hfits⟩, ?_⟩
    rw [← hlast hblock, ← hline, hrange]
  · rintro ⟨first, rest, hblock, hmetadata, ⟨scope?, hscope, hfits⟩, hline⟩
    refine ⟨⟨scope?, first.range.start, (rest.getLastD first).range.stop⟩,
      ⟨_, hblock, first, rest, rfl, hmetadata, hscope, rfl⟩, ?_, hfits⟩
    dsimp only
    rw [hlast hblock, hline]

theorem appliesToRule_iff (a : Annotation) :
    a.appliesToRule = true ↔ ∀ scope ∈ a.scope?, scope ∈ ["rule", "document"] := by
  cases hs : a.scope? <;> simp [Rego.Annotation.appliesToRule, hs]

theorem appliesToPackage_iff (a : Annotation) :
    a.appliesToPackage = true ↔ ∀ scope ∈ a.scope?, scope ∈ ["package", "subpackages"] := by
  cases hs : a.scope? <;> simp [Rego.Annotation.appliesToPackage, hs]

/-! ## Statements -/

/-- A rule is declared by the statement it is read at. -/
theorem declares_of_rule? {s : Spot} {annotations : List Annotation} {r : Rule}
    (h : s.rule? annotations = some r) : s.role = .later ∧ Declares s.token s.after r ∧
      r.annotated = annotatedAbove annotations (·.appliesToRule) s.token.line := by
  unfold Spot.rule? at h
  dsimp only at h
  split at h
  · next hannounces =>
    obtain ⟨name, hname, rfl⟩ := Option.map_eq_some_iff.1 h
    obtain ⟨rest, hafter⟩ := List.head?_eq_some_iff.1 hname
    simp only [Spot.announces, Bool.and_eq_true, beq_iff_eq] at hannounces
    exact ⟨hannounces.1.1, ⟨hannounces.1.2, name, rest, hafter, rfl, rfl⟩, rfl⟩
  · split at h
    · next hname =>
      cases h
      simp only [Spot.isRuleName, Bool.and_eq_true, beq_iff_eq] at hname
      exact ⟨hname.1.1, ⟨rfl, rfl⟩, rfl⟩
    · cases h

/-- The package is declared at the first significant token. -/
theorem exists_first_statement (herrors : errorsOf (Spot.ofTokens {} tokens) = []) :
    ∃ s spots, Spot.ofTokens {} tokens = s :: spots ∧ s.role = .first ∧
      s.token.isWord "package" = true ∧
      (Module.ofTokens tokens).package.keyword = s.token.range ∧
      (Module.ofTokens tokens).package.annotated =
        annotatedAbove (Rego.Annotation.ofTokens tokens) (·.appliesToPackage) s.token.line := by
  obtain ⟨hne, hfaults, -⟩ := errorsOf_eq_nil_iff.1 herrors
  obtain ⟨s, spots, hspots⟩ := List.exists_cons_of_ne_nil hne
  have hfirst := role_head_spots rfl rfl rfl rfl hspots
  have hs : s ∈ Spot.ofTokens {} tokens := by
    rw [hspots]
    exact List.mem_cons_self ..
  obtain ⟨hpackage, hname⟩ := (statementFault?_first hfirst).1 (hfaults s hs)
  obtain ⟨r, hr⟩ := Option.isSome_iff_exists.1 (nameNext_iff_isSome_read?.1 hname)
  refine ⟨s, spots, hspots, hfirst, hpackage, ?_, ?_⟩ <;>
    simp [Module.ofTokens, hspots, Spot.package?, hfirst, hr]

/-- The package is declared by the first statement. -/
theorem exists_package_statement (herrors : errorsOf (Spot.ofTokens {} tokens) = []) :
    ∃ s ∈ Spot.ofTokens {} tokens, s.role = .first ∧ s.token.isWord "package" = true ∧
      (Module.ofTokens tokens).package.keyword = s.token.range ∧
      (Module.ofTokens tokens).package.annotated =
        annotatedAbove (Rego.Annotation.ofTokens tokens) (·.appliesToPackage) s.token.line := by
  obtain ⟨s, spots, hspots, hstatement⟩ := exists_first_statement herrors
  refine ⟨s, ?_, hstatement⟩
  rw [hspots]
  exact List.mem_cons_self ..

/-- In a text that parses, the rules and the package are annotated if and only if a fitting annotation
stands directly above their statements, and the annotations are the blocks of comments that say
`METADATA`. -/
theorem annotations_document_what_is_below (h : parse text = .ok m) :
    ∃ tokens, tokenize text = .ok tokens ∧
      (∀ r ∈ m.rules, ∃ before t after, tokens = before ++ t :: after ∧ StartsStatement before t ∧
        Declares t after r ∧
        (r.annotated = true ↔ DocumentedAbove tokens ["rule", "document"] t.line)) ∧
      (∃ before t after, tokens = before ++ t :: after ∧ StartsStatement before t ∧
        t.isWord "package" = true ∧ m.package.keyword = t.range ∧
        (m.package.annotated = true ↔
          DocumentedAbove tokens ["package", "subpackages"] t.line)) ∧
      List.Forall₂ IsMadeBy m.annotations ((commentBlocks tokens).filter isMetadata) := by
  obtain ⟨tokens, htokens, herrors, rfl⟩ := tokens_of_parse h
  have hn := nested_iff.2 (errorsOf_eq_nil_iff.1 herrors).2.2
  refine ⟨tokens, htokens, fun r hr => ?_, ?_, annotations_are_blocks htokens⟩
  · obtain ⟨s, hs, hrule⟩ := List.mem_filterMap.1 hr
    obtain ⟨hrole, hdeclares, hannotated⟩ := declares_of_rule? hrule
    obtain ⟨before, t, after, hsplit, ht, rfl⟩ := mem_spots_iff.1 hs
    refine ⟨before, t, after, hsplit, ((role_read_later_iff hn hsplit ht).1 hrole).1, hdeclares, ?_⟩
    rw [hannotated]
    exact annotatedAbove_iff htokens appliesToRule_iff t.line
  · obtain ⟨s, hs, hrole, hpackage, hkeyword, hannotated⟩ := exists_package_statement herrors
    obtain ⟨before, t, after, hsplit, ht, rfl⟩ := mem_spots_iff.1 hs
    refine ⟨before, t, after, hsplit, ((role_read_first_iff hn hsplit ht).1 hrole).1, hpackage,
      hkeyword, ?_⟩
    rw [hannotated]
    exact annotatedAbove_iff htokens appliesToPackage_iff t.line

/-- A block of comments for the package, above a rule. -/
theorem package_scope_documents_no_rule :
    let text := "# METADATA\npackage a\n\n# METADATA\n# scope: package\nallow := true\n"
    ∃ m tokens, parse text = .ok m ∧ tokenize text = .ok tokens ∧
      m.package.annotated = true ∧ DocumentedAbove tokens ["package", "subpackages"] 1 ∧
      m.rules = [⟨"allow", ⟨⟨5, 0⟩, ⟨5, 5⟩⟩, false, false⟩] ∧
      ¬ DocumentedAbove tokens ["rule", "document"] 5 ∧
      m.annotations = [⟨none, ⟨0, 0⟩, ⟨0, 10⟩⟩, ⟨some "package", ⟨3, 0⟩, ⟨4, 16⟩⟩] := by
  intro text
  let m : Module :=
    { package := ⟨["a"], ⟨⟨1, 0⟩, ⟨1, 7⟩⟩, true⟩
      rules := [⟨"allow", ⟨⟨5, 0⟩, ⟨5, 5⟩⟩, false, false⟩]
      annotations := [⟨none, ⟨0, 0⟩, ⟨0, 10⟩⟩, ⟨some "package", ⟨3, 0⟩, ⟨4, 16⟩⟩]
      comments := [⟨" METADATA", ⟨0, 0⟩, ⟨0, 10⟩⟩, ⟨" METADATA", ⟨3, 0⟩, ⟨3, 10⟩⟩,
        ⟨" scope: package", ⟨4, 0⟩, ⟨4, 16⟩⟩] }
  have hparse : parse text = .ok m := toOption_eq_some_iff.1 (by decide +kernel)
  obtain ⟨tokens, htokens, hrules, ⟨_, t, _, -, -, -, hkeyword, hpackage⟩, -⟩ :=
    annotations_document_what_is_below hparse
  obtain ⟨_, u, _, -, -, ⟨-, hhead⟩, hrule⟩ := hrules _ (List.mem_singleton.2 rfl)
  have ht : t.line = 1 := congrArg (·.start.line) hkeyword.symm
  have hu : u.line = 5 := congrArg (·.start.line) hhead.symm
  rw [ht] at hpackage
  rw [hu] at hrule
  refine ⟨m, tokens, hparse, htokens, rfl, hpackage.1 rfl, rfl, fun h => ?_, rfl⟩
  cases hrule.2 h

end PolicyLint.Rego
