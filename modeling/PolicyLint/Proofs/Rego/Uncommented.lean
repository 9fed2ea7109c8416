import PolicyLint.Proofs.Rego.Nearby
import PolicyLint.Proofs.Rego.Relexing
import PolicyLint.Proofs.Uri.Spelling
/-!
# Texts without their comments

Comments never change the structure of a text: without them it declares the same, but for its comments,
its annotations, and what these say, and where it does not parse the same is wrong with it
(`parse_uncomment`). What looks like a comment in a string is none.

The tokens that are left are where they were, only a line feed behind a comment starts earlier than it
did (`uncommented_tokens`). Neither comments nor line feeds are near any token.
-/

namespace PolicyLint.Rego

/-! ## The law -/

/-- A text without its comments: each is left out from its `#` up to the end of its line. -/
def uncomment (text : String) : String :=
  .ofList ((Lexeme.dropComments (Lexeme.ofChars text.toList)).flatMap Lexeme.chars)

/-- A package without what annotations say of it. -/
def Package.unannotated (p : Package) : Package :=
  { p with annotated := false }

def Rule.unannotated (r : Rule) : Rule :=
  { r with annotated := false }

/-- A module without its comments and what they say. -/
def Module.uncommented (m : Module) : Module :=
  { m with
    package := m.package.unannotated
    rules := m.rules.map Rule.unannotated
    annotations := []
    comments := [] }

/-! ## Tokens -/

namespace Lexeme

variable {here : Cursor} {xs : List Lexeme}

/-- What stands before a line feed on its line does not change where the next line starts. -/
theorem after_line_newline {line : List Char} (h : '\n' ∉ line) (here : Cursor) :
    (here.after line).after ['\n'] = here.after ['\n'] := by
  simp [Cursor.step, Cursor.line_after_of_notMem here h]

/-- The tokens of a text without its comments are the others, where they were. -/
theorem uncommented_tokens (here : Cursor) (cs : List Char) :
    Uncommented (tokensFrom here (ofChars cs)) (tokensFrom here (dropComments (ofChars cs))) := by
  induction cs using ofChars.induct generalizing here with
  | case1 =>
    rw [ofChars]
    exact .nil
  | case2 c cs ih =>
    cases hx : (read c cs).1.isComment with
    | false =>
      rw [dropComments_of_other hx, ofChars, tokensFrom_cons, tokensFrom_cons]
      cases Token.ofLexeme? ((read c cs).1,
          ⟨here.position, (here.after (read c cs).1.chars).position⟩) with
      | none => exact ih _
      | some t => exact .keep t (ih _)
    | true =>
      rw [dropComments_of_comment hx, ofChars, tokensFrom_cons]
      have htail := ih (here.after (read c cs).1.chars)
      obtain ⟨hline, hrest⟩ := comment_ends_line hx
      obtain ⟨t, ht, hkind⟩ : ∃ t : Token, Token.ofLexeme? ((read c cs).1,
          ⟨here.position, (here.after (read c cs).1.chars).position⟩) = some t ∧
          t.kind = .comment := by
        cases hread : (read c cs).1 <;> rw [hread] at hx <;> cases hx
        exact ⟨_, rfl, rfl⟩
      rw [ht]
      rcases hrest with hrest | ⟨ds, hrest⟩
      · rw [hrest, ofChars]
        exact .last hkind
      · -- the line feed is left, and what comes after it is where it was
        have hnewline : dropComments (newline :: ofChars ds) =
            newline :: dropComments (ofChars ds) := rfl
        rw [hrest, ofChars_newline, hnewline, tokensFrom_newline, tokensFrom_newline,
          after_line_newline hline] at htail
        rw [hrest, ofChars_newline, hnewline, tokensFrom_newline, tokensFrom_newline,
          after_line_newline hline]
        exact .line hkind rfl rfl (htail.tail (by simp))

theorem kind_of_mem_dropComments {t : Token} (h : t ∈ tokensFrom here (dropComments xs)) :
    t.kind ≠ .comment := by
  obtain ⟨y, hy, ht⟩ := List.mem_filterMap.1 h
  obtain ⟨⟨kind, text⟩, hkind, rfl⟩ := Option.map_eq_some_iff.1 ht
  have hx := (List.mem_filter.1 (mem_of_mem_place hy)).2
  intro hcomment
  cases hcomment
  rw [isComment_of_token? hkind] at hx
  cases hx

end Lexeme

/-! ## Modules -/

variable {tokens : List Token}

theorem aloneComments_eq_nil (h : ∀ t ∈ tokens, t.kind ≠ .comment) (lineStart : Bool) :
    aloneComments lineStart tokens = [] := by
  induction tokens generalizing lineStart with
  | nil => rfl
  | cons t ts ih =>
    obtain ⟨ht, hts⟩ := List.forall_mem_cons.1 h
    rw [aloneComments, if_neg ht, ih hts, ih hts, ite_self]

theorem comments_eq_nil (h : ∀ t ∈ tokens, t.kind ≠ .comment) :
    tokens.filterMap Comment.ofToken? = [] :=
  List.filterMap_eq_nil_iff.2 fun t ht => if_neg (h t ht)

theorem Spot.unannotated_package? (s : Spot) (annotations : List Annotation) :
    (s.package? annotations).map Package.unannotated = s.package? [] := by
  unfold Spot.package?
  split
  · rw [Option.map_map]
    rfl
  · rfl

theorem Spot.unannotated_rule? (s : Spot) (annotations : List Annotation) :
    (s.rule? annotations).map Rule.unannotated = s.rule? [] := by
  unfold Spot.rule?
  dsimp only
  split
  · rw [Option.map_map]
    rfl
  · split <;> rfl

/-- Without annotations, spots make the same of a module, but for what annotations say. -/
theorem Module.uncommented_ofSpots (spots : List Spot) (annotations : List Annotation)
    (comments : List Comment) :
    (Module.ofSpots spots annotations comments).uncommented = Module.ofSpots spots [] [] := by
  have hpackage : spots.findSome? (·.package? []) =
      (spots.findSome? (·.package? annotations)).map Package.unannotated := by
    simp only [List.map_findSome?, Function.comp_def, Spot.unannotated_package?]
  have hrules : spots.filterMap (·.rule? []) =
      (spots.filterMap (·.rule? annotations)).map Rule.unannotated := by
    simp only [List.map_filterMap, Spot.unannotated_rule?]
  have hdefault (o : Option Package) : (o.getD {}).unannotated =
      (o.map Package.unannotated).getD {} := by
    cases o <;> rfl
  simp only [Module.ofSpots, Module.uncommented, hpackage, hrules, hdefault]

/-- Tokens without comments at the ends of lines declare the same, but for what the comments say. -/
theorem parseTokens_uncommented {us : List Token} (h : Uncommented tokens us)
    (hus : ∀ t ∈ us, t.kind ≠ .comment) :
    parseTokens us = (parseTokens tokens).map Module.uncommented := by
  have hnearby := h.map_nearby_eq (c := {}) rfl
  have herrors : errorsOf (Spot.ofTokens {} us) = errorsOf (Spot.ofTokens {} tokens) := by
    rw [← errorsOf_map_nearby, ← hnearby, errorsOf_map_nearby]
  have hannotations : Annotation.ofTokens us = [] := by
    unfold Annotation.ofTokens
    rw [aloneComments_eq_nil hus]
    rfl
  have hmodule : Module.ofTokens us = (Module.ofTokens tokens).uncommented := by
    rw [Module.ofTokens_eq, Module.ofTokens_eq, Module.uncommented_ofSpots, hannotations,
      comments_eq_nil hus, ← Module.ofSpots_map_nearby, ← hnearby, Module.ofSpots_map_nearby]
  rw [parseTokens, parseTokens, herrors, hmodule]
  cases errorsOf (Spot.ofTokens {} tokens) <;> rfl

/-- Without its comments a text declares the same, but for what they say, and the same is wrong
with it. -/
theorem parse_uncomment {text : String} {tokens : List Token} (h : tokenize text = .ok tokens) :
    parse (uncomment text) = (parse text).map Module.uncommented := by
  obtain ⟨hfaultless, htokens⟩ := tokenize_eq_ok_iff.1 h
  have hlexemes : Lexeme.ofChars (uncomment text).toList =
      Lexeme.dropComments (Lexeme.ofChars text.toList) := by
    rw [uncomment, String.toList_ofList, Lexeme.ofChars_dropComments hfaultless]
  have huncomment : tokenize (uncomment text) =
      .ok (Lexeme.tokensFrom {} (Lexeme.dropComments (Lexeme.ofChars text.toList))) := by
    rw [tokenize_eq_ok_iff, hlexemes]
    exact ⟨fun x hx => hfaultless x (List.mem_filter.1 hx).1, rfl⟩
  have huncommented := Lexeme.uncommented_tokens {} text.toList
  rw [htokens] at huncommented
  rw [parse, parse, h, huncomment]
  exact parseTokens_uncommented huncommented fun t ht => Lexeme.kind_of_mem_dropComments ht

/-- A comment with a quote in it, a string with a comment's sign in it, and a rule with an annotation. -/
theorem parse_uncomment_annotated_rule :
    let text := "package a # \"\n# METADATA\nx := f(\"#\") # \n"
    let m : Module := {
      package := ⟨["a"], ⟨⟨0, 0⟩, ⟨0, 7⟩⟩, false⟩
      rules := [⟨"x", ⟨⟨2, 0⟩, ⟨2, 1⟩⟩, false, true⟩]
      annotations := [⟨none, ⟨⟨1, 0⟩, ⟨1, 10⟩⟩⟩]
      comments := [⟨" \"", ⟨⟨0, 10⟩, ⟨0, 13⟩⟩⟩, ⟨" METADATA", ⟨⟨1, 0⟩, ⟨1, 10⟩⟩⟩,
        ⟨" ", ⟨⟨2, 12⟩, ⟨2, 14⟩⟩⟩]
      calls := [⟨"f", ⟨⟨2, 5⟩, ⟨2, 6⟩⟩⟩] }
    uncomment text = "package a \n\nx := f(\"#\") \n" ∧ (∃ tokens, tokenize text = .ok tokens) ∧
      parse text = .ok m ∧ parse (uncomment text) = .ok m.uncommented := by
  intro text m
  have hsome : (tokenize text).toOption.isSome = true := by decide +kernel
  obtain ⟨tokens, htokens⟩ := Option.isSome_iff_exists.1 hsome
  have hparse : parse text = .ok m := toOption_eq_some_iff.1 (by decide +kernel)
  refine ⟨by decide +kernel, ⟨tokens, toOption_eq_some_iff.1 htokens⟩, hparse, ?_⟩
  rw [parse_uncomment (toOption_eq_some_iff.1 htokens), hparse]
  rfl

end PolicyLint.Rego
