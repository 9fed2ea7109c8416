import PolicyLint.Proofs.Text.Span
import PolicyLint.Rego.Parse
/-!
# Where tokens are

Lexemes lose no character of a text, so the ranges they are placed at follow one another through the
text, and those of the tokens do too (`chain_tokens`). Whatever the parser reports is the range of a
token, or goes from the start of one token to the end of a later one. So the ranges of all parse
errors (`inText_of_parse_error`) and of all that a module declares (`Module.RangesIn`) lie in the text.
-/

namespace PolicyLint

/-! ## Ranges that follow one another -/

/-- Ranges of a text in order: each starts where the one before stops, or later; the first at the
`i`-th character, or later. -/
inductive Chain (cs : List Char) : Nat → List Range → Prop
  | nil {i : Nat} : Chain cs i []
  | cons {i j k : Nat} {r : Range} {rs : List Range} (hi : i ≤ j) (h : Span cs j k r)
      (rest : Chain cs k rs) : Chain cs i (r :: rs)

namespace Chain

variable {cs : List Char} {i : Nat} {r : Range} {rs : List Range}

theorem mono {j : Nat} (hij : i ≤ j) (h : Chain cs j rs) : Chain cs i rs := by
  cases h with
  | nil => exact nil
  | cons hj h rest => exact cons (Nat.le_trans hij hj) h rest

theorem sublist {rs' : List Range} (h : Chain cs i rs) (hs : rs'.Sublist rs) : Chain cs i rs' := by
  induction h generalizing rs' with
  | nil =>
    rw [List.sublist_nil.1 hs]
    exact nil
  | cons hi h rest ih =>
    cases hs with
    | cons _ hs => exact (ih hs).mono (Nat.le_trans hi h.le)
    | cons_cons _ hs => exact cons hi h (ih hs)

/-- The ranges after a range in the middle start where that one stops, or later. -/
theorem split {before : List Range} (h : Chain cs i (before ++ r :: rs)) :
    ∃ j k, i ≤ j ∧ Span cs j k r ∧ Chain cs k rs := by
  induction before generalizing i with
  | nil =>
    cases h with
    | cons hi h rest => exact ⟨_, _, hi, h, rest⟩
  | cons b before ih =>
    cases h with
    | cons hi h rest =>
      obtain ⟨j, k, hj, hr, hrest⟩ := ih rest
      exact ⟨j, k, Nat.le_trans (Nat.le_trans hi h.le) hj, hr, hrest⟩

theorem span_of_mem (h : Chain cs i rs) (hr : r ∈ rs) : ∃ j k, i ≤ j ∧ Span cs j k r := by
  obtain ⟨before, later, rfl⟩ := List.append_of_mem hr
  obtain ⟨j, k, hj, hr, -⟩ := h.split
  exact ⟨j, k, hj, hr⟩

end Chain

namespace Rego

/-! ## Lexemes -/

/-- The lexemes of a text, put together, are the text. -/
theorem flatMap_chars_ofChars (cs : List Char) :
    (Lexeme.ofChars cs).flatMap Lexeme.chars = cs := by
  induction cs using Lexeme.ofChars.induct with
  | case1 => simp [Lexeme.ofChars]
  | case2 c cs ih =>
    rw [Lexeme.ofChars, List.flatMap_cons, ih]
    exact Lexeme.chars_read_append c cs

/-- Lexemes that follow the front of a text are placed one after the other. -/
theorem chain_place {cs front : List Char} {xs : List Lexeme}
    (h : cs = front ++ xs.flatMap Lexeme.chars) :
    Chain cs front.length ((Lexeme.place (Cursor.after {} front) xs).map (·.2)) := by
  induction xs generalizing front with
  | nil => exact .nil
  | cons x xs ih =>
    rw [List.flatMap_cons, ← List.append_assoc] at h
    have hnext := ih h
    rw [Cursor.after_append] at hnext
    refine .cons (Nat.le_refl _) ⟨?_, ?_, ?_, ?_⟩ hnext
    · simp
    · rw [h]
      simp
    · have hfront : cs.take front.length = front := by
        rw [h, List.append_assoc]
        exact List.take_left
      rw [placeAt, hfront]
    · have hfront : cs.take (front ++ x.chars).length = front ++ x.chars := by
        rw [h]
        exact List.take_left
      rw [placeAt, hfront, Cursor.after_append]

theorem chain_lexemes (cs : List Char) :
    Chain cs 0 ((Lexeme.place {} (Lexeme.ofChars cs)).map (·.2)) := by
  have h : cs = [] ++ (Lexeme.ofChars cs).flatMap Lexeme.chars := (flatMap_chars_ofChars cs).symm
  exact chain_place h

theorem sublist_ofLexeme (placed : List (Lexeme × Range)) :
    ((placed.filterMap Token.ofLexeme?).map (·.range)).Sublist (placed.map (·.2)) := by
  induction placed with
  | nil => exact .slnil
  | cons x placed ih =>
    cases hx : x.1.token? with
    | none =>
      rw [List.filterMap_cons, Token.ofLexeme?, hx]
      exact ih.cons _
    | some kt =>
      rw [List.filterMap_cons, Token.ofLexeme?, hx]
      exact ih.cons_cons _

theorem chain_tokens {text : String} {tokens : List Token} (h : tokenize text = .ok tokens) :
    Chain text.toList 0 (tokens.map (·.range)) := by
  unfold tokenize at h
  dsimp only at h
  split at h
  · cases h
    exact (chain_lexemes text.toList).sublist (sublist_ofLexeme _)
  · cases h

theorem inText_of_tokenize_error {text : String} {errors : List ParseError}
    (h : tokenize text = .error errors) {e : ParseError} (he : e ∈ errors) :
    InText text.toList e.range := by
  unfold tokenize at h
  dsimp only at h
  split at h
  · cases h
  · cases h
    obtain ⟨x, hx, hxe⟩ := List.mem_filterMap.1 he
    obtain ⟨fault, -, rfl⟩ := Option.map_eq_some_iff.1 hxe
    obtain ⟨j, k, -, hs⟩ := (chain_lexemes text.toList).span_of_mem (List.mem_map_of_mem hx)
    exact ⟨j, k, hs⟩

/-! ## Spots -/

/-- A spot stands in a list of tokens where its token does. -/
theorem exists_before_of_mem_spots {c : Surroundings} {tokens : List Token} {s : Spot}
    (h : s ∈ Spot.ofTokens c tokens) : ∃ before, tokens = before ++ s.token :: s.after := by
  induction tokens generalizing c with
  | nil => cases h
  | cons t ts ih =>
    unfold Spot.ofTokens at h
    split at h
    · rcases List.mem_cons.1 h with rfl | h
      · exact ⟨[], rfl⟩
      · obtain ⟨before, hb⟩ := ih h
        exact ⟨t :: before, by rw [hb]; rfl⟩
    · obtain ⟨before, hb⟩ := ih h
      exact ⟨t :: before, by rw [hb]; rfl⟩

theorem mem_openedAfter {s : Spot} {t : Token} (h : t ∈ s.openedAfter) :
    t = s.token ∨ t ∈ s.opened := by
  unfold Spot.openedAfter at h
  split at h
  · exact List.mem_cons.1 h
  · split at h
    · next o rest _ ho =>
      split at h
      · right
        rw [ho]
        exact List.mem_cons_of_mem o h
      · exact Or.inr h
    · exact Or.inr h

/-- The brackets open around a spot are tokens met before, or were open from the start. -/
theorem mem_of_mem_opened {c : Surroundings} {tokens : List Token} {s : Spot} {t : Token}
    (h : s ∈ Spot.ofTokens c tokens) (ht : t ∈ s.opened) : t ∈ c.opened ∨ t ∈ tokens := by
  induction tokens generalizing c with
  | nil => cases h
  | cons u us ih =>
    unfold Spot.ofTokens at h
    split at h
    · rcases List.mem_cons.1 h with rfl | h
      · exact Or.inl ht
      · rcases ih h with ho | ho
        · rcases mem_openedAfter ho with rfl | ho
          · exact Or.inr (List.mem_cons_self ..)
          · exact Or.inl ho
        · exact Or.inr (List.mem_cons_of_mem u ho)
    · rcases ih h with ho | ho
      · exact Or.inl ho
      · exact Or.inr (List.mem_cons_of_mem u ho)

theorem mem_of_mem_spots {tokens : List Token} {s : Spot} (h : s ∈ Spot.ofTokens {} tokens) :
    s.token ∈ tokens := by
  obtain ⟨before, hb⟩ := exists_before_of_mem_spots h
  rw [hb]
  simp

theorem mem_of_mem_leftOpen {tokens : List Token} {t : Token}
    (h : t ∈ Spot.leftOpen (Spot.ofTokens {} tokens)) : t ∈ tokens := by
  unfold Spot.leftOpen at h
  cases hl : (Spot.ofTokens {} tokens).getLast? with
  | none => simp [hl] at h
  | some s =>
    rw [hl] at h
    have hs := List.mem_of_getLast? hl
    rcases mem_openedAfter h with rfl | ho
    · exact mem_of_mem_spots hs
    · rcases mem_of_mem_opened hs ho with ho | ho
      · cases ho
      · exact ho

/-- Reading further parts ends at one of the tokens read. -/
theorem mem_last_parts (last : Token) (tokens : List Token) :
    (Reference.parts last tokens).last ∈ last :: tokens := by
  induction last, tokens using Reference.parts.induct <;> simp_all [Reference.parts]

theorem mem_last_read? {tokens : List Token} {r : Reference} (h : Reference.read? tokens = some r) :
    r.last ∈ tokens := by
  cases tokens with
  | nil => cases h
  | cons t ts =>
    by_cases ht : t.isIdent = true
    · rw [Reference.read?, if_pos ht] at h
      cases h
      exact mem_last_parts t ts
    · rw [Reference.read?, if_neg ht] at h
      cases h

/-! ## What the parser reports -/

theorem inText_of_mem_tokens {cs : List Char} {tokens : List Token} {t : Token}
    (h : Chain cs 0 (tokens.map (·.range))) (ht : t ∈ tokens) : InText cs t.range := by
  obtain ⟨j, k, -, hs⟩ := h.span_of_mem (List.mem_map_of_mem ht)
  exact ⟨j, k, hs⟩

/-- The range from the start of a token to the end of the same or a later one lies in the text. -/
theorem inText_of_mem_after {cs : List Char} {tokens before after : List Token} {t last : Token}
    (h : Chain cs 0 (tokens.map (·.range))) (ht : tokens = before ++ t :: after)
    (hlast : last ∈ t :: after) : InText cs ⟨t.range.start, last.range.stop⟩ := by
  rw [ht, List.map_append, List.map_cons] at h
  obtain ⟨j, k, -, hs, hrest⟩ := h.split
  rcases List.mem_cons.1 hlast with rfl | hlast
  · exact ⟨j, k, hs⟩
  · obtain ⟨j', k', hj', hs'⟩ := hrest.span_of_mem (List.mem_map_of_mem hlast)
    have hle : j ≤ k' := Nat.le_trans hs.le (Nat.le_trans hj' hs'.le)
    exact ⟨j, k', hle, hs'.le_length, hs.start, hs'.stop⟩

/-- An error is reported at a token, or at the front of a text without any significant token. -/
theorem range_of_mem_errorsOf {tokens : List Token} {e : ParseError}
    (h : e ∈ errorsOf (Spot.ofTokens {} tokens)) :
    e.range = {} ∨ ∃ t ∈ tokens, e.range = t.range := by
  unfold errorsOf at h
  split at h
  · left
    rw [List.mem_singleton.1 h]
  · right
    rcases List.mem_append.1 h with h | h
    · obtain ⟨s, hs, he⟩ := List.mem_flatMap.1 h
      obtain ⟨fault, -, rfl⟩ := List.mem_map.1 he
      exact ⟨s.token, mem_of_mem_spots hs, rfl⟩
    · obtain ⟨t, ht, rfl⟩ := List.mem_map.1 h
      exact ⟨t, mem_of_mem_leftOpen (List.mem_reverse.1 ht), rfl⟩

/-- Every parse error is reported at a range of the text. -/
theorem inText_of_parse_error {text : String} {errors : List ParseError}
    (h : parse text = .error errors) {e : ParseError} (he : e ∈ errors) :
    InText text.toList e.range := by
  unfold parse at h
  split at h
  · next tokens htokens =>
    have herr : errors = errorsOf (Spot.ofTokens {} tokens) := by
      unfold parseTokens at h
      split at h
      · cases h
      · injection h with h
        exact h.symm
    rw [herr] at he
    rcases range_of_mem_errorsOf he with hr | ⟨t, ht, hr⟩
    · rw [hr]
      exact inText_empty _
    · rw [hr]
      exact inText_of_mem_tokens (chain_tokens htokens) ht
  · next errors' htokens =>
    injection h with h
    rw [← h] at he
    exact inText_of_tokenize_error htokens he

/-- All ranges that a module declares, those of its annotations apart, cover characters of a text. -/
structure Module.RangesIn (cs : List Char) (m : Module) : Prop where
  keyword : InText cs m.package.keyword
  imports : ∀ i ∈ m.imports, InText cs i.range
  rules : ∀ r ∈ m.rules, InText cs r.head
  comments : ∀ c ∈ m.comments, InText cs c.range
  calls : ∀ c ∈ m.calls, InText cs c.range

theorem inText_package {cs : List Char} {tokens : List Token}
    (h : Chain cs 0 (tokens.map (·.range))) (annotations : List Annotation) :
    InText cs (((Spot.ofTokens {} tokens).findSome? fun s : Spot =>
      s.package? annotations).getD {}).keyword := by
  cases hf : (Spot.ofTokens {} tokens).findSome? fun s : Spot => s.package? annotations with
  | none => exact inText_empty cs
  | some package =>
    obtain ⟨s, hs, hp⟩ := List.exists_of_findSome?_eq_some hf
    unfold Spot.package? at hp
    split at hp
    · obtain ⟨r, -, rfl⟩ := Option.map_eq_some_iff.1 hp
      exact inText_of_mem_tokens h (mem_of_mem_spots hs)
    · cases hp

theorem inText_import {cs : List Char} {tokens : List Token}
    (h : Chain cs 0 (tokens.map (·.range))) {s : Spot} (hs : s ∈ Spot.ofTokens {} tokens)
    {i : Import} (hi : s.import? = some i) : InText cs i.range := by
  unfold Spot.import? at hi
  split at hi
  · obtain ⟨r, hr, rfl⟩ := Option.map_eq_some_iff.1 hi
    obtain ⟨before, hb⟩ := exists_before_of_mem_spots hs
    exact inText_of_mem_after h hb (List.mem_cons_of_mem _ (mem_last_read? hr))
  · cases hi

theorem inText_rule {cs : List Char} {tokens : List Token}
    (h : Chain cs 0 (tokens.map (·.range))) {annotations : List Annotation} {s : Spot}
    (hs : s ∈ Spot.ofTokens {} tokens) {r : Rule} (hr : s.rule? annotations = some r) :
    InText cs r.head := by
  unfold Spot.rule? at hr
  dsimp only at hr
  split at hr
  · obtain ⟨name, hn, rfl⟩ := Option.map_eq_some_iff.1 hr
    obtain ⟨before, hb⟩ := exists_before_of_mem_spots hs
    have hname : name ∈ tokens := by
      rw [hb]
      exact List.mem_append_right _ (List.mem_cons_of_mem _ (List.mem_of_head? hn))
    exact inText_of_mem_tokens h hname
  · split at hr
    · cases hr
      exact inText_of_mem_tokens h (mem_of_mem_spots hs)
    · cases hr

theorem inText_call {cs : List Char} {tokens : List Token}
    (h : Chain cs 0 (tokens.map (·.range))) {s : Spot} (hs : s ∈ Spot.ofTokens {} tokens)
    {c : Call} (hc : s.call? = some c) : InText cs c.range := by
  unfold Spot.call? at hc
  split at hc
  · obtain ⟨r, hr, hc⟩ := Option.bind_eq_some_iff.1 hc
    obtain ⟨paren, -, hc⟩ := Option.bind_eq_some_iff.1 hc
    split at hc
    · cases hc
      obtain ⟨before, hb⟩ := exists_before_of_mem_spots hs
      exact inText_of_mem_after h hb (mem_last_read? hr)
    · cases hc
  · cases hc

/-- All that a text declares is declared at ranges of the text. -/
theorem rangesIn_of_parse {text : String} {m : Module} (h : parse text = .ok m) :
    m.RangesIn text.toList := by
  unfold parse at h
  split at h
  · next tokens htokens =>
    have hchain := chain_tokens htokens
    have hm : m = Module.ofTokens tokens := by
      unfold parseTokens at h
      split at h
      · injection h with h
        exact h.symm
      · cases h
    rw [hm]
    refine ⟨inText_package hchain _, fun i hi => ?_, fun r hr => ?_, fun c hc => ?_,
      fun c hc => ?_⟩
    · obtain ⟨s, hs, hi⟩ := List.mem_filterMap.1 hi
      exact inText_import hchain hs hi
    · obtain ⟨s, hs, hr⟩ := List.mem_filterMap.1 hr
      exact inText_rule hchain hs hr
    · obtain ⟨t, ht, hc⟩ := List.mem_filterMap.1 hc
      unfold Comment.ofToken? at hc
      split at hc
      · cases hc
        exact inText_of_mem_tokens hchain ht
      · cases hc
    · obtain ⟨s, hs, hc⟩ := List.mem_filterMap.1 hc
      exact inText_call hchain hs hc
  · cases h

end Rego

end PolicyLint
