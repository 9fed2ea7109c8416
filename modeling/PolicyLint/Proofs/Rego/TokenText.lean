import PolicyLint.Proofs.Rego.Names
import PolicyLint.Proofs.Text.Between
import PolicyLint.Proofs.Uri.Spelling
/-!
# What tokens cover

Tokens lose nothing of a text. Each covers exactly the characters it writes, a comment its `#` and a
string its quotes among them, and only blanks that end no line stand outside their ranges. So the text
is put together again from what the tokens write and what is skipped between them
(`lossless_of_tokenize`).

The invariant is `Cover`: behind a front that is already read, the rest of the text is blanks, then
what the first token writes, and so on. One lexeme more keeps it (`cover_place`), and all that the law
says is read off it.
-/

namespace PolicyLint.Rego

/-! ## The law -/

def IsQuote (c : Char) : Prop :=
  c = '"' ∨ c = '`'

/-- The characters that may stand between tokens: blanks that end no line. -/
def IsSkipped (c : Char) : Prop :=
  isBlank c = true ∧ c ≠ '\n'

/-- What a token writes when its quotes, if it is a string, are `quote`. -/
def Token.written (quote : Char) (t : Token) : List Char :=
  match t.kind with
  | .comment => '#' :: t.text.toList
  | .string => quote :: t.text.toList ++ [quote]
  | .newline => ['\n']
  | .ident | .number | .punct _ => t.text.toList

/-- What a text holds from a position on outside the ranges of tokens: before the first token, between
each and the next, and after the last. -/
def skipped (text : String) : Position → List Token → List (List Char)
  | p, [] => [text.toList.drop (p.before text).length]
  | p, t :: ts => Range.textIn ⟨p, t.range.start⟩ text :: skipped text t.range.stop ts

/-- Puts gaps, and what is written between each and the next, together. -/
def weave : List (List Char) → List (List Char) → List Char
  | gap :: gaps, w :: ws => gap ++ w ++ weave gaps ws
  | gaps, _ => gaps.flatten

/-- The tokens of a text tell all of it but the blanks between them. -/
structure Lossless (text : String) (tokens : List Token) : Prop where
  /-- every token stops before the later ones start -/
  ordered : tokens.Pairwise fun t u => t.range.stop ≤ u.range.start
  /-- every token starts and stops in the text, and covers something -/
  isIn : ∀ t ∈ tokens, t.range.IsIn text ∧ t.range.start < t.range.stop
  /-- every token covers what it writes -/
  written : ∀ t ∈ tokens, ∃ quote, IsQuote quote ∧ t.range.textIn text = t.written quote
  /-- every character has a position, and one that no token covers is a blank and no line feed -/
  outside : ∀ front c back, text.toList = front ++ c :: back →
    ∃ p : Position, p.IsIn text ∧ p.before text = front ∧
      ((∀ t ∈ tokens, t.range.contains p = false) → IsSkipped c)
  /-- between the tokens only blanks are skipped -/
  blanks : ∀ gap ∈ skipped text {} tokens, ∀ c ∈ gap, IsSkipped c
  /-- what is skipped and what the tokens write is the text -/
  recovered : ∃ quotes : List Char, quotes.length = tokens.length ∧ (∀ q ∈ quotes, IsQuote q) ∧
    weave (skipped text {} tokens) (List.zipWith Token.written quotes tokens) = text.toList

/-! ## Tokens over a text -/

/-- Behind `front`, the tokens cover all of `rest` but blanks. -/
inductive Cover : List Char → List Char → List Token → Prop
  | nil {front rest : List Char} (hrest : ∀ c ∈ rest, IsSkipped c) : Cover front rest []
  | cons {front gap rest all : List Char} {quote : Char} {t : Token} {ts : List Token}
      (hall : all = gap ++ t.written quote ++ rest) (hgap : ∀ c ∈ gap, IsSkipped c)
      (hquote : IsQuote quote) (hne : t.written quote ≠ [])
      (hrange : t.range = ⟨(Cursor.after {} (front ++ gap)).position,
        (Cursor.after {} (front ++ gap ++ t.written quote)).position⟩)
      (htail : Cover (front ++ gap ++ t.written quote) rest ts) : Cover front all (t :: ts)

theorem Cover.skip {front rest : List Char} {c : Char} {ts : List Token} (hc : IsSkipped c)
    (h : Cover (front ++ [c]) rest ts) : Cover front (c :: rest) ts := by
  have hcons {gap : List Char} (hgap : ∀ d ∈ gap, IsSkipped d) : ∀ d ∈ c :: gap, IsSkipped d := by
    simpa using ⟨hc, hgap⟩
  cases h with
  | nil hrest => exact .nil (hcons hrest)
  | @cons _ gap _ _ _ _ _ hall hgap hquote hne hrange htail =>
    have hfront : front ++ [c] ++ gap = front ++ c :: gap := by simp
    rw [hfront] at hrange htail
    exact .cons (by rw [hall]; rfl) (hcons hgap) hquote hne hrange htail

namespace Lexeme

theorem chars_ne_nil {x : Lexeme} (h : x.IsProper) : x.chars ≠ [] := by
  cases x with
  | number digits =>
    obtain ⟨c, rest, rfl, -⟩ := h
    exact List.cons_ne_nil c rest
  | ident name =>
    obtain ⟨c, rest, rfl, -⟩ := h
    exact List.cons_ne_nil c rest
  | _ => simp [chars]

/-- A lexeme with nothing wrong is a blank, or covers what its token writes. -/
theorem written_of_token? {x : Lexeme} (hfault : x.fault? = none) {kind : TokenKind} {text : String}
    (h : x.token? = some (kind, text)) (range : Range) :
    ∃ quote, IsQuote quote ∧ Token.written quote ⟨kind, text, range⟩ = x.chars := by
  cases x with
  | blank c => cases h
  | quoted body closed =>
    cases h
    cases closed with
    | false => cases hfault
    | true => exact ⟨'"', Or.inl rfl, by simp [Token.written, chars]⟩
  | backquoted body closed =>
    cases h
    cases closed with
    | false => cases hfault
    | true => exact ⟨'`', Or.inr rfl, by simp [Token.written, chars]⟩
  | _ =>
    cases h
    exact ⟨'"', Or.inl rfl, by simp [Token.written, chars]⟩

end Lexeme

/-- The tokens of placed lexemes cover what the lexemes do. -/
theorem cover_place {front : List Char} {xs : List Lexeme} (hproper : ∀ x ∈ xs, x.IsProper)
    (hfaults : ∀ y ∈ Lexeme.place (Cursor.after {} front) xs, ParseError.ofLexeme? y = none) :
    Cover front (xs.flatMap Lexeme.chars)
      ((Lexeme.place (Cursor.after {} front) xs).filterMap Token.ofLexeme?) := by
  induction xs generalizing front with
  | nil => exact .nil (by simp)
  | cons x xs ih =>
    have hx := hproper x (List.mem_cons_self ..)
    have hfault : x.fault? = none := Option.map_eq_none_iff.1 (hfaults _ (List.mem_cons_self ..))
    have htail := @ih (front ++ x.chars) (fun y hy => hproper y (List.mem_cons_of_mem x hy))
      fun y hy => hfaults y (List.mem_cons_of_mem _ (by rwa [← Cursor.after_append]))
    rw [Cursor.after_append] at htail
    rw [Lexeme.place, List.flatMap_cons, List.filterMap_cons, Token.ofLexeme?]
    cases htoken : x.token? with
    | none =>
      cases x <;> simp [Lexeme.token?] at htoken
      case blank c => exact htail.skip hx
    | some token =>
      obtain ⟨quote, hquote, hwritten⟩ := Lexeme.written_of_token? hfault htoken
        ⟨(Cursor.after {} front).position, ((Cursor.after {} front).after x.chars).position⟩
      refine @Cover.cons front [] (xs.flatMap Lexeme.chars) _ quote _ _ ?_ (by simp) hquote ?_ ?_ ?_
      · rw [List.nil_append]
        exact congrArg (· ++ _) hwritten.symm
      · exact fun hnil => Lexeme.chars_ne_nil hx (hwritten.symm.trans hnil)
      · simp [hwritten, Cursor.after_append]
      · simpa [hwritten] using htail

/-- The tokens of a text cover all of it but blanks. -/
theorem cover_tokens {text : String} {tokens : List Token} (h : tokenize text = .ok tokens) :
    Cover [] text.toList tokens := by
  unfold tokenize at h
  dsimp only at h
  split at h
  · next hfaults =>
    cases h
    have hcover := @cover_place [] _ (fun x hx => Lexeme.isProper_of_mem_ofChars hx)
      (List.filterMap_eq_nil_iff.1 hfaults)
    rwa [flatMap_chars_ofChars] at hcover
  · cases h

/-! ## What a cover tells -/

theorem eq_append_of_split {cs front rest gap w back : List Char} (h : cs = front ++ rest)
    (hrest : rest = gap ++ w ++ back) : cs = front ++ gap ++ w ++ back := by
  rw [h, hrest]
  simp only [List.append_assoc]

/-- A character of two texts put together stands in the first or in the second. -/
theorem append_eq_append_cons {cs ds front back : List Char} {c : Char}
    (h : cs ++ ds = front ++ c :: back) :
    (∃ rest, cs = front ++ c :: rest) ∨ ∃ mid, front = cs ++ mid ∧ ds = mid ++ c :: back := by
  induction cs generalizing front with
  | nil => exact Or.inr ⟨front, rfl, h⟩
  | cons d cs ih =>
    cases front with
    | nil =>
      injection h with hd
      exact Or.inl ⟨cs, by rw [hd]; rfl⟩
    | cons e front =>
      injection h with hd h
      rcases ih h with ⟨rest, rfl⟩ | ⟨mid, rfl, hds⟩
      · exact Or.inl ⟨rest, by rw [hd]; rfl⟩
      · exact Or.inr ⟨mid, by rw [hd]; rfl, hds⟩

namespace Cover

variable {text : String} {front rest : List Char} {tokens : List Token}

theorem exists_of_mem (h : Cover front rest tokens) {t : Token} (ht : t ∈ tokens) :
    ∃ gap quote back, rest = gap ++ t.written quote ++ back ∧ IsQuote quote ∧
      t.written quote ≠ [] ∧ t.range = ⟨(Cursor.after {} (front ++ gap)).position,
        (Cursor.after {} (front ++ gap ++ t.written quote)).position⟩ := by
  induction h with
  | nil => cases ht
  | @cons front gap rest all quote u ts hall hgap hquote hne hrange htail ih =>
    rcases List.mem_cons.1 ht with rfl | ht
    · exact ⟨gap, quote, rest, hall, hquote, hne, hrange⟩
    · obtain ⟨gap', quote', back, hrest, hquote', hne', hrange'⟩ := ih ht
      refine ⟨gap ++ u.written quote ++ gap', quote', back, ?_, hquote', hne', ?_⟩
      · rw [hall, hrest]
        simp only [List.append_assoc]
      · simpa only [List.append_assoc] using hrange'

theorem ordered (hs : IsSmall text) (h : Cover front rest tokens)
    (htext : text.toList = front ++ rest) :
    tokens.Pairwise fun t u => t.range.stop ≤ u.range.start := by
  induction h with
  | nil => exact .nil
  | @cons front gap rest all quote t ts hall hgap hquote hne hrange htail ih =>
    have hnext := eq_append_of_split htext hall
    refine .cons (fun u hu => ?_) (ih hnext)
    obtain ⟨gap', quote', back, hrest, -, -, hrange'⟩ := htail.exists_of_mem hu
    have hsplit : text.toList = front ++ gap ++ t.written quote ++ gap' ++
        (u.written quote' ++ back) := by
      rw [hnext, hrest]
      simp only [List.append_assoc]
    rw [hrange, hrange']
    exact after_le hs hsplit

/-- A character is a blank, or the range of a token holds its position. -/
theorem skipped_or_covered (hs : IsSmall text) (h : Cover front rest tokens)
    (htext : text.toList = front ++ rest) {mid back : List Char} {c : Char}
    (hc : rest = mid ++ c :: back) : IsSkipped c ∨ ∃ t ∈ tokens,
      t.range.contains (Cursor.after {} (front ++ mid)).position = true := by
  induction h generalizing mid with
  | nil hrest => exact Or.inl (hrest c (by simp [hc]))
  | @cons front gap rest all quote t ts hall hgap hquote hne hrange htail ih =>
    have hnext := eq_append_of_split htext hall
    rw [hall, List.append_assoc] at hc
    rcases append_eq_append_cons hc with ⟨gap', hgap'⟩ | ⟨mid', hmid, hc'⟩
    · exact Or.inl (hgap c (by simp [hgap']))
    rw [hmid, ← List.append_assoc]
    rcases append_eq_append_cons hc' with ⟨w, hw⟩ | ⟨mid'', hmid', hc''⟩
    · -- the character is one that the token writes
      refine Or.inr ⟨t, List.mem_cons_self .., ?_⟩
      rw [hw] at hnext hrange
      have hstart : text.toList = front ++ gap ++ mid' ++ (c :: w ++ rest) := by
        rw [hnext]
        simp only [List.append_assoc]
      rw [← List.append_assoc] at hnext hrange
      rw [Range.contains, hrange, Bool.and_eq_true, decide_eq_true_eq, decide_eq_true_eq]
      exact ⟨after_le hs hstart, after_lt hs hnext (List.cons_ne_nil c w)⟩
    · rw [hmid', ← List.append_assoc]
      rcases ih hnext hc'' with hskipped | ⟨u, hu, hin⟩
      · exact Or.inl hskipped
      · exact Or.inr ⟨u, List.mem_cons_of_mem t hu, hin⟩

/-- What a text holds between tokens that cover the rest of it are blanks, and with what the tokens
write they are that rest. -/
theorem weave_skipped (hs : IsSmall text) (h : Cover front rest tokens)
    (htext : text.toList = front ++ rest) :
    (∀ gap ∈ skipped text (Cursor.after {} front).position tokens, ∀ c ∈ gap, IsSkipped c) ∧
      ∃ quotes : List Char, quotes.length = tokens.length ∧ (∀ q ∈ quotes, IsQuote q) ∧
        weave (skipped text (Cursor.after {} front).position tokens)
          (List.zipWith Token.written quotes tokens) = rest := by
  induction h with
  | @nil front rest hrest =>
    have hskipped : skipped text (Cursor.after {} front).position [] = [rest] := by
      rw [skipped, before_after hs htext, htext, List.drop_left]
    rw [hskipped]
    exact ⟨by simpa using hrest, [], rfl, by simp, by simp [weave]⟩
  | @cons front gap rest all quote t ts hall hgap hquote hne hrange htail ih =>
    have hnext := eq_append_of_split htext hall
    obtain ⟨hgaps, quotes, hlength, hquotes, hweave⟩ := ih hnext
    have hskipped : skipped text (Cursor.after {} front).position (t :: ts) =
        gap :: skipped text (Cursor.after {} (front ++ gap ++ t.written quote)).position ts := by
      rw [skipped, hrange, textIn_after hs (hnext.trans (List.append_assoc ..))]
    rw [hskipped]
    refine ⟨List.forall_mem_cons.2 ⟨hgap, hgaps⟩, quote :: quotes, by simp [hlength],
      List.forall_mem_cons.2 ⟨hquote, hquotes⟩, ?_⟩
    rw [List.zipWith_cons_cons, weave, hweave, hall]

end Cover

/-- The tokens of a text lose nothing of it but blanks. -/
theorem lossless_of_tokenize {text : String} {tokens : List Token}
    (h : tokenize text = .ok tokens) (hs : IsSmall text) : Lossless text tokens := by
  have hcover := cover_tokens h
  obtain ⟨hblanks, hrecovered⟩ := hcover.weave_skipped hs rfl
  refine ⟨hcover.ordered hs rfl, fun t ht => ?_, fun t ht => ?_, fun front c back htext => ?_,
    hblanks, hrecovered⟩
  · refine ⟨(inText_of_mem_tokens (chain_tokens h) ht).isIn hs, ?_⟩
    obtain ⟨gap, quote, back, hrest, -, hne, hrange⟩ := hcover.exists_of_mem ht
    rw [hrange]
    exact after_lt hs hrest hne
  · obtain ⟨gap, quote, back, hrest, hquote, -, hrange⟩ := hcover.exists_of_mem ht
    refine ⟨quote, hquote, ?_⟩
    rw [hrange]
    exact textIn_after hs hrest
  · refine ⟨(Cursor.after {} front).position, isIn_after hs htext, before_after hs htext,
      fun houtside => ?_⟩
    rcases hcover.skipped_or_covered hs rfl htext with hskipped | ⟨t, ht, hin⟩
    · exact hskipped
    · exact absurd hin (by simp [houtside t ht])

/-- A string over two lines that ends behind a character of two columns, and a comment after it. -/
theorem lossless_raw_string :
    ∃ tokens, tokenize "x `a\n𝄞`  # é\n" = .ok tokens ∧ IsSmall "x `a\n𝄞`  # é\n" ∧
      tokens = [⟨.ident, "x", ⟨⟨0, 0⟩, ⟨0, 1⟩⟩⟩, ⟨.string, "a\n𝄞", ⟨⟨0, 2⟩, ⟨1, 3⟩⟩⟩,
        ⟨.comment, " é", ⟨⟨1, 5⟩, ⟨1, 8⟩⟩⟩, ⟨.newline, "", ⟨⟨1, 8⟩, ⟨2, 0⟩⟩⟩] ∧
      Lossless "x `a\n𝄞`  # é\n" tokens := by
  have htokens : tokenize "x `a\n𝄞`  # é\n" = .ok
      [⟨.ident, "x", ⟨⟨0, 0⟩, ⟨0, 1⟩⟩⟩, ⟨.string, "a\n𝄞", ⟨⟨0, 2⟩, ⟨1, 3⟩⟩⟩,
        ⟨.comment, " é", ⟨⟨1, 5⟩, ⟨1, 8⟩⟩⟩, ⟨.newline, "", ⟨⟨1, 8⟩, ⟨2, 0⟩⟩⟩] :=
    toOption_eq_some_iff.1 (by decide +kernel)
  have hsmall : IsSmall "x `a\n𝄞`  # é\n" := ⟨by decide +kernel, by decide +kernel⟩
  exact ⟨_, htokens, hsmall, rfl, lossless_of_tokenize htokens hsmall⟩

end PolicyLint.Rego
