import Mathlib.Data.List.Chain
import PolicyLint.Proofs.Rego.Relexing
import PolicyLint.Proofs.Rego.TokenText
/-!
# Lines of tokens

Between two tokens no line ends: what is skipped there are blanks other than line feeds. So each token
starts on the line on which the one before it stops (`isChain_lines`), and one that writes no line feed
stops on the line on which it starts (`stop_line_of_notMem`). A comment is such a token, and the last
one of its line (`isChain_comment_newline`).
-/

namespace PolicyLint.Rego

variable {text : String} {tokens : List Token} {t : Token}

theorem newline_notMem_of_skipped {gap : List Char} (h : ∀ c ∈ gap, IsSkipped c) : '\n' ∉ gap :=
  fun hmem => (h _ hmem).2 rfl

/-- The first token behind a front starts on the line that the front leads to. -/
theorem Cover.line_head {front rest : List Char} {ts : List Token} (h : Cover front rest (t :: ts)) :
    t.line = (Cursor.after {} front).position.line := by
  cases h with
  | cons hall hgap hquote hne hrange htail =>
    rw [Token.line, hrange, Cursor.after_append]
    simp only [Cursor.position, Cursor.line_after_of_notMem _ (newline_notMem_of_skipped hgap)]

theorem Cover.isChain_lines {front rest : List Char} (h : Cover front rest tokens) :
    tokens.IsChain fun t u => u.line = t.range.stop.line := by
  induction h with
  | nil => exact .nil
  | @cons front gap rest all quote t ts hall hgap hquote hne hrange htail ih =>
    refine List.isChain_cons.2 ⟨fun u hu => ?_, ih⟩
    obtain ⟨us, rfl⟩ := List.head?_eq_some_iff.1 hu
    rw [htail.line_head, hrange]

/-- Each token starts on the line on which the one before it stops. -/
theorem isChain_lines (h : tokenize text = .ok tokens) :
    tokens.IsChain fun t u => u.line = t.range.stop.line :=
  (cover_tokens h).isChain_lines

theorem stop_line_of_notMem (h : tokenize text = .ok tokens) (ht : t ∈ tokens)
    (hkind : t.kind ≠ .newline) (htext : '\n' ∉ t.text.toList) : t.range.stop.line = t.line := by
  obtain ⟨gap, quote, back, -, hquote, -, hrange⟩ := (cover_tokens h).exists_of_mem ht
  have hwritten : '\n' ∉ t.written quote := by
    unfold Token.written
    rcases hquote with rfl | rfl <;> cases hk : t.kind <;> simp_all
  rw [Token.line, hrange]
  dsimp only
  rw [Cursor.after_append]
  simp only [Cursor.position, Cursor.line_after_of_notMem _ hwritten]

theorem stop_line_of_comment (h : tokenize text = .ok tokens) (ht : t ∈ tokens)
    (hkind : t.kind = .comment) : t.range.stop.line = t.line := by
  refine stop_line_of_notMem h ht (by simp [hkind]) ?_
  obtain ⟨x, hx, htoken⟩ := exists_lexeme_of_mem_tokens h ht
  have hproper := Lexeme.isProper_of_mem_ofChars hx
  rw [hkind] at htoken
  cases x <;> simp [Lexeme.token?] at htoken
  case comment body =>
    rw [← htoken, String.toList_ofList]
    exact hproper

theorem Lexeme.isChain_tokensFrom (here : Cursor) (cs : List Char) :
    (tokensFrom here (ofChars cs)).IsChain fun t u => t.kind = .comment → u.kind = .newline := by
  induction cs using ofChars.induct generalizing here with
  | case1 => simp [ofChars, tokensFrom, place]
  | case2 c cs ih =>
    rw [ofChars, tokensFrom_cons]
    cases htoken : (read c cs).1.token? with
    | none => simpa [Token.ofLexeme?, htoken] using ih _
    | some token =>
      obtain ⟨kind, text⟩ := token
      rw [Token.ofLexeme?, htoken]
      refine List.isChain_cons.2 ⟨fun u hu hcomment => ?_, ih _⟩
      cases hcomment
      rcases (comment_ends_line (isComment_of_token? htoken)).2 with hrest | ⟨ds, hrest⟩
      · rw [hrest, ofChars] at hu
        cases hu
      · rw [hrest, ofChars_newline, tokensFrom_newline] at hu
        cases hu
        rfl

/-- Behind a comment stands a line feed, or nothing. -/
theorem isChain_comment_newline (h : tokenize text = .ok tokens) :
    tokens.IsChain fun t u => t.kind = .comment → u.kind = .newline := by
  obtain ⟨-, rfl⟩ := tokenize_eq_ok_iff.1 h
  exact Lexeme.isChain_tokensFrom _ _

end PolicyLint.Rego
