import PolicyLint.Proofs.Rego.Appending
/-!
# Tokens line by line

A text that is put behind another one, with a line feed between them, has its own tokens and its own
errors, further down (`tokenize_line_by_line`). All that the first text may not do is leave a string in
backquotes open, which would go on in the second. A quoted string that is not closed ends with its line,
even behind a backslash: nothing below is read differently for it, and no error below is lost.
-/

namespace PolicyLint.Rego

/-! ## The law -/

/-- What is wrong with the tokens of a text. -/
def tokenErrors (text : String) : List ParseError :=
  match tokenize text with
  | .ok _ => []
  | .error errors => errors

def ParseError.down (k : UInt32) (e : ParseError) : ParseError :=
  { e with range := e.range.down k }

/-- The position behind the last character of a text. -/
def endOf (text : String) : Position :=
  (Cursor.after {} text.toList).position

/-! ## Errors of lexemes -/

namespace Lexeme

/-- The errors of lexemes that are put one after the other, the first at `here`. -/
def errorsFrom (here : Cursor) (xs : List Lexeme) : List ParseError :=
  (place here xs).filterMap ParseError.ofLexeme?

theorem errorsFrom_append (here : Cursor) (xs ys : List Lexeme) : errorsFrom here (xs ++ ys) =
    errorsFrom here xs ++ errorsFrom (here.after (xs.flatMap chars)) ys := by
  rw [errorsFrom, place_append, List.filterMap_append]
  rfl

theorem errorsFrom_newline (here : Cursor) (xs : List Lexeme) :
    errorsFrom here (newline :: xs) = errorsFrom (here.after ['\n']) xs := by
  rw [errorsFrom, place]
  rfl

theorem errorsFrom_down (n : Nat) (here : Cursor) (xs : List Lexeme) :
    errorsFrom (here.down n) xs = (errorsFrom here xs).map (ParseError.down (.ofNat n)) := by
  rw [errorsFrom, place_down, List.filterMap_map, errorsFrom, List.map_filterMap]
  congr 1
  funext x
  simp only [Function.comp, ParseError.ofLexeme?]
  cases x.1.fault? <;> rfl

/-- What is wrong with a lexeme is an error wherever the lexeme is placed. -/
theorem exists_error_of_fault? (here : Cursor) {xs : List Lexeme} {x : Lexeme} (hx : x ∈ xs)
    {fault : ParseFault} (h : x.fault? = some fault) :
    ∃ e ∈ errorsFrom here xs, e.fault = fault := by
  rw [← map_fst_place here xs] at hx
  obtain ⟨y, hy, rfl⟩ := List.mem_map.1 hx
  refine ⟨⟨fault, y.2⟩, List.mem_filterMap.2 ⟨y, hy, ?_⟩, rfl⟩
  rw [ParseError.ofLexeme?, h]
  rfl

end Lexeme

/-! ## Texts -/

variable {a b : String}

theorem tokenErrors_eq (text : String) :
    tokenErrors text = Lexeme.errorsFrom {} (Lexeme.ofChars text.toList) := by
  unfold tokenErrors tokenize Lexeme.errorsFrom
  dsimp only
  cases (Lexeme.place {} (Lexeme.ofChars text.toList)).filterMap ParseError.ofLexeme? <;> rfl

theorem tokenize_eq (text : String) : tokenize text =
    if tokenErrors text = [] then .ok (Lexeme.tokensFrom {} (Lexeme.ofChars text.toList))
    else .error (tokenErrors text) := by
  rw [tokenErrors_eq]
  unfold tokenize Lexeme.tokensFrom Lexeme.errorsFrom
  dsimp only
  cases (Lexeme.place {} (Lexeme.ofChars text.toList)).filterMap ParseError.ofLexeme? <;> rfl

/-- Where nothing is wrong but quoted strings, all strings in backquotes are closed. -/
theorem lineBound_of_tokenErrors (h : ∀ e ∈ tokenErrors a, e.fault = .unterminatedString) :
    Lexeme.LineBound (Lexeme.ofChars a.toList) := by
  intro x hx hfault
  rw [tokenErrors_eq] at h
  obtain ⟨e, he, heq⟩ := Lexeme.exists_error_of_fault? {} hx hfault
  rw [h e he] at heq
  cases heq

/-- Behind a text and a line feed, a line starts that many lines further down. -/
theorem after_newline (text : String) :
    (Cursor.after {} text.toList).after ['\n'] = Cursor.down (lineFeeds text + 1) {} := by
  simp [Cursor.step, Cursor.line_after, Cursor.down, lineFeeds]

section

variable (h : Lexeme.LineBound (Lexeme.ofChars a.toList))

include h

theorem ofChars_toList_line (b : String) : Lexeme.ofChars (a ++ "\n" ++ b).toList =
    Lexeme.ofChars a.toList ++ .newline :: Lexeme.ofChars b.toList := by
  have hchars : (a ++ "\n" ++ b).toList = a.toList ++ '\n' :: b.toList := by simp
  rw [hchars, Lexeme.ofChars_line h]

theorem tokenErrors_line (b : String) : tokenErrors (a ++ "\n" ++ b) =
    tokenErrors a ++ (tokenErrors b).map (ParseError.down (.ofNat (lineFeeds a + 1))) := by
  rw [tokenErrors_eq, ofChars_toList_line h, Lexeme.errorsFrom_append, Lexeme.errorsFrom_newline,
    flatMap_chars_ofChars, after_newline, Lexeme.errorsFrom_down, ← tokenErrors_eq, ← tokenErrors_eq]

theorem tokensFrom_line (b : String) :
    Lexeme.tokensFrom {} (Lexeme.ofChars (a ++ "\n" ++ b).toList) =
      Lexeme.tokensFrom {} (Lexeme.ofChars a.toList) ++
        ⟨.newline, "", endOf a, ⟨.ofNat (lineFeeds a + 1), 0⟩⟩ ::
          (Lexeme.tokensFrom {} (Lexeme.ofChars b.toList)).map
            (Token.down (.ofNat (lineFeeds a + 1))) := by
  have hnext : (Cursor.down (lineFeeds a + 1) {}).position = ⟨.ofNat (lineFeeds a + 1), 0⟩ := by
    simp [Cursor.down, Cursor.position]
  rw [ofChars_toList_line h, Lexeme.tokensFrom_append, Lexeme.tokensFrom_newline,
    flatMap_chars_ofChars, after_newline, Lexeme.tokensFrom_down, hnext, endOf]

end

/-- If nothing is wrong with the tokens of a text but quoted strings that are not closed, a text behind
it and a line feed is read on its own. There are tokens if both texts have some: those of the first, the
line feed, and those of the second further down. Otherwise the errors are those of the first and then
those of the second, further down. -/
theorem tokenize_line_by_line (h : ∀ e ∈ tokenErrors a, e.fault = .unterminatedString) (b : String) :
    let below : UInt32 := .ofNat (lineFeeds a + 1)
    tokenize (a ++ "\n" ++ b) =
      match tokenize a, tokenize b with
      | .ok front, .ok later =>
        .ok (front ++ ⟨.newline, "", endOf a, ⟨below, 0⟩⟩ :: later.map (Token.down below))
      | _, _ => .error (tokenErrors a ++ (tokenErrors b).map (ParseError.down below)) := by
  intro below
  have hclosed := lineBound_of_tokenErrors h
  rw [tokenize_eq (a ++ "\n" ++ b), tokenErrors_line hclosed, tokensFrom_line hclosed,
    tokenize_eq a, tokenize_eq b]
  by_cases ha : tokenErrors a = []
  · by_cases hb : tokenErrors b = []
    · simp [ha, hb, below]
    · simp [ha, hb, below]
  · simp [ha, below]

/-- A quoted string that ends its line with a backslash is not closed by the quote below, and the string
in backquotes behind that is an error of its own. -/
theorem tokenize_below_an_open_string :
    (∀ e ∈ tokenErrors "x := \"a\\", e.fault = .unterminatedString) ∧
      tokenize "x := \"a\\\n\"b\" `c" = .error
        [⟨.unterminatedString, ⟨0, 5⟩, ⟨0, 8⟩⟩, ⟨.unterminatedRawString, ⟨1, 4⟩, ⟨1, 6⟩⟩] := by
  have hfirst : tokenErrors "x := \"a\\" = [⟨.unterminatedString, ⟨0, 5⟩, ⟨0, 8⟩⟩] := by
    decide +kernel
  have hopen : ∀ e ∈ tokenErrors "x := \"a\\", e.fault = .unterminatedString := by
    simp [hfirst]
  have hsecond : tokenErrors "\"b\" `c" = [⟨.unterminatedRawString, ⟨0, 4⟩, ⟨0, 6⟩⟩] := by
    decide +kernel
  refine ⟨hopen, (tokenize_line_by_line hopen "\"b\" `c").trans ?_⟩
  rw [tokenize_eq "x := \"a\\", hfirst, hsecond, if_neg (List.cons_ne_nil _ _)]
  decide +kernel

end PolicyLint.Rego
