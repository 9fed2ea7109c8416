import PolicyLint.Proofs.Rego.Names
/-!
# Reading lexemes again

A lexeme is read as far as it goes. So it is read again from its own characters, whatever is put behind
them, as long as that does not go on with it (`ofChars_chars_append`). A line feed ends whatever is being
read but a string in backquotes (`read_line`): behind it a text is read as if nothing stood before it,
and what stands before it as if nothing stood behind (`ofChars_line`). Comments end at line feeds, so the
lexemes of a text without its comments are the other lexemes of the text (`ofChars_dropComments`).
-/

namespace PolicyLint.Rego

namespace Lexeme

/-- Whether a lexeme goes on with a character that stands directly behind it. -/
def goesOnWith (x : Lexeme) (c : Char) : Bool :=
  match x with
  | comment _ => c != '\n'
  | number _ => isNumberRest c
  | ident _ => isIdentRest c
  | _ => false

/-- A lexeme ends where `rest` starts. -/
def StopsAt (x : Lexeme) (rest : List Char) : Prop :=
  ∀ c ∈ rest.head?, x.goesOnWith c = false

variable {x : Lexeme} {c : Char} {cs rest rest' : List Char}

theorem stopsAt_nil : x.StopsAt [] :=
  fun _ h => by cases h

/-- Every lexeme ends at the end of its line, or before. -/
theorem stopsAt_newline : x.StopsAt ('\n' :: rest) := by
  intro c hc
  cases hc
  cases x <;> rfl

theorem stopsAt_dropWhile {p : Char → Bool} (h : ∀ c, p c = x.goesOnWith c) (cs : List Char) :
    x.StopsAt (cs.dropWhile p) := by
  intro c hc
  have hnot := List.head?_dropWhile_not p cs
  rw [Option.mem_def.1 hc] at hnot
  rw [← h c]
  simpa using hnot

/-- The first character decides what is read. -/
theorem read_cases (c : Char) :
    (c = '\n' ∧ ∀ cs, read c cs = (newline, cs)) ∨
      (∀ cs, read c cs = (blank c, cs)) ∨
      (c = '#' ∧ ∀ cs, read c cs =
        (comment (cs.takeWhile (· ≠ '\n')), cs.dropWhile (· ≠ '\n'))) ∨
      (c = '"' ∧ ∀ cs, read c cs =
        (quoted (quotedBody false cs).1 (quotedBody false cs).2.1, (quotedBody false cs).2.2)) ∨
      (c = '`' ∧ ∀ cs, read c cs =
        (backquoted (backquotedBody cs).1 (backquotedBody cs).2.1, (backquotedBody cs).2.2)) ∨
      (∀ cs, read c cs = (number (c :: cs.takeWhile isNumberRest), cs.dropWhile isNumberRest)) ∨
      (∀ cs, read c cs = (ident (c :: cs.takeWhile isIdentRest), cs.dropWhile isIdentRest)) ∨
      ∀ cs, read c cs = (punct c, cs) := by
  simp only [read]
  by_cases hnewline : c = '\n'
  · exact Or.inl ⟨hnewline, fun cs => if_pos hnewline⟩
  simp only [if_neg hnewline]
  refine Or.inr ?_
  by_cases hblank : isBlank c = true
  · exact Or.inl fun cs => if_pos hblank
  simp only [if_neg hblank]
  refine Or.inr ?_
  by_cases hcomment : c = '#'
  · exact Or.inl ⟨hcomment, fun cs => if_pos hcomment⟩
  simp only [if_neg hcomment]
  refine Or.inr ?_
  by_cases hquote : c = '"'
  · exact Or.inl ⟨hquote, fun cs => if_pos hquote⟩
  simp only [if_neg hquote]
  refine Or.inr ?_
  by_cases hbackquote : c = '`'
  · exact Or.inl ⟨hbackquote, fun cs => if_pos hbackquote⟩
  simp only [if_neg hbackquote]
  refine Or.inr ?_
  by_cases hdigit : c.isDigit = true
  · exact Or.inl fun cs => if_pos hdigit
  simp only [if_neg hdigit]
  refine Or.inr ?_
  by_cases hident : isIdentStart c = true
  · exact Or.inl fun cs => if_pos hident
  · exact Or.inr fun cs => if_neg hident

theorem stopsAt_read (c : Char) (cs : List Char) : (read c cs).1.StopsAt (read c cs).2 := by
  rcases read_cases c with ⟨-, h⟩ | h | ⟨-, h⟩ | ⟨-, h⟩ | ⟨-, h⟩ | h | h | h <;> rw [h]
  · exact fun _ _ => rfl
  · exact fun _ _ => rfl
  · exact stopsAt_dropWhile (fun c => by by_cases h : c = '\n' <;> simp [goesOnWith, h]) cs
  · exact fun _ _ => rfl
  · exact fun _ _ => rfl
  · exact stopsAt_dropWhile (fun _ => rfl) cs
  · exact stopsAt_dropWhile (fun _ => rfl) cs
  · exact fun _ _ => rfl

/-! ## One lexeme -/

theorem quotedBody_append_quote {escaped : Bool} {body : List Char}
    (h : quotedBody escaped cs = (body, true, rest)) (rest' : List Char) :
    quotedBody escaped (body ++ '"' :: rest') = (body, true, rest') := by
  induction cs generalizing escaped body with
  | nil => cases h
  | cons c cs ih =>
    rw [quotedBody] at h
    split at h
    · cases h
    next hnewline =>
    split at h
    · next hquote =>
      cases h
      simp [quotedBody, hquote.1]
    · next hquote =>
      rcases hbody : quotedBody (!escaped && c = '\\') cs with ⟨body', closed, tail⟩
      rw [hbody] at h
      cases h
      rw [List.cons_append, quotedBody, if_neg hnewline, if_neg hquote, ih hbody]

theorem backquotedBody_append_quote {body : List Char}
    (h : backquotedBody cs = (body, true, rest)) (rest' : List Char) :
    backquotedBody (body ++ '`' :: rest') = (body, true, rest') := by
  induction cs generalizing body with
  | nil => cases h
  | cons c cs ih =>
    rw [backquotedBody] at h
    split at h
    · cases h
      simp [backquotedBody]
    · next hquote =>
      rcases hbody : backquotedBody cs with ⟨body', closed, tail⟩
      rw [hbody] at h
      cases h
      rw [List.cons_append, backquotedBody, if_neg hquote, ih hbody]

/-- Characters that go on are read up to where they end. -/
theorem span_append {p : Char → Bool} (cs : List Char) (h : ∀ c ∈ rest.head?, p c = false) :
    (cs.takeWhile p ++ rest).takeWhile p = cs.takeWhile p ∧
      (cs.takeWhile p ++ rest).dropWhile p = rest := by
  have hall : ∀ c ∈ cs.takeWhile p, p c = true := fun c hc => List.mem_takeWhile_imp hc
  rw [List.takeWhile_append_of_pos hall, List.dropWhile_append_of_pos hall]
  cases rest with
  | nil => simp
  | cons d rest => simp [h d rfl]

/-- A lexeme with nothing wrong is read again where it ends. -/
theorem read_chars (hfault : (read c cs).1.fault? = none) (hstop : (read c cs).1.StopsAt rest) :
    ∃ ds, (read c cs).1.chars = c :: ds ∧ read c (ds ++ rest) = ((read c cs).1, rest) := by
  rcases read_cases c with ⟨rfl, h⟩ | h | ⟨rfl, h⟩ | ⟨rfl, h⟩ | ⟨rfl, h⟩ | h | h | h <;>
    rw [h] at hfault hstop ⊢
  · exact ⟨[], rfl, h rest⟩
  · exact ⟨[], rfl, h rest⟩
  · obtain ⟨hbody, hrest⟩ := span_append (p := (· ≠ '\n')) cs fun d hd => by
      simpa [goesOnWith] using hstop d hd
    exact ⟨_, rfl, by rw [h, hbody, hrest]⟩
  · rcases hbody : quotedBody false cs with ⟨body, closed, tail⟩
    cases closed with
    | false => rw [hbody] at hfault; cases hfault
    | true =>
      refine ⟨body ++ ['"'], rfl, ?_⟩
      rw [h, List.append_assoc, List.singleton_append, quotedBody_append_quote hbody]
  · rcases hbody : backquotedBody cs with ⟨body, closed, tail⟩
    cases closed with
    | false => rw [hbody] at hfault; cases hfault
    | true =>
      refine ⟨body ++ ['`'], rfl, ?_⟩
      rw [h, List.append_assoc, List.singleton_append, backquotedBody_append_quote hbody]
  · obtain ⟨hbody, hrest⟩ := span_append (p := isNumberRest) cs hstop
    exact ⟨_, rfl, by rw [h, hbody, hrest]⟩
  · obtain ⟨hbody, hrest⟩ := span_append (p := isIdentRest) cs hstop
    exact ⟨_, rfl, by rw [h, hbody, hrest]⟩
  · exact ⟨[], rfl, h rest⟩

/-- A lexeme with nothing wrong is read again from its characters. -/
theorem ofChars_chars_append (hfault : (read c cs).1.fault? = none)
    (hstop : (read c cs).1.StopsAt rest) :
    ofChars ((read c cs).1.chars ++ rest) = (read c cs).1 :: ofChars rest := by
  obtain ⟨ds, hchars, hread⟩ := read_chars hfault hstop
  rw [hchars, List.cons_append, ofChars, hread]

/-! ## One line -/

theorem quotedBody_line (escaped : Bool) (cs ds : List Char) :
    quotedBody escaped (cs ++ '\n' :: ds) = ((quotedBody escaped cs).1, (quotedBody escaped cs).2.1,
      (quotedBody escaped cs).2.2 ++ '\n' :: ds) := by
  induction cs generalizing escaped with
  | nil => simp [quotedBody]
  | cons c cs ih =>
    rw [List.cons_append, quotedBody, quotedBody]
    split
    · rfl
    · split
      · rfl
      · rw [ih]

theorem backquotedBody_closed_append (h : (backquotedBody cs).2.1 = true) (ds : List Char) :
    backquotedBody (cs ++ ds) =
      ((backquotedBody cs).1, true, (backquotedBody cs).2.2 ++ ds) := by
  induction cs with
  | nil => simp [backquotedBody] at h
  | cons c cs ih =>
    rw [backquotedBody] at h ⊢
    rw [List.cons_append, backquotedBody]
    split
    · rfl
    · next hquote =>
      rw [if_neg hquote] at h
      rw [ih h]

theorem span_line {p : Char → Bool} (hp : p '\n' = false) (cs ds : List Char) :
    (cs ++ '\n' :: ds).takeWhile p = cs.takeWhile p ∧
      (cs ++ '\n' :: ds).dropWhile p = cs.dropWhile p ++ '\n' :: ds := by
  induction cs with
  | nil => simp [hp]
  | cons c cs ih => by_cases hc : p c = true <;> simp [hc, ih]

/-- A line feed behind a text ends whatever is read from the text, unless that is a string in
backquotes. -/
theorem read_line (h : (read c cs).1.fault? ≠ some .unterminatedRawString) (ds : List Char) :
    read c (cs ++ '\n' :: ds) = ((read c cs).1, (read c cs).2 ++ '\n' :: ds) := by
  rcases read_cases c with ⟨rfl, hread⟩ | hread | ⟨rfl, hread⟩ | ⟨rfl, hread⟩ | ⟨rfl, hread⟩ | hread |
    hread | hread
  · rw [hread, hread]
  · rw [hread, hread]
  · obtain ⟨hbody, hrest⟩ := span_line (p := (· ≠ '\n')) (by simp) cs ds
    rw [hread, hread, hbody, hrest]
  · rw [hread, hread, quotedBody_line]
  · rw [hread] at h
    have hclosed : (backquotedBody cs).2.1 = true := by
      cases hc : (backquotedBody cs).2.1 with
      | true => rfl
      | false => simp [fault?, hc] at h
    rw [hread, hread, backquotedBody_closed_append hclosed, hclosed]
  · obtain ⟨hbody, hrest⟩ := span_line (p := isNumberRest) rfl cs ds
    rw [hread, hread, hbody, hrest]
  · obtain ⟨hbody, hrest⟩ := span_line (p := isIdentRest) rfl cs ds
    rw [hread, hread, hbody, hrest]
  · rw [hread, hread]

/-! ## Whole texts -/

def Faultless (xs : List Lexeme) : Prop :=
  ∀ x ∈ xs, x.fault? = none

/-- Lexemes among which every string in backquotes is closed. -/
def LineBound (xs : List Lexeme) : Prop :=
  ∀ x ∈ xs, x.fault? ≠ some .unterminatedRawString

theorem Faultless.lineBound {xs : List Lexeme} (h : Faultless xs) : LineBound xs :=
  fun x hx => by simp [h x hx]

variable {ds : List Char}

theorem ofChars_newline (ds : List Char) : ofChars ('\n' :: ds) = newline :: ofChars ds := by
  rw [ofChars]
  rfl

/-- Behind a line feed a text is read as if nothing stood before it, and what stands before it as if
nothing stood behind. -/
theorem ofChars_line (h : LineBound (ofChars cs)) (ds : List Char) :
    ofChars (cs ++ '\n' :: ds) = ofChars cs ++ newline :: ofChars ds := by
  induction cs using ofChars.induct with
  | case1 => simp [ofChars, ofChars_newline]
  | case2 c cs ih =>
    rw [ofChars] at h
    obtain ⟨hclosed, hrest⟩ := List.forall_mem_cons.1 h
    rw [List.cons_append, ofChars, read_line hclosed, ofChars, ih hrest, List.cons_append]

def isComment : Lexeme → Bool
  | comment _ => true
  | _ => false

theorem isComment_of_token? {text : String} (h : x.token? = some (.comment, text)) :
    x.isComment = true := by
  cases x <;> simp [token?] at h
  rfl

def dropComments (xs : List Lexeme) : List Lexeme :=
  xs.filter fun x => !x.isComment

/-- A comment is the rest of its line: behind it stands a line feed, or nothing. -/
theorem comment_ends_line (h : (read c cs).1.isComment = true) :
    '\n' ∉ (read c cs).1.chars ∧ ((read c cs).2 = [] ∨ ∃ ds, (read c cs).2 = '\n' :: ds) := by
  have hproper := isProper_read c cs
  have hstop := stopsAt_read c cs
  cases hread : (read c cs).1 with
  | comment body =>
    rw [hread] at hproper hstop
    refine ⟨by simpa [chars, IsProper] using hproper, ?_⟩
    cases hrest : (read c cs).2 with
    | nil => exact Or.inl rfl
    | cons d ds =>
      have hd : d = '\n' := by simpa [goesOnWith] using hstop d (by rw [hrest]; rfl)
      exact Or.inr ⟨ds, by rw [hd]⟩
  | _ =>
    rw [hread] at h
    cases h

theorem dropComments_of_comment (h : (read c cs).1.isComment = true) :
    dropComments (ofChars (c :: cs)) = dropComments (ofChars (read c cs).2) := by
  rw [ofChars]
  exact List.filter_cons_of_neg (by simp [h])

theorem dropComments_of_other (h : (read c cs).1.isComment = false) :
    dropComments (ofChars (c :: cs)) =
      (read c cs).1 :: dropComments (ofChars (read c cs).2) := by
  rw [ofChars]
  exact List.filter_cons_of_pos (by simp [h])

theorem exists_chars_read (c : Char) (cs : List Char) : ∃ ds, (read c cs).1.chars = c :: ds := by
  have hsplit := chars_read_append c cs
  cases hchars : (read c cs).1.chars with
  | nil => exact absurd hchars (chars_read_ne_nil c cs)
  | cons d ds =>
    rw [hchars] at hsplit
    injection hsplit with hd
    exact ⟨ds, by rw [hd]⟩

/-- What ends at a text ends there without its comments, too. -/
theorem stopsAt_dropComments (h : x.StopsAt cs) :
    x.StopsAt ((dropComments (ofChars cs)).flatMap chars) := by
  cases cs with
  | nil =>
    rw [ofChars]
    exact stopsAt_nil
  | cons c cs =>
    cases hx : (read c cs).1.isComment with
    | false =>
      obtain ⟨ds, hds⟩ := exists_chars_read c cs
      rw [dropComments_of_other hx, List.flatMap_cons, hds]
      exact h
    | true =>
      rw [dropComments_of_comment hx]
      rcases (comment_ends_line hx).2 with hrest | ⟨ds, hrest⟩
      · rw [hrest, ofChars]
        exact stopsAt_nil
      · rw [hrest, ofChars_newline]
        exact stopsAt_newline

/-- The lexemes of a text without its comments are the other ones. -/
theorem ofChars_dropComments (h : Faultless (ofChars cs)) :
    ofChars ((dropComments (ofChars cs)).flatMap chars) = dropComments (ofChars cs) := by
  induction cs using ofChars.induct with
  | case1 => simp [ofChars, dropComments]
  | case2 c cs ih =>
    rw [ofChars] at h
    obtain ⟨hfault, hrest⟩ := List.forall_mem_cons.1 h
    cases hx : (read c cs).1.isComment with
    | true =>
      rw [dropComments_of_comment hx]
      exact ih hrest
    | false =>
      rw [dropComments_of_other hx, List.flatMap_cons,
        ofChars_chars_append hfault (stopsAt_dropComments (stopsAt_read c cs)), ih hrest]

/-! ## Tokens -/

/-- The tokens of lexemes that are put one after the other, the first at `here`. -/
def tokensFrom (here : Cursor) (xs : List Lexeme) : List Token :=
  (place here xs).filterMap Token.ofLexeme?

theorem place_append (here : Cursor) (xs ys : List Lexeme) : place here (xs ++ ys) =
    place here xs ++ place (here.after (xs.flatMap chars)) ys := by
  induction xs generalizing here with
  | nil => rfl
  | cons x xs ih =>
    rw [List.cons_append, place, place, ih, List.flatMap_cons, Cursor.after_append,
      List.cons_append]

theorem tokensFrom_append (here : Cursor) (xs ys : List Lexeme) : tokensFrom here (xs ++ ys) =
    tokensFrom here xs ++ tokensFrom (here.after (xs.flatMap chars)) ys := by
  rw [tokensFrom, place_append, List.filterMap_append]
  rfl

theorem tokensFrom_cons (here : Cursor) (x : Lexeme) (xs : List Lexeme) : tokensFrom here (x :: xs) =
    (Token.ofLexeme? (x, ⟨here.position, (here.after x.chars).position⟩)).toList ++
      tokensFrom (here.after x.chars) xs := by
  rw [tokensFrom, place, List.filterMap_cons]
  cases Token.ofLexeme? (x, ⟨here.position, (here.after x.chars).position⟩) <;> rfl

theorem tokensFrom_newline (here : Cursor) (xs : List Lexeme) : tokensFrom here (newline :: xs) =
    ⟨.newline, "", here.position, (here.after ['\n']).position⟩ ::
      tokensFrom (here.after ['\n']) xs :=
  tokensFrom_cons here newline xs

theorem map_fst_place (here : Cursor) (xs : List Lexeme) : (place here xs).map (·.1) = xs := by
  induction xs generalizing here with
  | nil => rfl
  | cons x xs ih => rw [place, List.map_cons, ih]

end Lexeme

/-- A text has tokens if and only if nothing is wrong with its lexemes, and then they are theirs. -/
theorem tokenize_eq_ok_iff {text : String} {tokens : List Token} : tokenize text = .ok tokens ↔
    Lexeme.Faultless (Lexeme.ofChars text.toList) ∧
      Lexeme.tokensFrom {} (Lexeme.ofChars text.toList) = tokens := by
  have hfaults : (Lexeme.place {} (Lexeme.ofChars text.toList)).filterMap ParseError.ofLexeme? = [] ↔
      Lexeme.Faultless (Lexeme.ofChars text.toList) := by
    have hfst := Lexeme.map_fst_place {} (Lexeme.ofChars text.toList)
    rw [Lexeme.Faultless, List.filterMap_eq_nil_iff]
    constructor
    · intro h x hx
      rw [← hfst] at hx
      obtain ⟨y, hy, rfl⟩ := List.mem_map.1 hx
      exact Option.map_eq_none_iff.1 (h y hy)
    · exact fun h y hy => Option.map_eq_none_iff.2 (h y.1 (mem_of_mem_place hy))
  rw [← hfaults, tokenize]
  split
  · next h => simp [h, Lexeme.tokensFrom]
  · next h => exact ⟨fun ht => (by cases ht), fun ht => absurd ht.1 h⟩

end PolicyLint.Rego
