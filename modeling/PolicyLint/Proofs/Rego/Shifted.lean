import PolicyLint.Proofs.Rego.Nearby
import PolicyLint.Proofs.Rego.Relexing
/-!
# The same text further down

Lexemes that start some lines further down are at the same columns, that many lines further down
(`tokensFrom_down`). What their tokens declare, too, is moved by these lines and otherwise the same: no
part of the parser looks at a line number but to compare it with another. Two lines are next to each
other, and two positions the same, if and only if they are so further down.
-/

namespace PolicyLint

/-! ## Moving down -/

/-- A position `k` lines further down. -/
def Position.down (k : UInt32) (p : Position) : Position :=
  { p with line := p.line + k }

def Range.down (k : UInt32) (r : Range) : Range :=
  ⟨r.start.down k, r.stop.down k⟩

theorem Position.down_inj {k : UInt32} {p q : Position} : p.down k = q.down k ↔ p = q := by
  cases p
  cases q
  simp [down]

theorem next_line_down {k line below : UInt32} :
    line + k + 1 = below + k ↔ line + 1 = below := by
  rw [UInt32.add_assoc, UInt32.add_comm k 1, ← UInt32.add_assoc, UInt32.add_left_inj]

def Cursor.down (n : Nat) (here : Cursor) : Cursor :=
  { here with line := here.line + n }

theorem Cursor.down_after (n : Nat) (here : Cursor) (cs : List Char) :
    (here.down n).after cs = (here.after cs).down n := by
  induction cs generalizing here with
  | nil => rfl
  | cons c cs ih =>
    have hstep : (here.down n).step c = (here.step c).down n := by
      unfold step
      split
      · simp [down, Nat.add_right_comm]
      · rfl
    rw [after_cons, after_cons, hstep, ih]

theorem Cursor.position_down (n : Nat) (here : Cursor) :
    (here.down n).position = here.position.down (.ofNat n) := by
  simp [position, Cursor.down, Position.down, UInt32.ofNat_add]

namespace Rego

def Token.down (k : UInt32) (t : Token) : Token :=
  { t with range := t.range.down k }

def Package.down (k : UInt32) (p : Package) : Package :=
  { p with keyword := p.keyword.down k }

def Import.down (k : UInt32) (i : Import) : Import :=
  { i with range := i.range.down k }

def Rule.down (k : UInt32) (r : Rule) : Rule :=
  { r with head := r.head.down k }

def Annotation.down (k : UInt32) (a : Annotation) : Annotation :=
  { a with range := a.range.down k }

def Comment.down (k : UInt32) (c : Comment) : Comment :=
  { c with range := c.range.down k }

def Call.down (k : UInt32) (c : Call) : Call :=
  { c with range := c.range.down k }

def Module.down (k : UInt32) (m : Module) : Module where
  package := m.package.down k
  imports := m.imports.map (Import.down k)
  rules := m.rules.map (Rule.down k)
  annotations := m.annotations.map (Rego.Annotation.down k)
  comments := m.comments.map (Comment.down k)
  calls := m.calls.map (Call.down k)

theorem Lexeme.place_down (n : Nat) (here : Cursor) (xs : List Lexeme) :
    place (here.down n) xs = (place here xs).map fun x => (x.1, x.2.down (.ofNat n)) := by
  induction xs generalizing here with
  | nil => rfl
  | cons x xs ih =>
    rw [place, place, Cursor.down_after, ih, Cursor.position_down, Cursor.position_down]
    rfl

theorem Lexeme.tokensFrom_down (n : Nat) (here : Cursor) (xs : List Lexeme) :
    tokensFrom (here.down n) xs = (tokensFrom here xs).map (Token.down (.ofNat n)) := by
  rw [tokensFrom, place_down, List.filterMap_map, tokensFrom, List.map_filterMap]
  congr 1
  funext x
  simp only [Function.comp, Token.ofLexeme?]
  cases x.1.token? <;> rfl

variable (k : UInt32)

/-! ## References -/

def Reference.down (r : Reference) : Reference :=
  { r with last := r.last.down k, rest := r.rest.map (Token.down k) }

theorem Reference.opensPart_down (tokens : List Token) :
    opensPart (tokens.map (Token.down k)) = opensPart tokens := by
  match tokens with
  | [] | [t] | [t, name] => rfl
  | t :: name :: closing :: rest => rfl

theorem Reference.parts_down (last : Token) (tokens : List Token) :
    parts (last.down k) (tokens.map (Token.down k)) = (parts last tokens).down k := by
  have hstop (last : Token) {ts : List Token} (h : opensPart ts = false) :
      parts (last.down k) (ts.map (Token.down k)) = (parts last ts).down k := by
    rw [parts_stop _ ((opensPart_down k ts).trans h), parts_stop last h]
    rfl
  have hfield {t name : Token} (h : isField t name = true) :
      isField (t.down k) (name.down k) = true := h
  induction last, tokens using parts.induct with
  | case1 last | case2 last t => rfl
  | case3 last t name h =>
    rw [List.map_cons, List.map_cons, parts_field _ (hfield h), parts_field _ h, hstop name rfl]
    rfl
  | case4 last t name h => exact hstop last (by simpa [opensPart] using h)
  | case5 last t name closing rest h ih =>
    rw [List.map_cons, List.map_cons, parts_field _ (hfield h), parts_field _ h, ih]
    rfl
  | case6 last t name closing rest h h' ih =>
    rw [Bool.not_eq_true] at h
    have hno : isField (t.down k) (name.down k) = false := h
    have hindex : isIndex (t.down k) (name.down k) (closing.down k) = true := h'
    rw [List.map_cons, List.map_cons, List.map_cons, parts_index _ hno hindex, parts_index _ h h', ih]
    rfl
  | case7 last t name closing rest h h' =>
    rw [Bool.not_eq_true] at h h'
    exact hstop last (by simp [opensPart, h, h'])

theorem Reference.read?_down (tokens : List Token) :
    read? (tokens.map (Token.down k)) = (read? tokens).map (Reference.down k) := by
  cases tokens with
  | nil => rfl
  | cons t ts =>
    have hident : (t.down k).isIdent = t.isIdent := rfl
    rw [List.map_cons, read?, read?, hident, parts_down]
    split <;> rfl

/-! ## Spots -/

def Spot.down (s : Spot) : Spot :=
  { s with
    before := s.before.map (Token.down k)
    token := s.token.down k
    after := s.after.map (Token.down k)
    opened := s.opened.map (Token.down k) }

def Surroundings.down (c : Surroundings) : Surroundings :=
  { c with
    before := c.before.map (Token.down k)
    opened := c.opened.map (Token.down k) }

variable (s : Spot)

theorem any_before_down {p : Token → Bool} (hp : ∀ t : Token, p (t.down k) = p t)
    (before : Option Token) : (before.map (Token.down k)).any p = before.any p := by
  cases before with
  | none => rfl
  | some t => exact hp t

theorem any_head?_down {p : Token → Bool} (hp : ∀ t : Token, p (t.down k) = p t)
    (tokens : List Token) : (tokens.map (Token.down k)).head?.any p = tokens.head?.any p := by
  rw [List.head?_map, any_before_down k hp]

theorem Spot.openedAfter_down : (s.down k).openedAfter = s.openedAfter.map (Token.down k) := by
  have hopening : (s.token.down k).isOpening = s.token.isOpening := rfl
  have hclosing : (s.token.down k).closing? = s.token.closing? := rfl
  unfold openedAfter down
  dsimp only
  rw [hopening, hclosing]
  split
  · rfl
  · cases s.token.closing? with
    | none => rfl
    | some c =>
      cases s.opened with
      | nil => rfl
      | cons o rest =>
        exact (apply_ite (List.map (Token.down k)) (s.token.closes o = true) rest (o :: rest)).symm

theorem Spot.announces_down : (s.down k).announces = s.announces := by
  have hword : (s.token.down k).isWord "default" = s.token.isWord "default" := rfl
  unfold announces down
  dsimp only
  rw [hword, any_head?_down k fun _ => rfl]

theorem Spot.isRuleName_down : (s.down k).isRuleName = s.isRuleName :=
  rfl

theorem Spot.statementFault?_down : (s.down k).statementFault? = s.statementFault? := by
  unfold statementFault? down
  dsimp only
  rw [Reference.read?_down, Option.isSome_map, any_head?_down k fun _ => rfl]
  rfl

theorem Spot.bracketFault?_down : (s.down k).bracketFault? = s.bracketFault? := by
  unfold bracketFault? down
  dsimp only
  rw [any_head?_down k fun _ => rfl]
  rfl

theorem Spot.down_spot (c : Surroundings) (t : Token) (after : List Token) :
    (c.down k).spot (t.down k) (after.map (Token.down k)) = (c.spot t after).down k := by
  have hrole : (c.down k).role = c.role := by
    unfold Surroundings.role Surroundings.down
    dsimp only
    rw [List.isEmpty_map]
  unfold Surroundings.spot
  rw [hrole]
  rfl

theorem Surroundings.down_next (c : Surroundings) :
    (c.down k).next (s.down k) = (c.next s).down k := by
  have hcontinues : (s.token.down k).continues (c.before.map (Token.down k)) =
      s.token.continues c.before := by
    unfold Token.continues
    rw [any_before_down k fun _ => rfl]
    rfl
  unfold next
  rw [Spot.openedAfter_down, Spot.announces_down]
  exact congrArg (fun b => ({ (c.next s).down k with continues := b } : Surroundings)) hcontinues

/-- The tokens of a text further down stand in the same surroundings. -/
theorem spots_down (c : Surroundings) (tokens : List Token) :
    Spot.ofTokens (c.down k) (tokens.map (Token.down k)) =
      (Spot.ofTokens c tokens).map (Spot.down k) := by
  induction tokens generalizing c with
  | nil => rfl
  | cons t ts ih =>
    have hsignificant : (t.down k).isSignificant = t.isSignificant := rfl
    rw [List.map_cons, Spot.ofTokens, Spot.ofTokens, hsignificant]
    split
    · dsimp only
      rw [Spot.down_spot, Surroundings.down_next, ih, List.map_cons]
    · exact ih (c.pass t)

theorem leftOpen_down (spots : List Spot) :
    Spot.leftOpen (spots.map (Spot.down k)) = (Spot.leftOpen spots).map (Token.down k) := by
  unfold Spot.leftOpen
  rw [List.getLast?_map]
  cases spots.getLast? with
  | none => rfl
  | some s => exact s.openedAfter_down k

/-! ## What is declared -/

theorem endsAbove_down (a : Annotation) (line : UInt32) :
    (a.down k).endsAbove (line + k) = a.endsAbove line := by
  unfold Annotation.endsAbove
  rw [Bool.eq_iff_iff, beq_iff_eq, beq_iff_eq]
  exact next_line_down

theorem annotatedAbove_down (annotations : List Annotation) {applies : Annotation → Bool}
    (h : ∀ a : Annotation, applies (a.down k) = applies a) (line : UInt32) :
    annotatedAbove (annotations.map (Rego.Annotation.down k)) applies (line + k) =
      annotatedAbove annotations applies line := by
  unfold annotatedAbove
  rw [List.any_map]
  simp only [Function.comp_def, endsAbove_down, h]

theorem Spot.rule?_down (annotations : List Annotation) :
    (s.down k).rule? (annotations.map (Rego.Annotation.down k)) =
      (s.rule? annotations).map (Rule.down k) := by
  have hline : (s.down k).token.line = s.token.line + k := rfl
  unfold rule?
  rw [hline, annotatedAbove_down k annotations fun _ => rfl, announces_down, isRuleName_down]
  dsimp only
  split
  · cases hafter : s.after with
    | nil => simp [down, hafter]
    | cons name rest =>
      simp [down, hafter]
      rfl
  · split <;> rfl

theorem Spot.import?_down : (s.down k).import? = (s.import?).map (Import.down k) := by
  have hword : (s.token.down k).isWord "import" = s.token.isWord "import" := rfl
  have halias (tokens : List Token) : alias? (tokens.map (Token.down k)) = alias? tokens := by
    match tokens with
    | [] | [t] => rfl
    | t :: name :: rest => rfl
  unfold import? down
  dsimp only
  rw [hword, Reference.read?_down, Option.map_map]
  split
  · rw [Option.map_map]
    congr 1
    funext r
    simp only [Function.comp, Reference.down, halias]
    rfl
  · rfl

theorem Spot.call?_down : (s.down k).call? = (s.call?).map (Call.down k) := by
  have hhead : (s.down k).isHead = s.isHead := rfl
  have hident : (s.token.down k).isIdent = s.token.isIdent := rfl
  have hread : Reference.read? (s.token.down k :: s.after.map (Token.down k)) =
      (Reference.read? (s.token :: s.after)).map (Reference.down k) :=
    Reference.read?_down k (s.token :: s.after)
  unfold call?
  rw [hhead]
  unfold down
  dsimp only
  rw [hident, any_before_down k fun _ => rfl, hread]
  split
  · cases Reference.read? (s.token :: s.after) with
    | none => rfl
    | some r =>
      obtain ⟨path, last, rest⟩ := r
      cases rest with
      | nil => rfl
      | cons paren rest =>
        -- the parenthesis is directly behind the reference if it was
        have hpunct : (paren.down k).isPunct '(' = paren.isPunct '(' := rfl
        have hdirectly : ((paren.down k).range.start == (last.down k).range.stop) =
            (paren.range.start == last.range.stop) := by
          rw [Bool.eq_iff_iff, beq_iff_eq, beq_iff_eq]
          exact Position.down_inj
        simp only [Option.map_some, Reference.down, Option.bind_eq_bind, Option.bind_some,
          List.map_cons, List.head?_cons, hpunct, hdirectly]
        split <;> rfl
  · rfl

theorem Comment.ofToken?_down (t : Token) :
    ofToken? (t.down k) = (ofToken? t).map (Comment.down k) := by
  unfold ofToken?
  have hkind : (t.down k).kind = t.kind := rfl
  rw [hkind]
  split <;> rfl

/-! ## Annotations -/

theorem aloneComments_down (lineStart : Bool) (tokens : List Token) :
    aloneComments lineStart (tokens.map (Token.down k)) =
      (aloneComments lineStart tokens).map (Token.down k) := by
  induction tokens generalizing lineStart with
  | nil => rfl
  | cons t ts ih =>
    have hkind : (t.down k).kind = t.kind := rfl
    rw [List.map_cons, aloneComments, aloneComments, hkind, ih, ih, ih]
    split
    · rfl
    · split
      · split <;> rfl
      · rfl

theorem getLastD_down (first : Token) (run : List Token) :
    (run.map (Token.down k)).getLastD (first.down k) = (run.getLastD first).down k := by
  rw [List.getLastD_eq_getLast?, List.getLastD_eq_getLast?, List.getLast?_map, Option.getD_map]

theorem commentRuns_down (first : Token) (run tokens : List Token) :
    commentRuns (first.down k) (run.map (Token.down k)) (tokens.map (Token.down k)) =
      (commentRuns first run tokens).map fun r => (r.1.down k, r.2.map (Token.down k)) := by
  induction tokens generalizing first run with
  | nil => rfl
  | cons t ts ih =>
    have hnext : ((run.getLastD first).down k).range.stop.line + 1 = (t.down k).line ↔
        (run.getLastD first).range.stop.line + 1 = t.line := next_line_down
    have hlonger := ih first (run ++ [t])
    rw [List.map_append] at hlonger
    rw [List.map_cons, commentRuns, commentRuns, getLastD_down]
    by_cases h : (run.getLastD first).range.stop.line + 1 = t.line
    · rw [if_pos (hnext.2 h), if_pos h]
      exact hlonger
    · rw [if_neg (mt hnext.1 h), if_neg h, List.map_cons]
      exact congrArg _ (ih t [])

theorem ofRun?_down (run : Token × List Token) :
    Annotation.ofRun? (run.1.down k, run.2.map (Token.down k)) =
      (Rego.Annotation.ofRun? run).map (Rego.Annotation.down k) := by
  unfold Annotation.ofRun?
  dsimp only
  rw [getLastD_down, List.findSome?_map]
  have htext : (run.1.down k).text = run.1.text := rfl
  rw [htext]
  split <;> rfl

theorem annotations_down (tokens : List Token) :
    Annotation.ofTokens (tokens.map (Token.down k)) =
      (Rego.Annotation.ofTokens tokens).map (Rego.Annotation.down k) := by
  unfold Annotation.ofTokens
  rw [aloneComments_down]
  cases aloneComments true tokens with
  | nil => rfl
  | cons t ts =>
    have hruns := commentRuns_down k t [] ts
    rw [List.map_cons, runsOf, runsOf]
    rw [List.map_nil] at hruns
    rw [hruns, List.filterMap_map, List.map_filterMap]
    congr 1
    funext run
    exact ofRun?_down k run

end Rego

end PolicyLint
