import Mathlib.Data.List.Basic
import PolicyLint.Proofs.Rego.Grammar
import PolicyLint.Proofs.Rego.Shifted
import PolicyLint.Proofs.Rego.Uncommented
/-!
# One text behind another

Parsing goes statement by statement: what a text declares does not depend on the text that stands before
it, an empty line apart, as long as that one parses and its last line does not go on
(`parse_append`). It is declared further down, and that is all.

The parser keeps track of seven things while it reads. After a text that parses, brackets are closed and
a statement has started; if nothing goes on, then behind a line feed the parser knows no more than
this (`nearby_behind`). Only annotations look over the line: a run of comments ends where a line is
missing, and an annotation belongs to what stands directly below it.
-/

namespace PolicyLint.Rego

/-! ## The law -/

def lineFeeds (text : String) : Nat :=
  text.toList.count '\n'

/-- A module with what another one declares behind its own. -/
def Module.followedBy (m n : Module) : Module :=
  { m with
    imports := m.imports ++ n.imports
    rules := m.rules ++ n.rules
    annotations := m.annotations ++ n.annotations
    comments := m.comments ++ n.comments
    calls := m.calls ++ n.calls }

/-! ## Tokens -/

/-- The tokens of a text that starts on some line. -/
def tokensOn (line : Nat) (text : String) : List Token :=
  Lexeme.tokensFrom ⟨line, 0⟩ (Lexeme.ofChars text.toList)

variable {x b : String} {front us : List Token}

/-- Two texts with an empty line between them have tokens if both have, and then they are theirs. -/
theorem tokenize_append (hx : tokenize x = .ok front) (b : String) :
    ∃ n n' : Token, n.kind = .newline ∧ n'.kind = .newline ∧ ∀ tokens,
      tokenize (x ++ "\n\n" ++ b) = .ok tokens ↔ Lexeme.Faultless (Lexeme.ofChars b.toList) ∧
        front ++ n :: n' :: tokensOn (lineFeeds x + 2) b = tokens := by
  obtain ⟨hfaultless, hfront⟩ := tokenize_eq_ok_iff.1 hx
  have hchars : (x ++ "\n\n" ++ b).toList = x.toList ++ '\n' :: '\n' :: b.toList := by
    simp
  have hlexemes : Lexeme.ofChars (x ++ "\n\n" ++ b).toList =
      Lexeme.ofChars x.toList ++ .newline :: .newline :: Lexeme.ofChars b.toList := by
    rw [hchars, Lexeme.ofChars_line hfaultless.lineBound, Lexeme.ofChars_newline]
  have hbelow : ((Cursor.after {} x.toList).after ['\n']).after ['\n'] = ⟨lineFeeds x + 2, 0⟩ := by
    simp [Cursor.step, Cursor.line_after, lineFeeds]
  have hall : Lexeme.Faultless (Lexeme.ofChars x.toList ++ .newline :: .newline ::
      Lexeme.ofChars b.toList) ↔ Lexeme.Faultless (Lexeme.ofChars b.toList) := by
    rw [Lexeme.Faultless, List.forall_mem_append, List.forall_mem_cons, List.forall_mem_cons]
    exact ⟨fun h => h.2.2.2, fun h => ⟨hfaultless, rfl, rfl, h⟩⟩
  obtain ⟨n, n', hn, hn', htokens⟩ : ∃ n n' : Token, n.kind = .newline ∧ n'.kind = .newline ∧
      Lexeme.tokensFrom {} (Lexeme.ofChars x.toList ++ .newline :: .newline ::
        Lexeme.ofChars b.toList) = front ++ n :: n' :: tokensOn (lineFeeds x + 2) b := by
    rw [Lexeme.tokensFrom_append, flatMap_chars_ofChars, hfront, Lexeme.tokensFrom_newline,
      Lexeme.tokensFrom_newline, hbelow]
    refine ⟨_, _, ?_, ?_, rfl⟩ <;> rfl
  refine ⟨n, n', hn, hn', fun tokens => ?_⟩
  rw [tokenize_eq_ok_iff, hlexemes, hall, htokens]

/-! ## Spots -/

/-- Nothing is wrong with spots that others stand before. -/
def InOrder (spots : List Spot) : Prop :=
  (∀ s ∈ spots, s.statementFault? = none ∧ s.bracketFault? = none) ∧ Spot.leftOpen spots = []

variable {spots later : List Spot}

/-- Where nothing is wrong with what stands before, all that is wrong is wrong with the rest. -/
theorem errorsOf_append_eq_nil_iff (h : errorsOf spots = []) :
    errorsOf (spots ++ later) = [] ↔ InOrder later := by
  obtain ⟨hne, hstatements, hbrackets, hopen⟩ := errorsOf_eq_nil_iff.1 h
  have hleft : Spot.leftOpen (spots ++ later) = Spot.leftOpen later := by
    unfold Spot.leftOpen at hopen ⊢
    rw [List.getLast?_append]
    cases later.getLast? with
    | none => exact hopen
    | some s => rfl
  rw [errorsOf_eq_nil_iff, hleft, InOrder]
  constructor
  · rintro ⟨-, hst, hb, hl⟩
    exact ⟨fun s hs => ⟨hst s (List.mem_append_right _ hs), hb s (List.mem_append_right _ hs)⟩, hl⟩
  · rintro ⟨hlater, hl⟩
    refine ⟨by simp [hne], fun s hs => ?_, fun s hs => ?_, hl⟩
    · rcases List.mem_append.1 hs with hs | hs
      · exact hstatements s hs
      · exact (hlater s hs).1
    · rcases List.mem_append.1 hs with hs | hs
      · exact hbrackets s hs
      · exact (hlater s hs).2

theorem inOrder_down (k : UInt32) : InOrder (spots.map (Spot.down k)) ↔ InOrder spots := by
  rw [InOrder, InOrder, leftOpen_down, List.map_eq_nil_iff, List.forall_mem_map]
  simp only [Spot.statementFault?_down, Spot.bracketFault?_down]

theorem role_ne_first {c : Surroundings} (hc : c.started = true) {s : Spot}
    (h : s ∈ Spot.ofTokens c us) : s.role ≠ .first := by
  induction us generalizing c with
  | nil => cases h
  | cons t ts ih =>
    unfold Spot.ofTokens at h
    split at h
    · rcases List.mem_cons.1 h with rfl | h
      · unfold Surroundings.spot Surroundings.role
        rw [hc]
        split <;> simp
      · exact ih (by simp [Surroundings.next, hc]) h
    · exact ih (c := c.pass t) hc h

section

variable {n n' : Token} (hn' : n'.kind = .newline)
  (hfront : errorsOf (Spot.ofTokens {} front) = []) (hcomplete : Complete front)

include hn' hfront hcomplete

/-- What the parser knows behind a text that parses and does not go on, and line feeds. -/
theorem nearby_behind (after : List Token) :
    (((Surroundings.read {} front after).pass n).pass n').nearby =
      ({ started := true } : Surroundings).nearby := by
  have hgrammatical := grammatical_of_errorsOf hfront
  have hunclosed := unclosed_eq_nil_iff.2 hgrammatical.nested
  have hopened : (Surroundings.read {} front after).opened = [] := opened_read hunclosed
  have hcontinues := (continues_read front after).2 hcomplete
  have hstarted : (Surroundings.read {} front after).started = true := by
    obtain ⟨before, t, rest, hsplit, ht, -⟩ := hgrammatical.first
    exact (started_read after (by rw [hunclosed]; rfl)).2 ⟨before, t, rest, hsplit, ht⟩
  simp [Surroundings.pass, Surroundings.nearby, Token.isSignificant, hn', hopened, hcontinues,
    hstarted]

/-- The spots of a text behind another one are its own. -/
theorem map_nearby_behind (hn : n.kind = .newline) (us : List Token) :
    (Spot.ofTokens {} (front ++ n :: n' :: us)).map Spot.nearby =
      (Spot.ofTokens {} front ++ Spot.ofTokens { started := true } us).map Spot.nearby := by
  have hinsignificant : n.isSignificant = false ∧ n'.isSignificant = false := by
    simp [Token.isSignificant, hn, hn']
  obtain ⟨hni, hni'⟩ := hinsignificant
  have hknown := nearby_behind (n := n) hn' hfront hcomplete (n :: n' :: us)
  rw [map_nearby_append _ (isBreak_cons hni), Spot.ofTokens, Spot.ofTokens, hni, hni',
    if_neg Bool.false_ne_true, if_neg Bool.false_ne_true, List.map_append,
    (Uncommented.refl us).map_nearby_eq hknown]

/-- What is wrong with a text behind another one is wrong with its own spots. -/
theorem errorsOf_behind (hn : n.kind = .newline) (us : List Token) :
    errorsOf (Spot.ofTokens {} (front ++ n :: n' :: us)) = [] ↔
      InOrder (Spot.ofTokens { started := true } us) := by
  rw [← errorsOf_map_nearby, map_nearby_behind hn' hfront hcomplete hn us, errorsOf_map_nearby,
    errorsOf_append_eq_nil_iff hfront]

end

/-! ## Annotations -/

/-- The annotations that comments make, each alone on its line. -/
def annotationsOf (comments : List Token) : List Annotation :=
  (runsOf comments).filterMap Annotation.ofRun?

theorem aloneComments_append {n : Token} (hn : n.kind = .newline) (lineStart : Bool) :
    aloneComments lineStart (front ++ n :: us) =
      aloneComments lineStart front ++ aloneComments true us := by
  induction front generalizing lineStart with
  | nil => simp [aloneComments, hn]
  | cons t ts ih =>
    rw [List.cons_append, aloneComments, aloneComments, ih, ih, ih]
    split
    · rfl
    · split
      · split <;> rfl
      · rfl

theorem mem_of_mem_aloneComments {lineStart : Bool} {t : Token}
    (h : t ∈ aloneComments lineStart us) : t ∈ us ∧ t.kind = .comment := by
  induction us generalizing lineStart with
  | nil => cases h
  | cons u us ih =>
    have hlater {b : Bool} (h : t ∈ aloneComments b us) : t ∈ u :: us ∧ t.kind = .comment :=
      ⟨List.mem_cons_of_mem u (ih h).1, (ih h).2⟩
    rw [aloneComments] at h
    split at h
    · exact hlater h
    · split at h
      · next hu =>
        split at h
        · rcases List.mem_cons.1 h with rfl | h
          · exact ⟨List.mem_cons_self .., hu⟩
          · exact hlater h
        · exact hlater h
      · exact hlater h

/-- A run ends before a comment that none of it stands directly above. -/
theorem commentRuns_append {t : Token} {ts : List Token} (first : Token) (run : List Token)
    (h : ∀ c ∈ first :: (run ++ ts), c.range.stop.line + 1 ≠ t.line) :
    commentRuns first run (ts ++ t :: us) = commentRuns first run ts ++ commentRuns t [] us := by
  induction ts generalizing first run with
  | nil =>
    rw [List.append_nil] at h
    have hlast : (run.getLastD first).range.stop.line + 1 ≠ t.line := h _ List.getLastD_mem_cons
    simp only [List.nil_append, commentRuns, if_neg hlast, List.singleton_append]
  | cons u ts ih =>
    rw [List.cons_append, commentRuns, commentRuns]
    split
    · exact ih first (run ++ [u]) (by simpa using h)
    · rw [ih u [] fun c hc => h c (by simp_all), List.cons_append]

/-- No comment among some tokens stands directly above one of the others. -/
def NotAbove (front us : List Token) : Prop :=
  ∀ t ∈ front, t.kind = .comment → ∀ u ∈ us, t.range.stop.line + 1 ≠ u.line

/-- Comments that are not next to each other make annotations of their own. -/
theorem annotationsOf_append (h : NotAbove front us) :
    annotationsOf (aloneComments true front ++ aloneComments true us) =
      annotationsOf (aloneComments true front) ++ annotationsOf (aloneComments true us) := by
  have hmem (ts : List Token) : ∀ c ∈ aloneComments true ts, c ∈ ts ∧ c.kind = .comment :=
    fun c hc => mem_of_mem_aloneComments hc
  have hfront := hmem front
  have hus := hmem us
  unfold annotationsOf
  rw [← List.filterMap_append]
  congr 1
  cases hc : aloneComments true front with
  | nil => rfl
  | cons c cs =>
    cases hd : aloneComments true us with
    | nil => simp [runsOf]
    | cons d ds =>
      rw [hc] at hfront
      rw [hd] at hus
      have hd := (hus d (List.mem_cons_self ..)).1
      exact commentRuns_append c [] fun e he => h e (hfront e he).1 (hfront e he).2 d hd

theorem mem_of_mem_commentRuns {first : Token} {run ts : List Token} {r : Token × List Token}
    (h : r ∈ commentRuns first run ts) {c : Token} (hc : c ∈ r.1 :: r.2) :
    c ∈ first :: (run ++ ts) := by
  induction ts generalizing first run with
  | nil =>
    rw [List.mem_singleton.1 h] at hc
    rwa [List.append_nil]
  | cons t ts ih =>
    rw [commentRuns] at h
    split at h
    · simpa using ih h
    · rcases List.mem_cons.1 h with rfl | h
      · exact List.mem_append_left (t :: ts) hc
      · exact List.mem_cons_of_mem first (List.mem_append_right run (ih h))

theorem exists_comment_of_mem_annotationsOf {a : Annotation}
    (h : a ∈ annotationsOf (aloneComments true us)) :
    ∃ t ∈ us, t.kind = .comment ∧ a.range.stop = t.range.stop := by
  obtain ⟨r, hr, ha⟩ := List.mem_filterMap.1 h
  have hlast : r.2.getLastD r.1 ∈ aloneComments true us := by
    cases halone : aloneComments true us with
    | nil => simp [halone, runsOf] at hr
    | cons c cs =>
      rw [halone] at hr
      exact mem_of_mem_commentRuns hr List.getLastD_mem_cons
  obtain ⟨hmem, hkind⟩ := mem_of_mem_aloneComments hlast
  unfold Annotation.ofRun? at ha
  split at ha
  · cases ha
    exact ⟨_, hmem, hkind, rfl⟩
  · cases ha

/-- An annotation of comments that are not above a token does not say anything of it. -/
theorem endsAbove_eq_false (h : NotAbove front us) {a : Annotation}
    (ha : a ∈ annotationsOf (aloneComments true front)) {u : Token} (hu : u ∈ us) :
    a.endsAbove u.line = false := by
  obtain ⟨t, ht, hkind, hstop⟩ := exists_comment_of_mem_annotationsOf ha
  have hline := h t ht hkind u hu
  rw [← hstop] at hline
  exact beq_eq_false_iff_ne.2 hline

/-! ## Modules -/

/-- The spots of a text that starts on some line behind another one. -/
def spotsOn (line : Nat) (text : String) : List Spot :=
  Spot.ofTokens { started := true } (tokensOn line text)

theorem parse_eq_ok_iff {text : String} {m : Module} : parse text = .ok m ↔
    ∃ tokens, tokenize text = .ok tokens ∧ errorsOf (Spot.ofTokens {} tokens) = [] ∧
      Module.ofTokens tokens = m := by
  constructor
  · intro h
    obtain ⟨tokens, htokens, herrors, rfl⟩ := tokens_of_parse h
    exact ⟨tokens, htokens, herrors, rfl⟩
  · rintro ⟨tokens, htokens, herrors, rfl⟩
    simp only [parse, htokens, parseTokens, herrors]

/-- The module of a text and another one behind it: their spots are their own, and only annotations may
reach from one to the other. -/
theorem ofTokens_behind {n n' : Token} (hn : n.kind = .newline) (hn' : n'.kind = .newline)
    (hfront : errorsOf (Spot.ofTokens {} front) = []) (hcomplete : Complete front)
    (us : List Token) : Module.ofTokens (front ++ n :: n' :: us) =
      Module.ofSpots (Spot.ofTokens {} front ++ Spot.ofTokens { started := true } us)
        (annotationsOf (aloneComments true front ++ aloneComments true us))
        (front.filterMap Comment.ofToken? ++ us.filterMap Comment.ofToken?) := by
  have hannotations : Annotation.ofTokens (front ++ n :: n' :: us) =
      annotationsOf (aloneComments true front ++ aloneComments true us) := by
    unfold Annotation.ofTokens annotationsOf
    rw [aloneComments_append hn, aloneComments, if_pos hn']
  have hnone : Comment.ofToken? n = none ∧ Comment.ofToken? n' = none := by
    simp [Comment.ofToken?, hn, hn']
  rw [Module.ofTokens_eq, ← Module.ofSpots_map_nearby, map_nearby_behind hn' hfront hcomplete hn,
    Module.ofSpots_map_nearby, hannotations, List.filterMap_append, List.filterMap_cons, hnone.1,
    List.filterMap_cons, hnone.2]

/-- Two texts with an empty line between them parse if both do, and then they declare what both do;
only annotations may reach from one to the other. -/
theorem parse_append_eq_ok_iff (hx : tokenize x = .ok front)
    (hfront : errorsOf (Spot.ofTokens {} front) = []) (hcomplete : Complete front) {r : Module} :
    parse (x ++ "\n\n" ++ b) = .ok r ↔ Lexeme.Faultless (Lexeme.ofChars b.toList) ∧
      InOrder (spotsOn (lineFeeds x + 2) b) ∧
      Module.ofSpots (Spot.ofTokens {} front ++ spotsOn (lineFeeds x + 2) b)
        (annotationsOf (aloneComments true front ++
          aloneComments true (tokensOn (lineFeeds x + 2) b)))
        (front.filterMap Comment.ofToken? ++
          (tokensOn (lineFeeds x + 2) b).filterMap Comment.ofToken?) = r := by
  obtain ⟨n, n', hn, hn', htokens⟩ := tokenize_append hx b
  have herrors := errorsOf_behind hn' hfront hcomplete hn (tokensOn (lineFeeds x + 2) b)
  have hmodule := ofTokens_behind hn hn' hfront hcomplete (tokensOn (lineFeeds x + 2) b)
  rw [parse_eq_ok_iff, spotsOn, ← hmodule, ← herrors]
  constructor
  · rintro ⟨tokens, ht, he, rfl⟩
    obtain ⟨hfaultless, rfl⟩ := (htokens tokens).1 ht
    exact ⟨hfaultless, he, rfl⟩
  · rintro ⟨hfaultless, he, rfl⟩
    exact ⟨_, (htokens _).2 ⟨hfaultless, rfl⟩, he, rfl⟩

section

variable {annotations annotations' : List Annotation} {applies : Annotation → Bool} {line : UInt32}

theorem annotatedAbove_append : annotatedAbove (annotations ++ annotations') applies line =
    (annotatedAbove annotations applies line || annotatedAbove annotations' applies line) :=
  List.any_append

theorem annotatedAbove_eq_false (h : ∀ a ∈ annotations, a.endsAbove line = false) :
    annotatedAbove annotations applies line = false := by
  rw [annotatedAbove, List.any_eq_false]
  intro a ha
  simp [h a ha]

/-- Spots behind others, with annotations that do not reach over, declare what they do themselves. -/
theorem ofSpots_append (comments comments' : List Comment) (hlater : ∀ s ∈ later, s.role ≠ .first)
    (habove : ∀ s ∈ spots, ∀ a ∈ annotations', a.endsAbove s.token.line = false)
    (hbelow : ∀ s ∈ later, ∀ a ∈ annotations, a.endsAbove s.token.line = false) :
    Module.ofSpots (spots ++ later) (annotations ++ annotations') (comments ++ comments') =
      (Module.ofSpots spots annotations comments).followedBy
        (Module.ofSpots later annotations' comments') := by
  have hspots (s : Spot) (hs : s ∈ spots) (applies : Annotation → Bool) :
      annotatedAbove (annotations ++ annotations') applies s.token.line =
        annotatedAbove annotations applies s.token.line := by
    rw [annotatedAbove_append, annotatedAbove_eq_false (habove s hs), Bool.or_false]
  have hlaters (s : Spot) (hs : s ∈ later) (applies : Annotation → Bool) :
      annotatedAbove (annotations ++ annotations') applies s.token.line =
        annotatedAbove annotations' applies s.token.line := by
    rw [annotatedAbove_append, annotatedAbove_eq_false (hbelow s hs), Bool.false_or]
  have hpackage : (spots ++ later).findSome? (·.package? (annotations ++ annotations')) =
      spots.findSome? (·.package? annotations) := by
    have hnone : later.filterMap (·.package? (annotations ++ annotations')) = [] :=
      List.filterMap_eq_nil_iff.2 fun s hs => if_neg (hlater s hs)
    have hsame : spots.filterMap (·.package? (annotations ++ annotations')) =
        spots.filterMap (·.package? annotations) :=
      List.filterMap_congr fun s hs => by rw [Spot.package?, Spot.package?, hspots s hs]
    rw [← List.head?_filterMap, ← List.head?_filterMap, List.filterMap_append, hnone, hsame,
      List.append_nil]
  have hrules : (spots ++ later).filterMap (·.rule? (annotations ++ annotations')) =
      spots.filterMap (·.rule? annotations) ++ later.filterMap (·.rule? annotations') := by
    rw [List.filterMap_append]
    congr 1
    · exact List.filterMap_congr fun s hs => by rw [Spot.rule?, Spot.rule?, hspots s hs]
    · exact List.filterMap_congr fun s hs => by rw [Spot.rule?, Spot.rule?, hlaters s hs]
  simp only [Module.ofSpots, Module.followedBy, hpackage, hrules, List.filterMap_append]

end

theorem uncommented_followedBy (m n : Module) :
    (m.followedBy n).uncommented = m.uncommented.followedBy n.uncommented := by
  simp [Module.followedBy, Module.uncommented]

/-! ## Lines -/

theorem lines_of_mem_tokensFrom {here : Cursor} {xs : List Lexeme} {t : Token}
    (ht : t ∈ Lexeme.tokensFrom here xs) : ∃ i j, here.line ≤ i ∧ i ≤ j ∧
      j ≤ here.line + (xs.flatMap Lexeme.chars).count '\n' ∧ t.line = .ofNat i ∧
      t.range.stop.line = .ofNat j := by
  induction xs generalizing here with
  | nil => cases ht
  | cons x xs ih =>
    have hline := Cursor.line_after here x.chars
    rw [List.flatMap_cons, List.count_append]
    rw [Lexeme.tokensFrom_cons] at ht
    rcases List.mem_append.1 ht with ht | ht
    · obtain ⟨⟨kind, text⟩, -, rfl⟩ := Option.map_eq_some_iff.1 (Option.mem_toList.1 ht)
      exact ⟨here.line, (here.after x.chars).line, Nat.le_refl _, by omega, by omega, rfl, rfl⟩
    · obtain ⟨i, j, hi, hij, hj, hstart, hstop⟩ := ih ht
      exact ⟨i, j, by omega, hij, by omega, hstart, hstop⟩

theorem next_line_ne {i j : Nat} (hi : i + 1 < UInt32.size) (hj : j < UInt32.size) (h : i + 1 ≠ j) :
    UInt32.ofNat i + 1 ≠ UInt32.ofNat j := by
  intro heq
  have hnext : UInt32.ofNat (i + 1) = UInt32.ofNat j := by
    rw [← heq, UInt32.ofNat_add]
    rfl
  have hnat := congrArg UInt32.toNat hnext
  rw [toNat_ofNat_of_lt hi, toNat_ofNat_of_lt hj] at hnat
  exact h hnat

/-- Between two texts a line is empty, so neither stands directly above the other. -/
theorem notAbove_of_lines (hx : tokenize x = .ok front)
    (hlines : lineFeeds (x ++ "\n\n" ++ b) + 1 < UInt32.size) :
    NotAbove front (tokensOn (lineFeeds x + 2) b) ∧ NotAbove (tokensOn (lineFeeds x + 2) b) front := by
  have hcount : lineFeeds (x ++ "\n\n" ++ b) = lineFeeds x + 2 + lineFeeds b := by
    simp [lineFeeds, List.count_append]
    omega
  obtain ⟨-, rfl⟩ := tokenize_eq_ok_iff.1 hx
  have hfront (t : Token) (ht : t ∈ Lexeme.tokensFrom {} (Lexeme.ofChars x.toList)) :
      ∃ i j, i ≤ j ∧ j ≤ lineFeeds x ∧ t.line = .ofNat i ∧ t.range.stop.line = .ofNat j := by
    obtain ⟨i, j, -, hij, hj, hstart, hstop⟩ := lines_of_mem_tokensFrom ht
    rw [flatMap_chars_ofChars] at hj
    exact ⟨i, j, hij, by simpa [lineFeeds] using hj, hstart, hstop⟩
  have hlater (u : Token) (hu : u ∈ tokensOn (lineFeeds x + 2) b) :
      ∃ i j, lineFeeds x + 2 ≤ i ∧ i ≤ j ∧ j ≤ lineFeeds x + 2 + lineFeeds b ∧
        u.line = .ofNat i ∧ u.range.stop.line = .ofNat j := by
    obtain ⟨i, j, hi, hij, hj, hstart, hstop⟩ := lines_of_mem_tokensFrom hu
    rw [flatMap_chars_ofChars] at hj
    exact ⟨i, j, hi, hij, hj, hstart, hstop⟩
  rw [hcount] at hlines
  refine ⟨fun t ht _ u hu => ?_, fun u hu _ t ht => ?_⟩
  · obtain ⟨i, j, hij, hj, -, hstop⟩ := hfront t ht
    obtain ⟨i', j', hi', hij', hj', hstart, -⟩ := hlater u hu
    rw [hstop, hstart]
    exact next_line_ne (by omega) (by omega) (by omega)
  · obtain ⟨i, j, hij, hj, hstart, -⟩ := hfront t ht
    obtain ⟨i', j', hi', hij', hj', -, hstop⟩ := hlater u hu
    rw [hstop, hstart]
    exact next_line_ne (by omega) (by omega) (by omega)

/-! ## One text behind another -/

/-- What a text declares that starts on some line behind another one. -/
def declaredOn (line : Nat) (text : String) : Module :=
  Module.ofSpots (spotsOn line text) (annotationsOf (aloneComments true (tokensOn line text)))
    ((tokensOn line text).filterMap Comment.ofToken?)

theorem token_mem_tokensOn {line : Nat} {text : String} {s : Spot} (hs : s ∈ spotsOn line text) :
    s.token ∈ tokensOn line text := by
  obtain ⟨before, hbefore⟩ := exists_before_of_mem_spots hs
  rw [hbefore]
  simp

theorem tokensOn_add (line n : Nat) (text : String) :
    tokensOn (line + n) text = (tokensOn line text).map (Token.down (.ofNat n)) :=
  Lexeme.tokensFrom_down n ⟨line, 0⟩ _

theorem spotsOn_add (line n : Nat) (text : String) :
    spotsOn (line + n) text = (spotsOn line text).map (Spot.down (.ofNat n)) := by
  rw [spotsOn, tokensOn_add]
  exact spots_down (.ofNat n) { started := true } (tokensOn line text)

/-- A text declares the same on all lines. -/
theorem followedBy_declaredOn (m : Module) (line n : Nat) (text : String) :
    m.followedBy (declaredOn (line + n) text) =
      m.followedBy ((declaredOn line text).down (.ofNat n)) := by
  have hannotations : annotationsOf (aloneComments true (tokensOn (line + n) text)) =
      (annotationsOf (aloneComments true (tokensOn line text))).map (Rego.Annotation.down (.ofNat n)) := by
    rw [tokensOn_add]
    exact annotations_down (.ofNat n) (tokensOn line text)
  rw [declaredOn, declaredOn, spotsOn_add, hannotations, tokensOn_add]
  simp only [Module.followedBy, Module.ofSpots, Module.down, List.filterMap_map, List.map_filterMap,
    Function.comp_def, Spot.import?_down, Spot.rule?_down, Spot.call?_down, Comment.ofToken?_down]

/-- What two texts declare that parse together. -/
theorem declared_append (hx : tokenize x = .ok front)
    (hfront : errorsOf (Spot.ofTokens {} front) = []) (hcomplete : Complete front) {r : Module}
    (h : parse (x ++ "\n\n" ++ b) = .ok r) :
    r.uncommented =
      ((Module.ofTokens front).followedBy (declaredOn (lineFeeds x + 2) b)).uncommented ∧
    r.comments = (Module.ofTokens front).comments ++ (declaredOn (lineFeeds x + 2) b).comments ∧
    (lineFeeds (x ++ "\n\n" ++ b) + 1 < UInt32.size →
      r = (Module.ofTokens front).followedBy (declaredOn (lineFeeds x + 2) b)) := by
  obtain ⟨-, -, rfl⟩ := (parse_append_eq_ok_iff hx hfront hcomplete).1 h
  have hlater : ∀ s ∈ spotsOn (lineFeeds x + 2) b, s.role ≠ .first :=
    fun s hs => role_ne_first rfl hs
  refine ⟨?_, rfl, fun hlines => ?_⟩
  · have hnone := @ofSpots_append (Spot.ofTokens {} front) _ [] [] [] [] hlater (by simp) (by simp)
    rw [Module.uncommented_ofSpots, uncommented_followedBy, Module.ofTokens_eq,
      Module.uncommented_ofSpots, declaredOn, Module.uncommented_ofSpots]
    exact hnone
  · obtain ⟨habove, hbelow⟩ := notAbove_of_lines hx hlines
    rw [annotationsOf_append habove]
    refine ofSpots_append _ _ hlater (fun s hs a ha => ?_) fun s hs a ha => ?_
    · exact endsAbove_eq_false hbelow ha (mem_of_mem_spots hs)
    · exact endsAbove_eq_false habove ha (token_mem_tokensOn hs)

/-- What the text of a package and another one behind it declare. -/
theorem declared_behind_package {n : Module} (h : parse ("package q\n\n" ++ b) = .ok n) :
    (Lexeme.Faultless (Lexeme.ofChars b.toList) ∧ InOrder (spotsOn 2 b)) ∧
      n = { declaredOn 2 b with package := n.package } := by
  let front : List Token :=
    [⟨.ident, "package", ⟨⟨0, 0⟩, ⟨0, 7⟩⟩⟩, ⟨.ident, "q", ⟨⟨0, 8⟩, ⟨0, 9⟩⟩⟩]
  have hfront : tokenize "package q" = .ok front := toOption_eq_some_iff.1 (by decide +kernel)
  have herrors : errorsOf (Spot.ofTokens {} front) = [] := by decide +kernel
  have hcomplete : Complete front := by decide +kernel
  have hlines : lineFeeds "package q" = 0 := by decide +kernel
  have htext : "package q\n\n" ++ b = "package q" ++ "\n\n" ++ b := rfl
  rw [htext, parse_append_eq_ok_iff hfront herrors hcomplete, hlines] at h
  obtain ⟨hfaultless, horder, hn⟩ := h
  refine ⟨⟨hfaultless, horder⟩, ?_⟩
  -- the two tokens of the package declare nothing else
  have himports : (Spot.ofTokens {} front).filterMap (·.import?) = [] := by decide +kernel
  have hrules (annotations : List Annotation) :
      (Spot.ofTokens {} front).filterMap (·.rule? annotations) = [] := rfl
  have hcalls : (Spot.ofTokens {} front).filterMap (·.call?) = [] := by decide +kernel
  have hcomments : aloneComments true front = [] ∧ front.filterMap Comment.ofToken? = [] :=
    ⟨rfl, rfl⟩
  rw [← hn, hcomments.1, hcomments.2]
  simp only [declaredOn, Module.ofSpots, List.filterMap_append, himports, hrules, hcalls,
    List.nil_append, Nat.zero_add]

/-- A text that parses, and whose last line does not go on, declares the same with another one behind
it, and that declares the same as behind a package; only annotations are told apart by the numbers of
their lines, which are 32-bit words. -/
theorem parse_append {a b : String} {m n : Module} (ha : parse a = .ok m)
    (hcomplete : ∀ tokens, tokenize a = .ok tokens → Complete tokens)
    (hb : parse ("package q\n\n" ++ b) = .ok n) :
    ∃ r, parse (a ++ "\n\n" ++ b) = .ok r ∧
      r.uncommented = (m.followedBy (n.down (.ofNat (lineFeeds a)))).uncommented ∧
      r.comments = m.comments ++ n.comments.map (Comment.down (.ofNat (lineFeeds a))) ∧
      (lineFeeds (a ++ "\n\n" ++ b) + 1 < UInt32.size →
        r = m.followedBy (n.down (.ofNat (lineFeeds a)))) := by
  obtain ⟨front, hfront, herrors, rfl⟩ := parse_eq_ok_iff.1 ha
  obtain ⟨⟨hfaultless, horder⟩, hn⟩ := declared_behind_package hb
  -- behind `a` stands what stands behind the package, further down
  have hbehind : (Module.ofTokens front).followedBy (declaredOn (lineFeeds a + 2) b) =
      (Module.ofTokens front).followedBy (n.down (.ofNat (lineFeeds a))) := by
    rw [Nat.add_comm, followedBy_declaredOn, hn]
    rfl
  have horder' : InOrder (spotsOn (lineFeeds a + 2) b) := by
    rw [Nat.add_comm, spotsOn_add, inOrder_down]
    exact horder
  obtain ⟨r, hr⟩ : ∃ r, parse (a ++ "\n\n" ++ b) = .ok r :=
    ⟨_, (parse_append_eq_ok_iff hfront herrors (hcomplete front hfront)).2
      ⟨hfaultless, horder', rfl⟩⟩
  obtain ⟨huncommented, hcomments, hall⟩ :=
    declared_append hfront herrors (hcomplete front hfront) hr
  rw [hbehind] at huncommented hall
  exact ⟨r, hr, huncommented, hcomments.trans (congrArg Module.comments hbehind), hall⟩

/-- Two rules with an annotation each, and a comment that the first text ends in. -/
theorem parse_append_annotated_rules :
    let a := "package a\n\n# METADATA\nx := 1 # METADATA"
    let b := "# METADATA\ny := f(x)"
    let m : Module := {
      package := ⟨["a"], ⟨⟨0, 0⟩, ⟨0, 7⟩⟩, false⟩
      rules := [⟨"x", ⟨⟨3, 0⟩, ⟨3, 1⟩⟩, false, true⟩]
      annotations := [⟨none, ⟨⟨2, 0⟩, ⟨2, 10⟩⟩⟩]
      comments := [⟨" METADATA", ⟨⟨2, 0⟩, ⟨2, 10⟩⟩⟩, ⟨" METADATA", ⟨⟨3, 7⟩, ⟨3, 17⟩⟩⟩] }
    let n : Module := {
      package := ⟨["q"], ⟨⟨0, 0⟩, ⟨0, 7⟩⟩, false⟩
      rules := [⟨"y", ⟨⟨3, 0⟩, ⟨3, 1⟩⟩, false, true⟩]
      annotations := [⟨none, ⟨⟨2, 0⟩, ⟨2, 10⟩⟩⟩]
      comments := [⟨" METADATA", ⟨⟨2, 0⟩, ⟨2, 10⟩⟩⟩]
      calls := [⟨"f", ⟨⟨3, 5⟩, ⟨3, 6⟩⟩⟩] }
    parse a = .ok m ∧ parse ("package q\n\n" ++ b) = .ok n ∧ lineFeeds a = 3 ∧
      (∀ tokens, tokenize a = .ok tokens → Complete tokens) ∧
      parse (a ++ "\n\n" ++ b) = .ok (m.followedBy (n.down 3)) := by
  intro a b m n
  have hm : parse a = .ok m := toOption_eq_some_iff.1 (by decide +kernel)
  have hn : parse ("package q\n\n" ++ b) = .ok n := toOption_eq_some_iff.1 (by decide +kernel)
  have hlines : lineFeeds a = 3 := by decide +kernel
  have hcomplete : ∀ tokens, tokenize a = .ok tokens → Complete tokens := by
    have hall : (tokenize a).toOption.all (fun tokens => decide (Complete tokens)) = true := by
      decide +kernel
    intro tokens htokens
    simpa [htokens, Except.toOption] using hall
  obtain ⟨r, hr, -, -, hall⟩ := parse_append hm hcomplete hn
  rw [hall (by decide +kernel), hlines] at hr
  exact ⟨hm, hn, hlines, hcomplete, hr⟩

end PolicyLint.Rego
