import PolicyLint.Proofs.Rego.AnnotatedStatements
import PolicyLint.Proofs.Rego.TokenRuns
/-!
# Locations select what they name

Each range that a module gives is the range of characters that say what it is about: the word `package`,
the name of a rule, a comment with its `#`, the word `import` and the path behind it, the reference that a
call starts with (`Module.LocatedIn`). In a text whose positions fit into 32 bits the ranges therefore
select exactly these characters, and those of one kind do not meet (`locations_select_what_they_name`).

A declaration covers tokens in a row, and tokens in a row write what they write with blanks between them
(`Behind`). So each range is cut from a text that is covered by tokens, one behind the other
(`Cover.listed`).
-/

namespace PolicyLint.Rego

/-! ## The law -/

/-- How the further parts of a path may be written: points or brackets, and blanks between them. -/
inductive WritesParts : List String → List Char → Prop
  | nil : WritesParts [] []
  | field {gap gap' cs : List Char} {name : String} {path : List String}
      (hgap : ∀ c ∈ gap, IsSkipped c) (hgap' : ∀ c ∈ gap', IsSkipped c) (h : WritesParts path cs) :
      WritesParts (name :: path) (gap ++ '.' :: (gap' ++ (name.toList ++ cs)))
  | index {gap gap' gap'' cs : List Char} {quote : Char} {name : String} {path : List String}
      (hgap : ∀ c ∈ gap, IsSkipped c) (hgap' : ∀ c ∈ gap', IsSkipped c)
      (hgap'' : ∀ c ∈ gap'', IsSkipped c) (hquote : IsQuote quote) (h : WritesParts path cs) :
      WritesParts (name :: path)
        (gap ++ '[' :: (gap' ++ quote :: (name.toList ++ quote :: (gap'' ++ ']' :: cs))))

/-- Some characters write a path: they start with its first part, and end with its last one. -/
def WritesPath (path : List String) (cs : List Char) : Prop :=
  ∃ first parts rest, path = first :: parts ∧ cs = first.toList ++ rest ∧ WritesParts parts rest

/-- Some characters write an import: the word, blanks, and the path. -/
def Import.Writes (i : Import) (cs : List Char) : Prop :=
  ∃ gap path, cs = "import".toList ++ gap ++ path ∧ (∀ c ∈ gap, IsSkipped c) ∧ WritesPath i.path path

/-- Some characters write the name of a call. -/
def Call.Writes (call : Call) (cs : List Char) : Prop :=
  ∃ path, call.name = dotted path ∧ WritesPath path cs

/-- Some characters, with others behind them, write the name of a rule, or that of a call. The parenthesis
of a call follows at once, unless there are more columns than positions can tell. -/
def WritesName (text : String) (w rest : List Char) : Rule ⊕ Call → Prop
  | .inl r => w = r.name.toList
  | .inr call => call.Writes w ∧ ∃ gap back, rest = gap ++ '(' :: back ∧
    (∀ c ∈ gap, IsSkipped c) ∧ (IsSmall text → gap = [])

section

variable {α : Type} (range : α → Range) (Writes : α → List Char → List Char → Prop)

/-- Items of a module, in the order in which they stand in a text. Behind `front`, each has the range of
some characters, at least one, and `Writes x w rest` says that `w` are the characters of `x` and `rest`
follows them. -/
inductive Listed : List Char → List Char → List α → Prop
  | nil {front rest : List Char} : Listed front rest []
  | cons {front gap w rest all : List Char} {x : α} {xs : List α} (hall : all = gap ++ w ++ rest)
      (hne : w ≠ []) (hwrites : Writes x w rest)
      (hrange : range x = ⟨(Cursor.after {} (front ++ gap)).position,
        (Cursor.after {} (front ++ gap ++ w)).position⟩)
      (htail : Listed (front ++ gap ++ w) rest xs) : Listed front all (x :: xs)

end

/-- The ranges of a module are those of the characters that say what they are about. -/
structure Module.LocatedIn (m : Module) (text : String) : Prop where
  /-- `package` is the first token that is neither a comment nor a line feed -/
  package : ∃ before t after, tokenize text = .ok (before ++ t :: after) ∧
    (∀ u ∈ before, u.kind = .comment ∨ u.kind = .newline) ∧ t.isWord "package" = true ∧
    m.package.keyword = t.range
  keyword : Listed Package.keyword (fun _ w _ => w = "package".toList) [] text.toList [m.package]
  path : m.package.path ≠ []
  imports : Listed Import.range (fun i w _ => i.Writes w) [] text.toList m.imports
  comments : Listed Comment.range (fun c w _ => w = '#' :: c.text.toList) [] text.toList m.comments
  /-- the rules and the calls are in one order, so no call is where a rule is -/
  named : ∃ named : List (Rule ⊕ Call), named.filterMap Sum.getLeft? = m.rules ∧
    named.filterMap Sum.getRight? = m.calls ∧
    Listed (Sum.elim Rule.head Call.range) (fun x w rest => WritesName text w rest x) [] text.toList
      named

/-- A range is in front of another one: it starts before that one does, and stops no later than there. -/
def IsInFront (r r' : Range) : Prop :=
  r.start < r'.start ∧ r.stop ≤ r'.start

/-- Ranges are in order, and no two of them meet. -/
def InTextOrder (rs : List Range) : Prop :=
  rs.Pairwise IsInFront

/-- The ranges of a module select what they are about. -/
structure Module.Selects (m : Module) (text : String) : Prop where
  keyword : m.package.keyword.textIn text = "package".toList
  rules : ∀ r ∈ m.rules, r.head.textIn text = r.name.toList
  comments : ∀ c ∈ m.comments, c.range.textIn text = '#' :: c.text.toList
  imports : ∀ i ∈ m.imports, i.Writes (i.range.textIn text)
  calls : ∀ call ∈ m.calls, call.Writes (call.range.textIn text) ∧
    ∃ back, text.toList = call.range.stop.before text ++ '(' :: back
  rulesInOrder : InTextOrder (m.rules.map (·.head))
  importsInOrder : InTextOrder (m.imports.map (·.range))
  commentsInOrder : InTextOrder (m.comments.map (·.range))
  callsInOrder : InTextOrder (m.calls.map (·.range))
  /-- no call is where a rule is -/
  apart : ∀ r ∈ m.rules, ∀ call ∈ m.calls, IsInFront r.head call.range ∨ IsInFront call.range r.head

/-! ## Tokens in a row -/

/-- Tokens write some characters that start behind another token: each blanks and what it writes. -/
inductive Behind : List Token → List Char → Prop
  | nil : Behind [] []
  | cons {t : Token} {ts : List Token} {gap cs : List Char} {quote : Char}
      (hgap : ∀ c ∈ gap, IsSkipped c) (hquote : IsQuote quote) (h : Behind ts cs) :
      Behind (t :: ts) (gap ++ (t.written quote ++ cs))

/-- The text of a token that is a mark is the mark. -/
def Token.SaysMark (t : Token) : Prop :=
  ∀ mark, t.kind = .punct mark → t.text.toList = [mark]

theorem written_of_isPunct {t : Token} (hmark : t.SaysMark) {c quote : Char} (h : t.isPunct c = true) :
    t.written quote = [c] := by
  have hkind : t.kind = .punct c := by simpa [Token.isPunct] using h
  rw [Token.written, hkind]
  exact hmark c hkind

theorem written_of_isIdent {t : Token} {quote : Char} (h : t.isIdent = true) :
    t.written quote = t.text.toList := by
  have hkind : t.kind = .ident := by simpa [Token.isIdent] using h
  rw [Token.written, hkind]

/-- The tokens of further parts write them. -/
theorem Reference.Parts.writesParts {read : List Token} {path : List String} (h : Parts read path)
    (hmarks : ∀ t ∈ read, t.SaysMark) {cs : List Char} (hcs : Behind read cs) : WritesParts path cs := by
  induction h generalizing cs with
  | nil =>
    cases hcs
    exact .nil
  | @field point name tokens path h hrest ih =>
    simp only [List.forall_mem_cons] at hmarks
    rw [isField, Bool.and_eq_true] at h
    obtain _ | ⟨hgap, -, _ | ⟨hgap', -, hcs⟩⟩ := hcs
    rw [written_of_isPunct hmarks.1 h.1, written_of_isIdent h.2]
    exact .field hgap hgap' (ih hmarks.2.2 hcs)
  | @index opening name closing tokens path h hrest ih =>
    simp only [List.forall_mem_cons] at hmarks
    rw [isIndex, Bool.and_eq_true, Bool.and_eq_true, beq_iff_eq] at h
    obtain _ | ⟨hgap, -, _ | ⟨hgap', hquote, _ | ⟨hgap'', -, hcs⟩⟩⟩ := hcs
    rw [written_of_isPunct hmarks.1 h.1.1, written_of_isPunct hmarks.2.2.1 h.2, Token.written, h.1.2]
    simpa using WritesParts.index hgap hgap' hgap'' hquote (ih hmarks.2.2.2 hcs)

/-- Where tokens cover a text, tokens in a row cover what they write. -/
theorem Cover.run {front all : List Char} {t : Token} {used later : List Token}
    (h : Cover front all (t :: (used ++ later))) : ∃ gap quote cs rest,
      all = gap ++ (t.written quote ++ cs) ++ rest ∧ (∀ c ∈ gap, IsSkipped c) ∧ IsQuote quote ∧
      t.written quote ≠ [] ∧ Behind used cs ∧
      (⟨t.range.start, (used.getLastD t).range.stop⟩ : Range) =
        ⟨(Cursor.after {} (front ++ gap)).position,
          (Cursor.after {} (front ++ gap ++ (t.written quote ++ cs))).position⟩ ∧
      Cover (front ++ gap ++ (t.written quote ++ cs)) rest later := by
  induction used generalizing front all t with
  | nil =>
    cases h with
    | @cons _ gap rest _ quote _ _ hall hgap hquote hne hrange htail =>
      refine ⟨gap, quote, [], rest, ?_, hgap, hquote, hne, .nil, ?_, ?_⟩ <;>
        rw [List.append_nil]
      · exact hall
      · exact hrange
      · exact htail
  | cons u used ih =>
    cases h with
    | @cons _ gap rest _ quote _ _ hall hgap hquote hne hrange htail =>
      obtain ⟨gap', quote', cs, rest', hrest, hgap', hquote', -, hcs, hlast, hcover⟩ := ih htail
      refine ⟨gap, quote, gap' ++ (u.written quote' ++ cs), rest', ?_, hgap, hquote, hne,
        .cons hgap' hquote' hcs, ?_, ?_⟩
      · rw [hall, hrest]
        simp only [List.append_assoc]
      · rw [List.getLastD_cons]
        have hstart := congrArg Range.start hrange
        have hstop := congrArg Range.stop hlast
        dsimp only at hstart hstop
        rw [hstart, hstop]
        simp only [List.append_assoc]
      · simpa only [List.append_assoc] using hcover

/-! ## Items in a text -/

section

variable {α : Type} {range : α → Range} {Writes : α → List Char → List Char → Prop} {text : String}
  {front rest all : List Char} {xs : List α}

theorem Listed.skip {gap : List Char} (h : Listed range Writes (front ++ gap) rest xs) :
    Listed range Writes front (gap ++ rest) xs := by
  cases h with
  | nil => exact .nil
  | cons hall hne hwrites hrange htail =>
    rw [List.append_assoc front] at hrange htail
    refine .cons ?_ hne hwrites hrange htail
    rw [hall]
    simp only [List.append_assoc]

/-- Items that cover tokens in a row are listed in a text that the tokens cover, if the characters of each
are what its tokens write. -/
theorem Cover.listed {Covers : Token → List Token → List Token → α → Prop} {tokens : List Token}
    (hcover : Cover front all tokens) (hruns : Runs Covers tokens xs)
    (hrange : ∀ {t used later x}, Covers t used later x →
      range x = ⟨t.range.start, (used.getLastD t).range.stop⟩)
    (hmarks : ∀ t ∈ tokens, t.SaysMark) (htext : text.toList = front ++ all)
    (hwrites : ∀ {t used later x front quote cs rest}, Covers t used later x →
      (∀ u ∈ t :: (used ++ later), u.SaysMark) → IsQuote quote → Behind used cs →
      text.toList = front ++ rest → (range x).stop = (Cursor.after {} front).position →
      Cover front rest later → Writes x (t.written quote ++ cs) rest) :
    Listed range Writes front all xs := by
  induction hruns generalizing front all with
  | nil => exact .nil
  | skip _ ih =>
    cases hcover with
    | cons hall _ _ _ _ htail =>
      rw [hall]
      rw [List.append_assoc] at htail
      refine (ih htail (fun u hu => hmarks u (List.mem_cons_of_mem _ hu)) ?_).skip
      rw [htext, hall]
      simp only [List.append_assoc]
  | @run t used later x xs h _ ih =>
    obtain ⟨gap, quote, cs, rest, hall, -, hquote, hne, hcs, hspan, htail⟩ := hcover.run
    have hx := (hrange h).trans hspan
    have hnext := eq_append_of_split htext hall
    refine .cons hall (by simp [hne]) (hwrites h hmarks hquote hcs hnext ?_ htail) hx
      (ih htail (fun u hu => hmarks u (List.mem_cons_of_mem t (List.mem_append_right used hu))) hnext)
    rw [hx]

namespace Listed

/-- An item stands somewhere behind the front. -/
theorem exists_of_mem (h : Listed range Writes front all xs) {x : α} (hx : x ∈ xs) :
    ∃ gap w rest, all = gap ++ w ++ rest ∧ w ≠ [] ∧ Writes x w rest ∧
      range x = ⟨(Cursor.after {} (front ++ gap)).position,
        (Cursor.after {} (front ++ gap ++ w)).position⟩ := by
  induction h with
  | nil => cases hx
  | @cons front gap w rest all y xs hall hne hwrites hrange _ ih =>
    rcases List.mem_cons.1 hx with rfl | hx
    · exact ⟨gap, w, rest, hall, hne, hwrites, hrange⟩
    · obtain ⟨gap', w', rest', hrest, hne', hwrites', hrange'⟩ := ih hx
      refine ⟨gap ++ w ++ gap', w', rest', ?_, hne', hwrites', ?_⟩
      · rw [hall, hrest]
        simp only [List.append_assoc]
      · simpa only [List.append_assoc] using hrange'

/-- In a small text an item's range selects what the item writes. -/
theorem selects (hs : IsSmall text) (h : Listed range Writes [] text.toList xs) {x : α} (hx : x ∈ xs) :
    ∃ back, Writes x ((range x).textIn text) back ∧ text.toList = (range x).stop.before text ++ back := by
  obtain ⟨gap, w, rest, hall, -, hwrites, hrange⟩ := h.exists_of_mem hx
  rw [hrange, List.nil_append, textIn_after hs hall, before_after hs hall]
  exact ⟨rest, hwrites, hall⟩

/-- In a small text the items are in order, and their ranges do not meet. -/
theorem inTextOrder (hs : IsSmall text) (h : Listed range Writes front all xs)
    (htext : text.toList = front ++ all) : InTextOrder (xs.map range) := by
  refine List.pairwise_map.2 ?_
  induction h with
  | nil => exact .nil
  | @cons front gap w rest all x xs hall hne hwrites hrange htail ih =>
    have hnext := eq_append_of_split htext hall
    refine .cons (fun y hy => ?_) (ih hnext)
    obtain ⟨gap', w', rest', hrest, -, -, hrange'⟩ := htail.exists_of_mem hy
    rw [hrest] at hnext
    rw [hrange, hrange']
    have hbefore : text.toList = front ++ gap ++ (w ++ gap') ++ (w' ++ rest') := by
      rw [hnext]
      simp only [List.append_assoc]
    have hbehind : text.toList = front ++ gap ++ w ++ gap' ++ (w' ++ rest') := by
      rw [hnext]
      simp only [List.append_assoc]
    refine ⟨?_, after_le hs hbehind⟩
    have hlt := after_lt hs hbefore (by simp [hne])
    rwa [← List.append_assoc] at hlt

end Listed

namespace InTextOrder

/-- Some of the ranges are in order, too. -/
theorem filterMap {β : Type} {range' : β → Range} {f : α → Option β} (h : InTextOrder (xs.map range))
    (hf : ∀ x y, f x = some y → range' y = range x) : InTextOrder ((xs.filterMap f).map range') := by
  refine List.pairwise_map.2 (List.pairwise_filterMap.2 ?_)
  refine (List.pairwise_map.1 h).imp fun {x x'} hxx' y hy y' hy' => ?_
  rw [hf x y hy, hf x' y' hy']
  exact hxx'

/-- One of two items is in front of the other one. -/
theorem apart (h : InTextOrder (xs.map range)) {x y : α} (hx : x ∈ xs) (hy : y ∈ xs) (hne : x ≠ y) :
    IsInFront (range x) (range y) ∨ IsInFront (range y) (range x) := by
  have hsymm : Std.Symm fun x y => IsInFront (range x) (range y) ∨ IsInFront (range y) (range x) :=
    ⟨fun _ _ => Or.symm⟩
  have heither : xs.Pairwise fun x y => IsInFront (range x) (range y) ∨ IsInFront (range y) (range x) :=
    (List.pairwise_map.1 h).imp Or.inl
  exact heither.forall hx hy hne

end InTextOrder

end

/-! ## The declarations of a text -/

variable {text : String} {tokens : List Token} {m : Module}

theorem saysMark_of_mem_tokens (h : tokenize text = .ok tokens) : ∀ t ∈ tokens, t.SaysMark :=
  fun _ ht _ hkind => text_of_punct h ht hkind

/-- The first significant token stands behind comments and line feeds. -/
theorem exists_before_of_first {c : Surroundings} {s : Spot} {spots : List Spot}
    (h : Spot.ofTokens c tokens = s :: spots) : ∃ before, tokens = before ++ s.token :: s.after ∧
      ∀ u ∈ before, u.kind = .comment ∨ u.kind = .newline := by
  induction tokens generalizing c with
  | nil => cases h
  | cons t ts ih =>
    rw [Spot.ofTokens] at h
    split at h
    · cases h
      exact ⟨[], rfl, by simp⟩
    · next ht =>
      obtain ⟨before, hsplit, hbefore⟩ := ih h
      refine ⟨t :: before, by rw [hsplit]; rfl, List.forall_mem_cons.2 ⟨?_, hbefore⟩⟩
      simp only [Token.isSignificant, Bool.and_eq_true, bne_iff_ne, not_and_or, not_not] at ht
      exact ht

theorem listed_comments (h : tokenize text = .ok tokens) :
    Listed Comment.range (fun c w _ => w = '#' :: c.text.toList) [] text.toList
      (tokens.filterMap Comment.ofToken?) := by
  refine (cover_tokens h).listed (runs_comments tokens) (fun hc => ?_) (saysMark_of_mem_tokens h) rfl
    fun hc _ _ hcs _ _ _ => ?_
  · rw [hc.eq, hc.alone]
    rfl
  · rw [hc.alone] at hcs
    cases hcs
    rw [Token.written, hc.kind, hc.eq, List.append_nil]

theorem listed_imports (h : tokenize text = .ok tokens) :
    Listed Import.range (fun i w _ => i.Writes w) [] text.toList
      (Surroundings.found {} Spot.import? tokens) := by
  refine (cover_tokens h).listed (runs_imports {} tokens) (fun hi => hi.range) (saysMark_of_mem_tokens h)
    rfl fun {t used later i front quote cs rest} hi hmarks _ hcs _ _ _ => ?_
  obtain ⟨first, read, path, rfl, hfirst, hread, hpath⟩ := hi.path
  obtain _ | ⟨hgap, -, hcs⟩ := hcs
  have hword := hi.word
  simp only [Token.isWord, Bool.and_eq_true, beq_iff_eq] at hword
  rw [Token.written, hword.1, hword.2, written_of_isIdent hfirst, ← List.append_assoc]
  refine ⟨_, _, rfl, hgap, first.text, path, _, hpath, rfl, hread.writesParts (fun u hu => ?_) hcs⟩
  exact hmarks u (by simp [hu])

theorem listed_named (h : tokenize text = .ok tokens) (annotations : List Annotation) :
    Listed (Sum.elim Rule.head Call.range) (fun x w rest => WritesName text w rest x) [] text.toList
      (Surroundings.found {} (Spot.named? annotations) tokens) := by
  refine (cover_tokens h).listed (runs_named annotations {} tokens) (fun {t used later x} hx => ?_)
    (saysMark_of_mem_tokens h) rfl
    fun {t used later x front quote cs rest} hx hmarks _ hcs htext hstop hcover => ?_
  · cases x with
    | inl r =>
      rw [Sum.elim_inl, hx.head, hx.alone]
      rfl
    | inr call => exact hx.range
  · cases x with
    | inl r =>
      have halone := hx.alone
      subst halone
      cases hcs
      rw [WritesName, written_of_isIdent hx.name.1, hx.name.2, List.append_nil]
    | inr call =>
      obtain ⟨hident, path, hread, hname⟩ := hx.name
      obtain ⟨paren, later, rfl, hparen, hstart⟩ := hx.paren
      refine ⟨⟨t.text :: path, hname, t.text, path, cs, rfl, by rw [written_of_isIdent hident],
        hread.writesParts (fun u hu => hmarks u (by simp [hu])) hcs⟩, ?_⟩
      obtain _ | @⟨_, gap, back, _, quote', _, _, hall, hskipped, -, -, hrange, -⟩ := hcover
      rw [written_of_isPunct (hmarks paren (by simp)) hparen] at hall hrange
      refine ⟨gap, back, by simpa using hall, hskipped, fun hs => ?_⟩
      -- the parenthesis starts where the call stops, so nothing stands between
      rw [hall] at htext
      refine Classical.byContradiction fun hgap => ?_
      have hsplit : text.toList = front ++ gap ++ '(' :: back := by simpa using htext
      have hlt := after_lt hs hsplit hgap
      have heq := congrArg Range.start hrange
      dsimp only at heq
      rw [← heq, hstart, ← hstop] at hlt
      exact Position.lt_asymm hlt hlt

/-- All that a text declares is where the module says it is. -/
theorem locatedIn_of_parse (h : parse text = .ok m) : m.LocatedIn text := by
  have hpath := package_path_ne_nil h
  obtain ⟨tokens, htokens, herrors, rfl⟩ := tokens_of_parse h
  obtain ⟨s, spots, hspots, -, hword, hkeyword, -⟩ := exists_first_statement herrors
  obtain ⟨before, hsplit, hbefore⟩ := exists_before_of_first hspots
  refine ⟨⟨before, s.token, s.after, by rw [htokens, hsplit], hbefore, hword, hkeyword⟩, ?_, hpath,
    listed_imports htokens, listed_comments htokens, ?_⟩
  · obtain ⟨gap, quote, back, hall, -, hne, hrange⟩ :=
      (cover_tokens htokens).exists_of_mem (t := s.token) (by simp [hsplit])
    refine .cons hall hne ?_ (hkeyword.trans hrange) .nil
    simp only [Token.isWord, Bool.and_eq_true, beq_iff_eq] at hword
    rw [Token.written, hword.1, hword.2]
  · refine ⟨_, ?_, ?_, listed_named htokens (Rego.Annotation.ofTokens tokens)⟩
    · exact rules_eq ..
    · exact calls_eq ..

/-- Where positions fit into 32 bits, the ranges of a module select what they are about. -/
theorem selects_of_locatedIn (hs : IsSmall text) (h : m.LocatedIn text) : m.Selects text := by
  obtain ⟨named, hrules, hcalls, hnamed⟩ := h.named
  have hrule {r : Rule} (hr : r ∈ m.rules) : .inl r ∈ named := by
    rw [← hrules, List.mem_filterMap] at hr
    obtain ⟨x, hx, hr⟩ := hr
    rwa [Sum.getLeft?_eq_some_iff.1 hr] at hx
  have hcall {call : Call} (hc : call ∈ m.calls) : .inr call ∈ named := by
    rw [← hcalls, List.mem_filterMap] at hc
    obtain ⟨x, hx, hc⟩ := hc
    rwa [Sum.getRight?_eq_some_iff.1 hc] at hx
  have horder := hnamed.inTextOrder hs rfl
  refine ⟨?_, fun r hr => ?_, fun c hc => ?_, fun i hi => ?_, fun call hc => ?_, ?_,
    h.imports.inTextOrder hs rfl, h.comments.inTextOrder hs rfl, ?_, fun r hr call hc => ?_⟩
  · exact (h.keyword.selects hs (List.mem_singleton_self m.package)).choose_spec.1
  · exact (hnamed.selects hs (hrule hr)).choose_spec.1
  · exact (h.comments.selects hs hc).choose_spec.1
  · exact (h.imports.selects hs hi).choose_spec.1
  · obtain ⟨_, ⟨hwrites, gap, back, rfl, -, hgap⟩, hback⟩ := hnamed.selects hs (hcall hc)
    rw [hgap hs] at hback
    exact ⟨hwrites, back, hback⟩
  · rw [← hrules]
    refine horder.filterMap fun x r hr => ?_
    rw [Sum.getLeft?_eq_some_iff.1 hr]
    rfl
  · rw [← hcalls]
    refine horder.filterMap fun x call hc => ?_
    rw [Sum.getRight?_eq_some_iff.1 hc]
    rfl
  · exact horder.apart (hrule hr) (hcall hc) (by simp)

/-- Each range that a module of a text gives is that of characters that say what it is about: the word
`package`, which nothing but comments and line feeds stand before; the name of a rule; a comment and its
`#`; the word `import` and the path that it ends with; the reference that a call starts with, and a
parenthesis follows. Rules and calls together, imports, and comments each are in order. Unless lines or
columns are more than positions can tell, the ranges select just these characters, and no two of a kind
meet, nor do a rule and a call. -/
theorem locations_select_what_they_name (h : parse text = .ok m) :
    m.LocatedIn text ∧ (IsSmall text → m.Selects text) :=
  ⟨locatedIn_of_parse h, fun hs => selects_of_locatedIn hs (locatedIn_of_parse h)⟩

/-- A package and an import with parts in quotes, a default, a rule that goes over two lines, a call with a
part in quotes, and a name that a gap keeps from being a call. -/
theorem locations_in_a_small_text :
    let text := "# é\npackage a[`b`]\nimport data . lib[\"u\"] as u\n" ++
      "default p := 1\np if\n  f (x) > regex.match[\"a\"](g(y))\n"
    ∃ m, parse text = .ok m ∧ IsSmall text ∧
      (m.imports.map (·.range.textIn text) = ["import data . lib[\"u\"]".toList] ∧
        m.rules.map (·.head.textIn text) = [['p'], ['p']] ∧
        m.calls.map (·.range.textIn text) = ["regex.match[\"a\"]".toList, ['g']]) ∧
      m.LocatedIn text ∧ m.Selects text := by
  intro text
  let m : Module :=
    { package := ⟨["a", "b"], ⟨⟨1, 0⟩, ⟨1, 7⟩⟩, false⟩
      imports := [⟨["data", "lib", "u"], some "u", ⟨⟨2, 0⟩, ⟨2, 22⟩⟩⟩]
      rules := [⟨"p", ⟨⟨3, 8⟩, ⟨3, 9⟩⟩, true, false⟩, ⟨"p", ⟨⟨4, 0⟩, ⟨4, 1⟩⟩, false, false⟩]
      comments := [⟨" é", ⟨⟨0, 0⟩, ⟨0, 3⟩⟩⟩]
      calls := [⟨"regex.match.a", ⟨⟨5, 10⟩, ⟨5, 26⟩⟩⟩, ⟨"g", ⟨⟨5, 27⟩, ⟨5, 28⟩⟩⟩] }
  have hparse : parse text = .ok m := toOption_eq_some_iff.1 (by decide +kernel)
  have hsmall : IsSmall text := ⟨by decide +kernel, by decide +kernel⟩
  obtain ⟨hlocated, hselects⟩ := locations_select_what_they_name hparse
  exact ⟨m, hparse, hsmall, by decide +kernel, hlocated, hselects hsmall⟩

end PolicyLint.Rego
