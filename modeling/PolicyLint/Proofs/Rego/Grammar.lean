import PolicyLint.Proofs.Rego.Names
import PolicyLint.Proofs.Rego.Surroundings
/-!
# The grammar of policy texts

Which texts parse is a matter of their tokens alone: brackets are well nested, the first statement
declares a package, and every later one is an import, a default with its name, a rule, or opens a
bracket (`Grammatical`). A statement starts at the first significant token of a line that is inside no
bracket and does not go on from the line before (`StartsStatement`).

The law looks at the tokens before a token, the parser keeps a few variables while it reads them. That
they say the same holds as long as no bracket is out of place: then what is open is what the tokens
leave open (`unclosed`), and nothing is open behind well nested tokens (`unclosed_eq_nil_iff`).
-/

namespace PolicyLint.Rego

/-! ## The law -/

/-- Each kind of bracket, as it opens and as it closes. -/
def bracketPairs : List (Char × Char) :=
  [('(', ')'), ('[', ']'), ('{', '}')]

inductive WellNested : List Token → Prop
  | nil : WellNested []
  | other {t : Token} {ts : List Token}
      (ht : ∀ p ∈ bracketPairs, t.kind ≠ .punct p.1 ∧ t.kind ≠ .punct p.2) (hts : WellNested ts) :
      WellNested (t :: ts)
  | wrap {opening closing : Token} {inside rest : List Token} {p : Char × Char}
      (hp : p ∈ bracketPairs) (ho : opening.kind = .punct p.1) (hc : closing.kind = .punct p.2)
      (hinside : WellNested inside) (hrest : WellNested rest) :
      WellNested (opening :: (inside ++ closing :: rest))

/-- A token starts a statement behind some others: it is the first significant one of its line, no
bracket is open, and what comes before is complete. -/
structure StartsStatement (before : List Token) (t : Token) : Prop where
  significant : t.isSignificant = true
  line : StartsLine before
  nested : WellNested before
  complete : Complete before

def HasStarted (before : List Token) : Prop :=
  ∃ front t gap, before = front ++ t :: gap ∧ StartsStatement front t

def NameNext (after : List Token) : Prop :=
  ∃ name rest, after = name :: rest ∧ name.kind = .ident

/-- The tokens of a policy module. -/
structure Grammatical (tokens : List Token) : Prop where
  significant : ∃ t ∈ tokens, t.isSignificant = true
  nested : WellNested tokens
  /-- the first statement declares the package -/
  first : ∃ before t after, tokens = before ++ t :: after ∧ StartsStatement before t ∧
    ¬ HasStarted before ∧ t.isWord "package" = true ∧ NameNext after
  /-- no later statement does, and each starts with a word or a bracket that opens -/
  later : ∀ before t after, tokens = before ++ t :: after → StartsStatement before t →
    HasStarted before → t.isWord "package" = false ∧
      (t.isWord "import" = true ∨ t.isWord "default" = true → NameNext after) ∧
      (t.kind = .ident ∨ ∃ p ∈ bracketPairs, t.kind = .punct p.1)

/-! ## Brackets -/

variable {before after tokens opened : List Token} {t o : Token}

theorem isOpening_iff : t.isOpening = true ↔ ∃ p ∈ bracketPairs, t.kind = .punct p.1 := by
  unfold Token.isOpening
  cases t.kind with
  | punct c =>
    simp only [closingOf?, bracketPairs, List.mem_cons, List.not_mem_nil, or_false]
    split <;> simp_all
  | _ => simp

theorem isSome_closing?_iff :
    t.closing?.isSome = true ↔ ∃ p ∈ bracketPairs, t.kind = .punct p.2 := by
  unfold Token.closing?
  cases t.kind with
  | punct c => simp [isClosing, bracketPairs, or_assoc]
  | _ => simp

theorem closes_iff : t.closes o = true ↔
    ∃ p ∈ bracketPairs, o.kind = .punct p.1 ∧ t.kind = .punct p.2 := by
  unfold Token.closes
  cases o.kind with
  | punct c =>
    cases t.kind with
    | punct d =>
      simp only [closingOf?, bracketPairs, List.mem_cons, List.not_mem_nil, or_false, beq_iff_eq]
      split <;> simp_all [@eq_comm _ d]
    | _ => simp
  | _ => simp

theorem openAfter?_of_isOpening (h : t.isOpening = true) :
    t.openAfter? opened = some (t :: opened) :=
  if_pos h

theorem openAfter?_of_closes (h : t.closes o = true) : t.openAfter? (o :: opened) = some opened := by
  obtain ⟨p, hp, -, hc⟩ := closes_iff.1 h
  have hclosing : t.closing?.isSome = true := isSome_closing?_iff.2 ⟨p, hp, hc⟩
  obtain ⟨c, hc⟩ := Option.isSome_iff_exists.1 hclosing
  have hopening : t.isOpening = false := by
    cases ho : t.isOpening with
    | false => rfl
    | true => simp [closing?_of_isOpening ho] at hc
  simp [Token.openAfter?, hopening, hc, h]

theorem openAfter?_of_other (h : ∀ p ∈ bracketPairs, t.kind ≠ .punct p.1 ∧ t.kind ≠ .punct p.2) :
    t.openAfter? opened = some opened := by
  have hopening : t.isOpening = false := by
    rw [← Bool.not_eq_true, isOpening_iff]
    rintro ⟨p, hp, hk⟩
    exact (h p hp).1 hk
  have hclosing : t.closing? = none := by
    rw [← Option.not_isSome_iff_eq_none, isSome_closing?_iff]
    rintro ⟨p, hp, hk⟩
    exact (h p hp).2 hk
  simp [Token.openAfter?, hopening, hclosing]

/-- A token that leaves something open opens a bracket, closes the innermost open one, or is none. -/
theorem openAfter?_cases {left : List Token} (h : t.openAfter? opened = some left) :
    (∃ p ∈ bracketPairs, t.kind = .punct p.1) ∧ left = t :: opened ∨
      (∃ o, opened = o :: left ∧ t.closes o = true) ∨
      (∀ p ∈ bracketPairs, t.kind ≠ .punct p.1 ∧ t.kind ≠ .punct p.2) ∧ left = opened := by
  unfold Token.openAfter? at h
  split at h
  · next ho => exact Or.inl ⟨isOpening_iff.1 ho, (Option.some.inj h).symm⟩
  next ho =>
  right
  split at h
  · next hc =>
    refine Or.inr ⟨fun p hp => ⟨fun hk => ho (isOpening_iff.2 ⟨p, hp, hk⟩), fun hk => ?_⟩,
      (Option.some.inj h).symm⟩
    have hclosing := isSome_closing?_iff.2 ⟨p, hp, hk⟩
    simp [hc] at hclosing
  · cases h
  · split at h
    · next hcl => exact Or.inl ⟨_, by rw [Option.some.inj h], hcl⟩
    · cases h

/-- Well nested tokens leave open what was open before. -/
theorem WellNested.unclosed_eq (h : WellNested tokens) (opened : List Token) :
    unclosed opened tokens = some opened := by
  induction h generalizing opened with
  | nil => rfl
  | other ht hts ih =>
    rw [unclosed, openAfter?_of_other ht]
    exact ih opened
  | @wrap o c inside rest p hp ho hc hinside hrest ihinside ihrest =>
    rw [unclosed, openAfter?_of_isOpening (isOpening_iff.2 ⟨p, hp, ho⟩), Option.bind_some,
      unclosed_append, ihinside, Option.bind_some, unclosed,
      openAfter?_of_closes (closes_iff.2 ⟨p, hp, ho, hc⟩)]
    exact ihrest opened

/-- Tokens that leave nothing open close the innermost open bracket, behind well nested ones. -/
theorem exists_closing {rest : List Token} (h : unclosed (o :: rest) tokens = some []) :
    ∃ inside closing after, tokens = inside ++ closing :: after ∧ WellNested inside ∧
      closing.closes o = true ∧ unclosed rest after = some [] := by
  -- what stands behind an inner pair of brackets is shorter, but no tail
  induction hn : tokens.length using Nat.strongRecOn generalizing o rest tokens with
  | ind n ih =>
    cases tokens with
    | nil => cases h
    | cons t ts =>
      rw [List.length_cons] at hn
      rw [unclosed] at h
      obtain ⟨left, hleft, h⟩ := Option.bind_eq_some_iff.1 h
      rcases openAfter?_cases hleft with ⟨⟨p, hp, hk⟩, rfl⟩ | ⟨o', ho', hc⟩ | ⟨hother, rfl⟩
      · obtain ⟨inner, c, after, rfl, hinner, hc, hafter⟩ := ih ts.length (by omega) h rfl
        obtain ⟨inside, c', after', rfl, hinside, hc', hrest⟩ :=
          ih after.length (by simp at hn; omega) hafter rfl
        obtain ⟨q, hq, hto, hcc⟩ := closes_iff.1 hc
        refine ⟨t :: (inner ++ c :: inside), c', after', by simp, ?_, hc', hrest⟩
        exact .wrap hq hto hcc hinner hinside
      · injection ho' with ho hrest
        subst ho hrest
        exact ⟨[], t, ts, rfl, .nil, hc, h⟩
      · obtain ⟨inside, c, after, rfl, hinside, hc, hafter⟩ := ih ts.length (by omega) h rfl
        exact ⟨t :: inside, c, after, rfl, .other hother hinside, hc, hafter⟩

theorem wellNested_of_unclosed (h : unclosed [] tokens = some []) : WellNested tokens := by
  induction hn : tokens.length using Nat.strongRecOn generalizing tokens with
  | ind n ih =>
    cases tokens with
    | nil => exact .nil
    | cons t ts =>
      rw [List.length_cons] at hn
      rw [unclosed] at h
      obtain ⟨left, hleft, h⟩ := Option.bind_eq_some_iff.1 h
      rcases openAfter?_cases hleft with ⟨⟨p, hp, hk⟩, rfl⟩ | ⟨o', ho', -⟩ | ⟨hother, rfl⟩
      · obtain ⟨inside, c, after, rfl, hinside, hc, hafter⟩ := exists_closing h
        obtain ⟨q, hq, hto, hcc⟩ := closes_iff.1 hc
        exact .wrap hq hto hcc hinside (ih after.length (by simp at hn; omega) hafter rfl)
      · cases ho'
      · exact .other hother (ih ts.length (by omega) h rfl)

/-- Tokens leave nothing open if and only if their brackets are well nested. -/
theorem unclosed_eq_nil_iff : unclosed [] tokens = some [] ↔ WellNested tokens :=
  ⟨wellNested_of_unclosed, fun h => h.unclosed_eq []⟩

/-! ## Statements -/

/-- Behind tokens whose brackets are in order, a significant token has a part other than being inside a
statement if and only if it starts one. -/
theorem role_read_ne_inner_iff (after : List Token) (hb : (unclosed [] before).isSome = true)
    (ht : t.isSignificant = true) :
    (Surroundings.read {} before after).role ≠ .inner ↔ StartsStatement before t := by
  obtain ⟨opened, ho⟩ := Option.isSome_iff_exists.1 hb
  have hopened : (Surroundings.read {} before after).opened = opened := opened_read ho
  have hnested : opened = [] ↔ WellNested before := by
    rw [← unclosed_eq_nil_iff, ho, Option.some_inj]
  have hstarts : StartsStatement before t ↔ StartsLine before ∧ WellNested before ∧ Complete before :=
    ⟨fun h => ⟨h.line, h.nested, h.complete⟩, fun h => ⟨ht, h.1, h.2.1, h.2.2⟩⟩
  rw [hstarts, ← lineStart_read before after, ← hnested, ← continues_read before after]
  unfold Surroundings.role
  rw [hopened]
  cases (Surroundings.read {} before after).lineStart <;>
    cases (Surroundings.read {} before after).continues <;>
    cases (Surroundings.read {} before after).started <;> cases opened <;> simp

theorem hasStarted_concat :
    HasStarted (before ++ [t]) ↔ HasStarted before ∨ StartsStatement before t := by
  constructor
  · rintro ⟨front, u, gap, hb, hu⟩
    rcases cut_of_concat hb with ⟨rfl, rfl, -⟩ | ⟨gap', -, hbefore⟩
    · exact Or.inr hu
    · exact Or.inl ⟨front, u, gap', hbefore, hu⟩
  · rintro (⟨front, u, gap, rfl, hu⟩ | ht)
    · exact ⟨front, u, gap ++ [t], by simp, hu⟩
    · exact ⟨before, t, [], rfl, ht⟩

/-- Behind tokens whose brackets are in order, a statement has started if the law says so. -/
theorem started_read (after : List Token) (hb : (unclosed [] before).isSome = true) :
    (Surroundings.read {} before after).started = true ↔ HasStarted before := by
  induction before using List.reverseRecOn generalizing after with
  | nil =>
    refine ⟨fun h => (by cases h), fun ⟨front, u, gap, h, _⟩ => ?_⟩
    cases front <;> cases h
  | append_singleton before t ih =>
    have hbefore : (unclosed [] before).isSome = true := by
      rw [unclosed_append] at hb
      exact Option.isSome_of_isSome_bind hb
    rw [Surroundings.read_concat, hasStarted_concat, ← ih (t :: after) hbefore]
    cases ht : t.isSignificant with
    | true =>
      rw [Surroundings.step_of_significant ht, ← role_read_ne_inner_iff (t :: after) hbefore ht]
      simp [Surroundings.next, Surroundings.spot]
    | false =>
      have hno : ¬ StartsStatement before t := fun h => by simp [h.significant] at ht
      rw [Surroundings.step_of_insignificant ht]
      simp [Surroundings.pass, hno]

/-! ## What is wrong with a statement -/

theorem nameNext_iff : NameNext after ↔ after.head?.any Token.isIdent = true := by
  constructor
  · rintro ⟨name, rest, rfl, hk⟩
    simp [Token.isIdent, hk]
  · intro h
    cases after with
    | nil => cases h
    | cons name rest => exact ⟨name, rest, rfl, by simpa [Token.isIdent] using h⟩

theorem nameNext_iff_isSome_read? : NameNext after ↔ (Reference.read? after).isSome = true := by
  rw [nameNext_iff, Reference.read?_isSome]

variable {s : Spot}

theorem statementFault?_first (h : s.role = .first) :
    s.statementFault? = none ↔ s.token.isWord "package" = true ∧ NameNext s.after := by
  rw [nameNext_iff_isSome_read?, Spot.statementFault?, h]
  dsimp only
  split
  · next hw => split <;> simp_all
  · next hw => simp [hw]

theorem statementFault?_later (h : s.role = .later) :
    s.statementFault? = none ↔ s.token.isWord "package" = false ∧
      (s.token.isWord "import" = true ∨ s.token.isWord "default" = true → NameNext s.after) ∧
      (s.token.kind = .ident ∨ s.token.isOpening = true ∨ s.token.closing?.isSome = true) := by
  rw [Spot.statementFault?, h]
  dsimp only
  unfold Token.isWord Token.isOpening Token.closing?
  cases hk : s.token.kind with
  | ident =>
    by_cases hp : s.token.text = "package"
    · simp [hp]
    by_cases hi : s.token.text = "import"
    · rw [nameNext_iff_isSome_read?]
      simp [hi, Option.isSome_iff_ne_none]
    by_cases hd : s.token.text = "default"
    · rw [nameNext_iff]
      simp [hd]
    · simp [hp, hi, hd]
  | punct c =>
    cases hc : isClosing c
    · simp [hc, Option.isSome_iff_ne_none]
    · simp [hc]
  | _ => simp

/-- Nothing is wrong with the tokens if something starts, no statement is at fault, and no bracket is
out of place or left open. -/
theorem errorsOf_eq_nil_iff {spots : List Spot} : errorsOf spots = [] ↔
    spots ≠ [] ∧ (∀ s ∈ spots, s.statementFault? = none) ∧ (∀ s ∈ spots, s.bracketFault? = none) ∧
      Spot.leftOpen spots = [] := by
  unfold errorsOf
  split
  · next h => simp [List.isEmpty_iff.1 h]
  · next h =>
    have hne : spots ≠ [] := fun hs => h (List.isEmpty_iff.2 hs)
    have hspot : ∀ s : Spot, s.errors = [] ↔ s.statementFault? = none ∧ s.bracketFault? = none := by
      intro s
      rw [Spot.errors, List.map_eq_nil_iff, List.append_eq_nil_iff]
      cases s.statementFault? <;> cases s.bracketFault? <;> simp
    simp only [List.append_eq_nil_iff, List.flatMap_eq_nil_iff, List.map_eq_nil_iff,
      List.reverse_eq_nil_iff, hspot, ne_eq, hne, not_false_eq_true, true_and]
    constructor
    · rintro ⟨hs, hl⟩
      exact ⟨fun s hm => (hs s hm).1, fun s hm => (hs s hm).2, hl⟩
    · rintro ⟨hst, hb, hl⟩
      exact ⟨fun s hm => ⟨hst s hm, hb s hm⟩, hl⟩

/-! ## The grammar -/

/-- Tokens with nothing open at the end have no bracket out of place. -/
theorem nested_iff : WellNested tokens ↔
    (∀ s ∈ Spot.ofTokens {} tokens, s.bracketFault? = none) ∧
      Spot.leftOpen (Spot.ofTokens {} tokens) = [] := by
  rw [← unclosed_eq_nil_iff, ← isSome_unclosed_iff]
  constructor
  · intro h
    exact ⟨by rw [h]; rfl, leftOpen_eq (c := {}) h⟩
  · rintro ⟨hb, hl⟩
    obtain ⟨opened, ho⟩ := Option.isSome_iff_exists.1 hb
    have hleft : Spot.leftOpen (Spot.ofTokens {} tokens) = opened := leftOpen_eq (c := {}) ho
    rw [ho, ← hleft, hl]

/-- The brackets before a token are in order when all of them are. -/
theorem isSome_unclosed_before (h : WellNested tokens) (hsplit : tokens = before ++ after) :
    (unclosed [] before).isSome = true := by
  have hall := h.unclosed_eq []
  rw [hsplit, unclosed_append] at hall
  exact Option.isSome_of_isSome_bind (by rw [hall]; rfl)

/-- The first token to start a statement is the only one. -/
theorem first_unique {before' after' : List Token} {t' : Token}
    (h : before ++ t :: after = before' ++ t' :: after') (ht : StartsStatement before t)
    (hb : ¬ HasStarted before) (ht' : StartsStatement before' t') (hb' : ¬ HasStarted before') :
    before = before' ∧ t = t' ∧ after = after' := by
  rcases List.append_eq_append_iff.1 h with ⟨mid, hmid, htail⟩ | ⟨mid, hmid, htail⟩
  · cases mid with
    | nil =>
      injection htail with htt haa
      exact ⟨by simpa using hmid.symm, htt, haa⟩
    | cons u mid =>
      injection htail with htu _
      exact absurd ⟨before, t, mid, by rw [hmid, htu], ht⟩ hb'
  · cases mid with
    | nil =>
      injection htail with htt haa
      exact ⟨by simpa using hmid, htt.symm, haa.symm⟩
    | cons u mid =>
      injection htail with htu _
      exact absurd ⟨before', t', mid, by rw [hmid, htu], ht'⟩ hb

section

variable (hn : WellNested tokens) (hsplit : tokens = before ++ t :: after)

include hn hsplit

/-- Among well nested tokens, the token that plays the first part is the first to start a statement. -/
theorem role_read_first_iff (ht : t.isSignificant = true) :
    (Surroundings.read {} before (t :: after)).role = .first ↔
      StartsStatement before t ∧ ¬ HasStarted before := by
  have hb := isSome_unclosed_before hn hsplit
  rw [← role_read_ne_inner_iff (t :: after) hb ht, ← started_read (t :: after) hb]
  unfold Surroundings.role
  split
  · split <;> simp_all
  · simp

/-- Among well nested tokens, those that play a later part start later statements. -/
theorem role_read_later_iff (ht : t.isSignificant = true) :
    (Surroundings.read {} before (t :: after)).role = .later ↔
      StartsStatement before t ∧ HasStarted before := by
  have hb := isSome_unclosed_before hn hsplit
  rw [← role_read_ne_inner_iff (t :: after) hb ht, ← started_read (t :: after) hb]
  unfold Surroundings.role
  split
  · split <;> simp_all
  · simp

/-- A closing bracket starts no statement: nothing is open that it could close. -/
theorem closing?_of_startsStatement (h : StartsStatement before t) : t.closing? = none := by
  have hspot : (Surroundings.read {} before (t :: after)).spot t after ∈ Spot.ofTokens {} tokens :=
    mem_spots_iff.2 ⟨before, t, after, hsplit, h.significant, rfl⟩
  have hbracket := (nested_iff.1 hn).1 _ hspot
  have hnone : (Surroundings.read {} before (t :: after)).opened = [] :=
    opened_read (unclosed_eq_nil_iff.2 h.nested)
  cases hc : t.closing? with
  | none => rfl
  | some c =>
    rw [Spot.bracketFault?] at hbracket
    simp [Surroundings.spot, hnone, hc] at hbracket

end

/-- Tokens with nothing wrong follow the grammar. -/
theorem grammatical_of_errorsOf (h : errorsOf (Spot.ofTokens {} tokens) = []) :
    Grammatical tokens := by
  obtain ⟨hne, hfaults, hbrackets⟩ := errorsOf_eq_nil_iff.1 h
  have hn := nested_iff.2 hbrackets
  obtain ⟨s, spots, hspots⟩ := List.exists_cons_of_ne_nil hne
  have hfirst := role_head_spots rfl rfl rfl rfl hspots
  have hs : s ∈ Spot.ofTokens {} tokens := by
    rw [hspots]
    exact List.mem_cons_self ..
  obtain ⟨before, t, after, hsplit, ht, rfl⟩ := mem_spots_iff.1 hs
  obtain ⟨hstarts, hnot⟩ := (role_read_first_iff hn hsplit ht).1 hfirst
  refine ⟨⟨t, by simp [hsplit], ht⟩, hn, ⟨before, t, after, hsplit, hstarts, hnot, ?_⟩, ?_⟩
  · exact (statementFault?_first hfirst).1 (hfaults _ hs)
  · intro b u a hbu hu hstarted
    have hlater := (role_read_later_iff hn hbu hu.significant).2 ⟨hu, hstarted⟩
    have hmem : (Surroundings.read {} b (u :: a)).spot u a ∈ Spot.ofTokens {} tokens :=
      mem_spots_iff.2 ⟨b, u, a, hbu, hu.significant, rfl⟩
    obtain ⟨hpackage, hname, hkind⟩ := (statementFault?_later hlater).1 (hfaults _ hmem)
    refine ⟨hpackage, hname, hkind.imp_right fun hbracket => isOpening_iff.1 ?_⟩
    refine hbracket.resolve_right fun hclosing => ?_
    have hnone : u.closing? = none := closing?_of_startsStatement hn hbu hu
    change u.closing?.isSome = true at hclosing
    rw [hnone] at hclosing
    cases hclosing

/-- Nothing is wrong with tokens that follow the grammar. -/
theorem Grammatical.errorsOf_eq_nil (h : Grammatical tokens) :
    errorsOf (Spot.ofTokens {} tokens) = [] := by
  have hn := h.nested
  refine errorsOf_eq_nil_iff.2 ⟨?_, fun s hs => ?_, nested_iff.1 hn⟩
  · obtain ⟨t, ht, hsig⟩ := h.significant
    obtain ⟨before, after, hsplit⟩ := List.append_of_mem ht
    exact List.ne_nil_of_mem (mem_spots_iff.2 ⟨before, t, after, hsplit, hsig, rfl⟩)
  · obtain ⟨before, t, after, hsplit, ht, rfl⟩ := mem_spots_iff.1 hs
    cases hr : (Surroundings.read {} before (t :: after)).role with
    | inner =>
      rw [Spot.statementFault?]
      simp [Surroundings.spot, hr]
    | first =>
      obtain ⟨b, u, a, hbu, hu, hub, hdeclares⟩ := h.first
      obtain ⟨hstarts, hnot⟩ := (role_read_first_iff hn hsplit ht).1 hr
      obtain ⟨rfl, rfl, rfl⟩ := first_unique (hsplit.symm.trans hbu) hstarts hnot hu hub
      exact (statementFault?_first hr).2 hdeclares
    | later =>
      obtain ⟨hstarts, hstarted⟩ := (role_read_later_iff hn hsplit ht).1 hr
      obtain ⟨hpackage, hname, hkind⟩ := h.later before t after hsplit hstarts hstarted
      refine (statementFault?_later hr).2 ⟨hpackage, hname, hkind.imp_right fun hk => Or.inl ?_⟩
      exact isOpening_iff.2 hk

/-- A text parses if and only if it has tokens and they follow the grammar. -/
theorem parses_iff_grammatical (text : String) : (∃ m, parse text = .ok m) ↔
    ∃ tokens, tokenize text = .ok tokens ∧ Grammatical tokens := by
  constructor
  · rintro ⟨m, hm⟩
    obtain ⟨tokens, htokens, herrors, -⟩ := tokens_of_parse hm
    exact ⟨tokens, htokens, grammatical_of_errorsOf herrors⟩
  · rintro ⟨tokens, htokens, hg⟩
    refine ⟨Module.ofTokens tokens, ?_⟩
    simp only [parse, htokens, parseTokens, hg.errorsOf_eq_nil]

end PolicyLint.Rego
