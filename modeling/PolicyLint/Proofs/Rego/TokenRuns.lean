import PolicyLint.Proofs.Rego.Names
import PolicyLint.Proofs.Rego.Nearby
/-!
# Declarations as runs of tokens

A rule, a call, an import and a comment each cover tokens in a row, and no token is covered by two
declarations of one kind, nor by a rule and a call (`runs_named`, `runs_imports`, `runs_comments`). So the
ranges of calls follow one another through the text, as those of tokens do (`chain_calls`).

Nothing starts inside a reference: the tokens of its further parts are marks, strings, and identifiers
directly behind a point (`Reference.Parts`), and behind a significant token no line starts.
-/

namespace PolicyLint.Rego

/-! ## The tokens of a reference -/

namespace Reference

/-- Tokens that make further parts of a reference, and the names of the parts. -/
inductive Parts : List Token → List String → Prop
  | nil : Parts [] []
  | field {point name : Token} {tokens : List Token} {path : List String}
      (h : isField point name = true) (hrest : Parts tokens path) :
      Parts (point :: name :: tokens) (name.text :: path)
  | index {opening name closing : Token} {tokens : List Token} {path : List String}
      (h : isIndex opening name closing = true) (hrest : Parts tokens path) :
      Parts (opening :: name :: closing :: tokens) (name.text :: path)

/-- What is read as further parts is a front of the tokens, down to the last token read. -/
theorem exists_parts (last : Token) (tokens : List Token) :
    ∃ read, Parts read (parts last tokens).path ∧ tokens = read ++ (parts last tokens).rest ∧
      (parts last tokens).last = read.getLastD last := by
  have hstop (last : Token) {tokens : List Token} (h : opensPart tokens = false) :
      ∃ read, Parts read (parts last tokens).path ∧ tokens = read ++ (parts last tokens).rest ∧
        (parts last tokens).last = read.getLastD last := by
    rw [parts_stop last h]
    exact ⟨[], .nil, rfl, rfl⟩
  induction last, tokens using parts.induct with
  | case1 last | case2 last t => exact hstop last rfl
  | case3 last t name hfield =>
    rw [parts_field _ hfield, parts_stop name rfl]
    exact ⟨[t, name], .field hfield .nil, rfl, rfl⟩
  | case4 last t name hfield => exact hstop last (by simpa [opensPart] using hfield)
  | case5 last t name closing rest hfield ih =>
    obtain ⟨read, hread, htokens, hlast⟩ := ih
    rw [parts_field _ hfield]
    refine ⟨t :: name :: read, .field hfield hread, congrArg (t :: name :: ·) htokens, ?_⟩
    rw [List.getLastD_cons, List.getLastD_cons]
    exact hlast
  | case6 last t name closing rest hfield hindex ih =>
    obtain ⟨read, hread, htokens, hlast⟩ := ih
    rw [Bool.not_eq_true] at hfield
    rw [parts_index _ hfield hindex]
    refine ⟨t :: name :: closing :: read, .index hindex hread,
      congrArg (t :: name :: closing :: ·) htokens, ?_⟩
    rw [List.getLastD_cons, List.getLastD_cons, List.getLastD_cons]
    exact hlast
  | case7 last t name closing rest hfield hindex =>
    rw [Bool.not_eq_true] at hfield hindex
    exact hstop last (by simp [opensPart, hfield, hindex])

/-- A reference is a name and further parts. -/
theorem exists_of_read? {tokens : List Token} {r : Reference} (h : read? tokens = some r) :
    ∃ first read path, tokens = first :: (read ++ r.rest) ∧ first.isIdent = true ∧ Parts read path ∧
      r.path = first.text :: path ∧ r.last = read.getLastD first := by
  cases tokens with
  | nil => cases h
  | cons t ts =>
    by_cases ht : t.isIdent = true
    · rw [read?, if_pos ht] at h
      cases h
      obtain ⟨read, hread, hts, hlast⟩ := exists_parts t ts
      exact ⟨t, read, _, congrArg (t :: ·) hts, ht, hread, rfl, hlast⟩
    · rw [read?, if_neg ht] at h
      cases h

end Reference

/-! ## What declarations cover -/

section

variable (t : Token) (used later : List Token)

/-- A rule covers its name alone. -/
structure Rule.Covers (r : Rule) : Prop where
  name : t.isIdent = true ∧ r.name = t.text
  head : r.head = t.range
  alone : used = []

/-- A call covers a reference that an opening parenthesis follows without a gap. -/
structure Call.Covers (c : Call) : Prop where
  name : t.isIdent = true ∧ ∃ path, Reference.Parts used path ∧ c.name = dotted (t.text :: path)
  range : c.range = ⟨t.range.start, (used.getLastD t).range.stop⟩
  paren : ∃ paren rest, later = paren :: rest ∧ paren.isPunct '(' = true ∧
    paren.range.start = c.range.stop

/-- An import covers the word and the reference behind it. -/
structure Import.Covers (i : Import) : Prop where
  word : t.isWord "import" = true
  path : ∃ first read path, used = first :: read ∧ first.isIdent = true ∧
    Reference.Parts read path ∧ i.path = first.text :: path
  range : i.range = ⟨t.range.start, (used.getLastD t).range.stop⟩

structure Comment.Covers (c : Comment) : Prop where
  kind : t.kind = .comment
  eq : c = ⟨t.text, t.range⟩
  alone : used = []

end

section

variable {α β : Type} {Covers : Token → List Token → List Token → α → Prop}
  {Covers' : Token → List Token → List Token → β → Prop}

/-- Items that cover tokens in a row, each behind the ones before: `Covers t used later x` says that `x`
covers `t` and the tokens `used` behind it, and that `later` is what follows. -/
inductive Runs (Covers : Token → List Token → List Token → α → Prop) : List Token → List α → Prop
  | nil : Runs Covers [] []
  | skip {t : Token} {ts : List Token} {xs : List α} (h : Runs Covers ts xs) : Runs Covers (t :: ts) xs
  | run {t : Token} {used later : List Token} {x : α} {xs : List α} (h : Covers t used later x)
      (hrest : Runs Covers later xs) : Runs Covers (t :: (used ++ later)) (x :: xs)

namespace Runs

variable {tokens : List Token} {xs : List α}

theorem skip_append (front : List Token) (h : Runs Covers tokens xs) :
    Runs Covers (front ++ tokens) xs := by
  induction front with
  | nil => exact h
  | cons t front ih => exact .skip ih

theorem filterMap {f : α → Option β} (h : Runs Covers tokens xs)
    (hf : ∀ {t used later x y}, Covers t used later x → f x = some y → Covers' t used later y) :
    Runs Covers' tokens (xs.filterMap f) := by
  induction h with
  | nil => exact .nil
  | skip _ ih => exact .skip ih
  | @run t used later x xs h _ ih =>
    cases hx : f x with
    | none =>
      rw [List.filterMap_cons_none hx]
      exact .skip (ih.skip_append used)
    | some y =>
      rw [List.filterMap_cons_some hx]
      exact .run (hf h hx) ih

end Runs

end

/-! ## What is found among tokens -/

section

variable {α : Type} {f : Spot → Option α} {c : Surroundings} {t : Token} {ts read rest : List Token}

/-- What the significant tokens make of themselves. -/
def Surroundings.found (c : Surroundings) (f : Spot → Option α) (tokens : List Token) : List α :=
  (Spot.ofTokens c tokens).filterMap f

theorem found_cons_of_none (h : f (c.spot t ts) = none) :
    c.found f (t :: ts) = (c.step t ts).found f ts := by
  unfold Surroundings.found Surroundings.step
  rw [Spot.ofTokens]
  split
  · exact List.filterMap_cons_none h
  · rfl

theorem found_cons_of_insignificant (h : t.isSignificant = false) :
    c.found f (t :: ts) = (c.pass t).found f ts := by
  unfold Surroundings.found
  rw [Spot.ofTokens, if_neg (by simp [h])]

theorem found_cons_of_some {x : α} (ht : t.isSignificant = true) (h : f (c.spot t ts) = some x) :
    c.found f (t :: ts) = x :: (c.step t ts).found f ts := by
  unfold Surroundings.found Surroundings.step
  rw [Spot.ofTokens, if_pos ht, if_pos ht]
  exact List.filterMap_cons_some h

theorem before_step (c : Surroundings) (t : Token) (after : List Token) :
    (c.step t after).before = some t := by
  unfold Surroundings.step
  split <;> rfl

theorem lineStart_step (ht : t.isSignificant = true) : (c.step t ts).lineStart = false := by
  rw [Surroundings.step_of_significant ht]
  rfl

theorem role_of_lineStart (h : c.lineStart = false) : (c.spot t ts).role = .inner := by
  simp [Surroundings.spot, Surroundings.role, h]

/-- What starts neither at a mark or a string nor behind a point does not start in the further parts of a
reference. -/
theorem Reference.Parts.found_append {path : List String} (h : Parts read path)
    (hline : c.lineStart = false)
    (hnone : ∀ s : Spot, s.role = .inner →
      s.token.isIdent = false ∨ s.before.any (·.isPunct '.') = true → f s = none) :
    c.found f (read ++ rest) = (c.read read rest).found f rest := by
  have hmark {c : Surroundings} {u : Token} {us : List Token} (hc : c.lineStart = false)
      (hu : u.isIdent = false) : c.found f (u :: us) = (c.step u us).found f us :=
    found_cons_of_none (hnone _ (role_of_lineStart hc) (Or.inl hu))
  have hnot {mark : Char} {u : Token} (hu : u.isPunct mark = true) : u.isIdent = false := by
    have hk : u.kind = .punct mark := by simpa [Token.isPunct] using hu
    simp [Token.isIdent, hk]
  induction h generalizing c with
  | nil => rfl
  | @field point name tokens path h hrest ih =>
    obtain ⟨hpoint, hname⟩ := isField_eq_true h
    rw [isField, Bool.and_eq_true] at h
    have hbehind : f ((c.step point (name :: (tokens ++ rest))).spot name (tokens ++ rest)) = none := by
      refine hnone _ (role_of_lineStart (lineStart_step hpoint)) (Or.inr ?_)
      rw [Surroundings.spot, before_step]
      exact h.1
    rw [List.cons_append, List.cons_append, hmark hline (hnot h.1), found_cons_of_none hbehind,
      ih (lineStart_step hname)]
    rfl
  | @index opening name closing tokens path h hrest ih =>
    obtain ⟨hopening, hname, hclosing⟩ := isIndex_eq_true h
    rw [isIndex, Bool.and_eq_true, Bool.and_eq_true, beq_iff_eq] at h
    have hstring : name.isIdent = false := by simp [Token.isIdent, h.1.2]
    rw [List.cons_append, List.cons_append, List.cons_append, hmark hline (hnot h.1.1),
      hmark (lineStart_step hopening) hstring, hmark (lineStart_step hname) (hnot h.2),
      ih (lineStart_step hclosing)]
    rfl

/-- What is found covers tokens in a row if each item found at a token covers some behind it, and nothing
else is found up to the end of those. -/
theorem runs_found {Covers : Token → List Token → List Token → α → Prop}
    (hf : ∀ {c : Surroundings} {t : Token} {ts : List Token} {x : α}, t.isSignificant = true →
      f (c.spot t ts) = some x → ∃ skipped u used later c', t :: ts = skipped ++ u :: (used ++ later) ∧
        Covers u used later x ∧ (c.step t ts).found f ts = Surroundings.found c' f later)
    (c : Surroundings) (tokens : List Token) : Runs Covers tokens (c.found f tokens) := by
  induction hn : tokens.length using Nat.strongRecOn generalizing c tokens with
  | ind n ih =>
    cases tokens with
    | nil => exact .nil
    | cons t ts =>
      have hlt : ts.length < n := by
        rw [← hn]
        exact Nat.lt_succ_self _
      by_cases ht : t.isSignificant = true
      · cases hx : f (c.spot t ts) with
        | none =>
          rw [found_cons_of_none hx]
          exact .skip (ih ts.length hlt _ ts rfl)
        | some x =>
          obtain ⟨skipped, u, used, later, c', hsplit, hcovers, hlater⟩ := hf ht hx
          have hshort : later.length < n := by
            rw [← hn, hsplit]
            simp only [List.length_append, List.length_cons]
            omega
          rw [found_cons_of_some ht hx, hlater, hsplit]
          exact (Runs.run hcovers (ih later.length hshort c' later rfl)).skip_append skipped
      · rw [found_cons_of_insignificant (by simpa using ht)]
        exact .skip (ih ts.length hlt _ ts rfl)

end

/-! ## Rules and calls -/

variable {s : Spot} {annotations : List Annotation}

theorem rule?_of_inner (h : s.role = .inner) : s.rule? annotations = none := by
  simp [Spot.rule?, Spot.announces, Spot.isRuleName, h]

theorem call?_of_not_isIdent (h : s.token.isIdent = false) : s.call? = none := by
  simp [Spot.call?, h]

theorem call?_of_point (h : s.before.any (·.isPunct '.') = true) : s.call? = none := by
  simp [Spot.call?, h]

theorem call?_of_isHead (h : s.isHead = true) : s.call? = none := by
  simp [Spot.call?, h]

/-- A call covers the tokens of a reference. -/
theorem exists_of_call? {call : Call} (h : s.call? = some call) :
    ∃ read rest, s.after = read ++ rest ∧ call.Covers s.token read rest := by
  unfold Spot.call? at h
  split at h
  · next hstarts =>
    simp only [Bool.and_eq_true] at hstarts
    obtain ⟨r, hr, h⟩ := Option.bind_eq_some_iff.1 h
    obtain ⟨paren, hparen, h⟩ := Option.bind_eq_some_iff.1 h
    obtain ⟨first, read, path, hafter, -, hread, hpath, hlast⟩ := Reference.exists_of_read? hr
    obtain ⟨rest, hrest⟩ := List.head?_eq_some_iff.1 hparen
    obtain ⟨rfl, hread'⟩ := List.cons.inj hafter
    split at h
    · next hopens =>
      cases h
      rw [Bool.and_eq_true, beq_iff_eq] at hopens
      refine ⟨read, r.rest, hread', ⟨hstarts.1.1, path, hread, by rw [hpath]⟩, by rw [hlast], ?_⟩
      exact ⟨paren, rest, hrest, hopens⟩
    · cases h
  · cases h

/-- The word `default` in front of the name that it announces is no call. -/
theorem call?_of_announces (h : s.announces = true) : s.call? = none := by
  simp only [Spot.announces, Bool.and_eq_true] at h
  obtain ⟨name, hname, hident⟩ := (Option.any_eq_true _ _).1 h.2
  obtain ⟨rest, hafter⟩ := List.head?_eq_some_iff.1 hname
  have hpunct (mark : Char) : name.isPunct mark = false := by
    have hkind : name.kind = .ident := by simpa [Token.isIdent] using hident
    simp [Token.isPunct, hkind]
  have hstop : Reference.opensPart (name :: rest) = false := by
    have hindex (u v : Token) : Reference.isIndex name u v = false := by
      simp [Reference.isIndex, hpunct]
    cases rest with
    | nil => rfl
    | cons u rest => cases rest <;> simp [Reference.opensPart, Reference.isField, hpunct, hindex]
  unfold Spot.call?
  rw [hafter, Reference.read?, Reference.parts_stop _ hstop]
  cases s.token.isIdent <;> simp [hpunct]

/-- The rule or the call that a token starts. -/
def Spot.named? (annotations : List Annotation) (s : Spot) : Option (Rule ⊕ Call) :=
  match s.rule? annotations with
  | some r => some (.inl r)
  | none => s.call?.map .inr

theorem getLeft?_named? (annotations : List Annotation) (s : Spot) :
    (s.named? annotations).bind Sum.getLeft? = s.rule? annotations := by
  unfold Spot.named?
  cases s.rule? annotations with
  | some r => rfl
  | none => cases s.call? <;> rfl

theorem getRight?_named? (annotations : List Annotation) (s : Spot) :
    (s.named? annotations).bind Sum.getRight? = s.call? := by
  unfold Spot.named?
  cases hr : s.rule? annotations with
  | none => cases s.call? <;> rfl
  | some r =>
    have hnone : s.call? = none := by
      unfold Spot.rule? at hr
      dsimp only at hr
      split at hr
      · next hannounces => exact call?_of_announces hannounces
      · split at hr
        · next hname => exact call?_of_isHead (by simp [Spot.isHead, hname])
        · cases hr
    rw [hnone]
    rfl

theorem named?_of_inner (hrole : s.role = .inner) (hcall : s.call? = none) :
    s.named? annotations = none := by
  rw [Spot.named?, rule?_of_inner hrole, hcall]
  rfl

/-- The rules and the calls of a list of tokens cover runs of them: no token is covered twice. -/
theorem runs_named (annotations : List Annotation) (c : Surroundings) (tokens : List Token) :
    Runs (fun t used later => Sum.elim (Rule.Covers t used) (Call.Covers t used later)) tokens
      (c.found (Spot.named? annotations) tokens) := by
  refine runs_found (fun {c t ts x} ht hx => ?_) c tokens
  have hline : (c.step t ts).lineStart = false := lineStart_step ht
  unfold Spot.named? at hx
  split at hx
  · next r hr =>
    cases hx
    unfold Spot.rule? at hr
    dsimp only at hr
    split at hr
    · next hannounces =>
      -- the rule covers the name behind `default`, which is neither a rule nor a call by itself
      obtain ⟨name, hname, rfl⟩ := Option.map_eq_some_iff.1 hr
      obtain ⟨rest, rfl⟩ := List.head?_eq_some_iff.1 hname
      have hident : name.isIdent = true := by
        simp only [Spot.announces, Bool.and_eq_true] at hannounces
        exact hannounces.2
      have hhead : ((c.step t (name :: rest)).spot name rest).isHead = true := by
        rw [Surroundings.step_of_significant ht]
        simp only [Spot.isHead, Bool.or_eq_true]
        exact Or.inl hannounces
      refine ⟨[t], name, [], rest, (c.step t (name :: rest)).step name rest, rfl,
        ⟨⟨hident, rfl⟩, rfl, rfl⟩, found_cons_of_none ?_⟩
      exact named?_of_inner (role_of_lineStart hline) (call?_of_isHead hhead)
    · split at hr
      · next hname =>
        cases hr
        simp only [Spot.isRuleName, Bool.and_eq_true] at hname
        exact ⟨[], t, [], ts, c.step t ts, rfl, ⟨⟨hname.1.2, rfl⟩, rfl, rfl⟩, rfl⟩
      · cases hr
  · obtain ⟨call, hcall, rfl⟩ := Option.map_eq_some_iff.1 hx
    obtain ⟨read, rest, hafter, hcovers⟩ := exists_of_call? hcall
    obtain rfl : ts = read ++ rest := hafter
    obtain ⟨-, path, hread, -⟩ := hcovers.name
    refine ⟨[], t, read, rest, _, rfl, hcovers, hread.found_append hline fun s hrole hs => ?_⟩
    refine named?_of_inner hrole ?_
    rcases hs with hident | hpoint
    · exact call?_of_not_isIdent hident
    · exact call?_of_point hpoint

/-- The rules and the calls of a list of tokens, as they are found together. -/
theorem rules_eq (annotations : List Annotation) (c : Surroundings) (tokens : List Token) :
    (c.found (Spot.named? annotations) tokens).filterMap Sum.getLeft? =
      c.found (Spot.rule? annotations) tokens := by
  unfold Surroundings.found
  rw [List.filterMap_filterMap]
  exact congrArg (List.filterMap · _) (funext (getLeft?_named? annotations))

theorem calls_eq (annotations : List Annotation) (c : Surroundings) (tokens : List Token) :
    (c.found (Spot.named? annotations) tokens).filterMap Sum.getRight? = c.found Spot.call? tokens := by
  unfold Surroundings.found
  rw [List.filterMap_filterMap]
  exact congrArg (List.filterMap · _) (funext (getRight?_named? annotations))

/-! ## Imports and comments -/

theorem import?_of_inner (h : s.role = .inner) : s.import? = none := by
  simp [Spot.import?, h]

theorem runs_imports (c : Surroundings) (tokens : List Token) :
    Runs (fun t used _ => Import.Covers t used) tokens (c.found Spot.import? tokens) := by
  refine runs_found (fun {c t ts i} ht hi => ?_) c tokens
  have hline : (c.step t ts).lineStart = false := lineStart_step ht
  unfold Spot.import? at hi
  split at hi
  · next hword =>
    obtain ⟨r, hr, rfl⟩ := Option.map_eq_some_iff.1 hi
    obtain ⟨first, read, path, hafter, hfirst, hread, hpath, hlast⟩ := Reference.exists_of_read? hr
    obtain rfl : ts = first :: (read ++ r.rest) := hafter
    have hcovers : Import.Covers t (first :: read)
        ⟨r.path, Spot.alias? r.rest, ⟨t.range.start, r.last.range.stop⟩⟩ := by
      refine ⟨hword.2, ⟨first, read, path, rfl, hfirst, hread, hpath⟩, ?_⟩
      rw [List.getLastD_cons, ← hlast]
    let c' := (c.step t (first :: (read ++ r.rest))).step first (read ++ r.rest)
    have hname : (c.step t (first :: (read ++ r.rest))).found Spot.import? (first :: (read ++ r.rest)) =
        c'.found Spot.import? (read ++ r.rest) :=
      found_cons_of_none (import?_of_inner (role_of_lineStart hline))
    have hbehind : c'.lineStart = false := lineStart_step (isSignificant_of_isIdent hfirst)
    exact ⟨[], t, first :: read, r.rest, _, rfl, hcovers, hname.trans
      (hread.found_append hbehind fun s hrole _ => import?_of_inner hrole)⟩
  · cases hi

theorem runs_comments (tokens : List Token) : Runs (fun t used _ => Comment.Covers t used) tokens
    (tokens.filterMap Comment.ofToken?) := by
  induction tokens with
  | nil => exact .nil
  | cons t ts ih =>
    by_cases ht : t.kind = .comment
    · have hcovers : Comment.Covers t [] ⟨t.text, t.range⟩ := ⟨ht, rfl, rfl⟩
      have hfound : Comment.ofToken? t = some ⟨t.text, t.range⟩ := if_pos ht
      rw [List.filterMap_cons_some hfound]
      exact .run hcovers ih
    · have hnone : Comment.ofToken? t = none := if_neg ht
      rw [List.filterMap_cons_none hnone]
      exact .skip ih

/-! ## The order of calls -/

/-- Ranges in a row make one, from the start of the first to the stop of the last. -/
theorem chain_join {t : Token} {cs : List Char} {i : Nat} {tokens rest : List Token}
    (h : Chain cs i ((t :: (tokens ++ rest)).map (·.range))) :
    ∃ j k, i ≤ j ∧ Span cs j k ⟨t.range.start, (tokens.getLastD t).range.stop⟩ ∧
      Chain cs k (rest.map (·.range)) := by
  induction tokens generalizing t i with
  | nil =>
    cases h with
    | cons hi hspan hrest => exact ⟨_, _, hi, hspan, hrest⟩
  | cons u us ih =>
    cases h with
    | @cons i j k r rs hi hspan hrest =>
      obtain ⟨j', k', hj', hspan', hrest'⟩ := ih hrest
      have hle : j ≤ k' := Nat.le_trans hspan.le (Nat.le_trans hj' hspan'.le)
      refine ⟨j, k', hi, ⟨hle, hspan'.le_length, hspan.start, ?_⟩, hrest'⟩
      rw [List.getLastD_cons]
      exact hspan'.stop

/-- Items that cover tokens in a row follow one another through the text. -/
theorem Runs.chain {α : Type} {Covers : Token → List Token → List Token → α → Prop} {range : α → Range}
    (hrange : ∀ {t used later x}, Covers t used later x →
      range x = ⟨t.range.start, (used.getLastD t).range.stop⟩)
    {cs : List Char} {i : Nat} {tokens : List Token} {xs : List α} (h : Runs Covers tokens xs)
    (hchain : Chain cs i (tokens.map (·.range))) : Chain cs i (xs.map range) := by
  induction h generalizing i with
  | nil => exact .nil
  | skip _ ih =>
    cases hchain with
    | cons hi hspan hrest => exact (ih hrest).mono (Nat.le_trans hi hspan.le)
  | run h _ ih =>
    obtain ⟨j, k, hi, hspan, hrest⟩ := chain_join hchain
    rw [List.map_cons, hrange h]
    exact .cons hi hspan (ih hrest)

/-- The calls of a text that parses follow one another through it. -/
theorem chain_calls {text : String} {m : Module} (h : parse text = .ok m) :
    Chain text.toList 0 (m.calls.map (·.range)) := by
  obtain ⟨tokens, htokens, -, rfl⟩ := tokens_of_parse h
  have hruns : Runs Call.Covers tokens (Surroundings.found {} Spot.call? tokens) := by
    rw [← calls_eq []]
    refine (runs_named [] {} tokens).filterMap fun {t used later x call} hx hcall => ?_
    cases x with
    | inl r => cases hcall
    | inr call =>
      cases hcall
      exact hx
  exact hruns.chain (fun hcovers => hcovers.range) (chain_tokens htokens)

end PolicyLint.Rego
