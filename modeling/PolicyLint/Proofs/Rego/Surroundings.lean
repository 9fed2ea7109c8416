import Mathlib.Data.List.Induction
import PolicyLint.Proofs.Rego.TokenRanges
/-!
# What the tokens before tell

The surroundings of a token are gathered while the tokens before it are read, one after the other.
Here each part of them is said of those tokens outright: whether a line starts behind them
(`StartsLine`), whether what they end in wants more (`Complete`), and which brackets they leave open
(`unclosed`). The significant tokens of a text are met in the surroundings that reading the tokens
before them leads to (`mem_spots_iff`).
-/

namespace PolicyLint.Rego

/-! ## The law -/

/-- A line starts behind some tokens: behind every significant one there is a line feed. -/
def StartsLine (before : List Token) : Prop :=
  ∀ front t gap, before = front ++ t :: gap → t.isSignificant = true → ∃ u ∈ gap, u.kind = .newline

/-- A significant token behind `front` wants more on the next line: it is an operator, or a word that
is no part of a reference. -/
def GoesOn (front : List Token) (t : Token) : Prop :=
  (∃ c ∈ [',', '=', '+', '-', '*', '/', '|', '&', ':', '<', '>', '!', '.'], t.kind = .punct c) ∨
    t.kind = .ident ∧ t.text ∈ ["if", "contains", "else", "with"] ∧
      ∀ point, front.getLast? = some point → point.kind ≠ .punct '.'

/-- What some tokens say is complete: the last significant one among them, if any, does not go on. -/
def Complete (before : List Token) : Prop :=
  ∀ front t gap, before = front ++ t :: gap → t.isSignificant = true →
    (∀ u ∈ gap, u.isSignificant = false) → ¬ GoesOn front t

theorem goesOn_iff {front : List Token} {t : Token} :
    GoesOn front t ↔ t.continues front.getLast? = true := by
  unfold GoesOn Token.continues
  cases hk : t.kind <;> cases hf : front.getLast? <;> simp [Token.isPunct, and_comm]

/-! ## One token more -/

/-- A list that is cut at a member is cut at its last one, or has the last one behind the cut. -/
theorem cut_of_concat {α : Type} {before front gap : List α} {t u : α}
    (h : before ++ [t] = front ++ u :: gap) :
    (front = before ∧ u = t ∧ gap = []) ∨ ∃ gap', gap = gap' ++ [t] ∧ before = front ++ u :: gap' := by
  rcases gap.eq_nil_or_concat with rfl | ⟨gap', v, rfl⟩
  · obtain ⟨hbefore, ht⟩ := List.append_inj' h rfl
    exact Or.inl ⟨hbefore.symm, (List.singleton_inj.1 ht).symm, rfl⟩
  · have hlast : before ++ [t] = (front ++ u :: gap') ++ [v] := by simpa using h
    obtain ⟨hbefore, hv⟩ := List.append_inj' hlast rfl
    refine Or.inr ⟨gap', ?_, hbefore⟩
    rw [List.singleton_inj.1 hv, List.concat_eq_append]

variable {before : List Token} {t : Token}

theorem startsLine_nil : StartsLine [] := by
  intro front t gap h
  cases front <;> cases h

theorem startsLine_concat : StartsLine (before ++ [t]) ↔
    t.kind = .newline ∨ t.isSignificant = false ∧ StartsLine before := by
  constructor
  · intro h
    by_cases hn : t.kind = .newline
    · exact Or.inl hn
    · refine Or.inr ⟨?_, fun front u gap hb hu => ?_⟩
      · rw [← Bool.not_eq_true]
        intro ht
        obtain ⟨u, hu, -⟩ := h before t [] rfl ht
        cases hu
      · obtain ⟨v, hv, hvn⟩ := h front u (gap ++ [t]) (by simp [hb]) hu
        rcases List.mem_append.1 hv with hv | hv
        · exact ⟨v, hv, hvn⟩
        · rw [List.mem_singleton.1 hv] at hvn
          exact absurd hvn hn
  · intro h front u gap hb hu
    rcases cut_of_concat hb with ⟨-, rfl, -⟩ | ⟨gap', rfl, hbefore⟩
    · rcases h with hn | ⟨ht, -⟩
      · simp [Token.isSignificant, hn] at hu
      · rw [ht] at hu
        cases hu
    · rcases h with hn | ⟨-, h⟩
      · exact ⟨t, by simp, hn⟩
      · obtain ⟨v, hv, hvn⟩ := h front u gap' hbefore hu
        exact ⟨v, List.mem_append_left _ hv, hvn⟩

theorem complete_nil : Complete [] := by
  intro front t gap h
  cases front <;> cases h

theorem complete_concat : Complete (before ++ [t]) ↔
    if t.isSignificant = true then ¬ GoesOn before t else Complete before := by
  split
  · next ht =>
    constructor
    · intro h
      exact h before t [] rfl ht (by simp)
    · intro h front u gap hb hu hgap
      rcases cut_of_concat hb with ⟨rfl, rfl, -⟩ | ⟨gap', rfl, -⟩
      · exact h
      · rw [hgap t (by simp)] at ht
        cases ht
  · next ht =>
    rw [Bool.not_eq_true] at ht
    constructor
    · intro h front u gap hb hu hgap
      refine h front u (gap ++ [t]) (by simp [hb]) hu fun v hv => ?_
      rcases List.mem_append.1 hv with hv | hv
      · exact hgap v hv
      · rw [List.mem_singleton.1 hv]
        exact ht
    · intro h front u gap hb hu hgap
      rcases cut_of_concat hb with ⟨-, rfl, -⟩ | ⟨gap', rfl, hbefore⟩
      · rw [ht] at hu
        cases hu
      · exact h front u gap' hbefore hu fun v hv => hgap v (List.mem_append_left _ hv)

/-! ## Reading tokens -/

namespace Surroundings

/-- The surroundings after a token of any kind, with others to follow. -/
def step (c : Surroundings) (t : Token) (after : List Token) : Surroundings :=
  if t.isSignificant then c.next (c.spot t after) else c.pass t

/-- The surroundings after some tokens, with others to follow. -/
def read (c : Surroundings) : List Token → List Token → Surroundings
  | [], _ => c
  | t :: ts, after => (c.step t (ts ++ after)).read ts after

theorem read_append (c : Surroundings) (xs ys after : List Token) :
    c.read (xs ++ ys) after = (c.read xs (ys ++ after)).read ys after := by
  induction xs generalizing c with
  | nil => rfl
  | cons x xs ih =>
    rw [List.cons_append, read, read, ih, List.append_assoc]

theorem read_concat (c : Surroundings) (before : List Token) (t : Token) (after : List Token) :
    c.read (before ++ [t]) after = (c.read before (t :: after)).step t after :=
  read_append c before [t] after

/-- Whether a token is significant decides what its step keeps. -/
theorem step_of_significant {c : Surroundings} {after : List Token} (h : t.isSignificant = true) :
    c.step t after = c.next (c.spot t after) :=
  if_pos h

theorem step_of_insignificant {c : Surroundings} {after : List Token}
    (h : t.isSignificant = false) : c.step t after = c.pass t :=
  if_neg (by simp [h])

end Surroundings

/-- The significant tokens of a list, each in the surroundings that the tokens before it lead to. -/
theorem mem_spots_iff {c : Surroundings} {tokens : List Token} {s : Spot} :
    s ∈ Spot.ofTokens c tokens ↔ ∃ before t after, tokens = before ++ t :: after ∧
      t.isSignificant = true ∧ s = (c.read before (t :: after)).spot t after := by
  induction tokens generalizing c with
  | nil => simp [Spot.ofTokens]
  | cons x xs ih =>
    have hhead : (∃ before t after, x :: xs = before ++ t :: after ∧ t.isSignificant = true ∧
        s = (c.read before (t :: after)).spot t after) ↔
        x.isSignificant = true ∧ s = c.spot x xs ∨ s ∈ Spot.ofTokens (c.step x xs) xs := by
      rw [ih]
      constructor
      · rintro ⟨before, t, after, hx, ht, hs⟩
        cases before with
        | nil =>
          injection hx with hx hxs
          subst hx hxs
          exact Or.inl ⟨ht, hs⟩
        | cons y before =>
          injection hx with hx hxs
          subst hx hxs
          exact Or.inr ⟨before, t, after, rfl, ht, hs⟩
      · rintro (⟨hx, hs⟩ | ⟨before, t, after, rfl, ht, hs⟩)
        · exact ⟨[], x, xs, rfl, hx, hs⟩
        · exact ⟨x :: before, t, after, rfl, ht, hs⟩
    rw [hhead, Spot.ofTokens]
    split
    · next hx => simp [Surroundings.step_of_significant hx, hx]
    · next hx => simp [Surroundings.step_of_insignificant (by simpa using hx), hx]

/-! ## What is read off the tokens -/

section

variable (before after : List Token)

theorem before_read : (Surroundings.read {} before after).before = before.getLast? := by
  induction before using List.reverseRecOn generalizing after with
  | nil => rfl
  | append_singleton before t ih =>
    rw [Surroundings.read_concat, List.getLast?_concat]
    unfold Surroundings.step
    split <;> rfl

theorem lineStart_read :
    (Surroundings.read {} before after).lineStart = true ↔ StartsLine before := by
  induction before using List.reverseRecOn generalizing after with
  | nil => simp [Surroundings.read, startsLine_nil]
  | append_singleton before t ih =>
    rw [Surroundings.read_concat, startsLine_concat]
    cases ht : t.isSignificant with
    | true =>
      have hn : t.kind ≠ .newline := fun hn => by simp [Token.isSignificant, hn] at ht
      simp [Surroundings.step_of_significant ht, Surroundings.next, hn]
    | false =>
      simp [Surroundings.step_of_insignificant ht, Surroundings.pass, ih, or_comm]

theorem continues_read :
    (Surroundings.read {} before after).continues = false ↔ Complete before := by
  induction before using List.reverseRecOn generalizing after with
  | nil => simp [Surroundings.read, complete_nil]
  | append_singleton before t ih =>
    rw [Surroundings.read_concat, complete_concat]
    cases ht : t.isSignificant with
    | true =>
      rw [if_pos rfl, Surroundings.step_of_significant ht, goesOn_iff,
        ← before_read before (t :: after)]
      simp [Surroundings.next, Surroundings.spot]
    | false =>
      rw [Surroundings.step_of_insignificant ht]
      simpa [Surroundings.pass] using ih (t :: after)

end

instance : DecidablePred Complete := fun before =>
  decidable_of_iff _ (continues_read before [])

/-! ## Brackets -/

/-- The brackets open after a token, the innermost first, when `opened` are open before it; none if it
is a closing bracket that does not belong to the innermost open one. -/
def Token.openAfter? (t : Token) (opened : List Token) : Option (List Token) :=
  if t.isOpening then some (t :: opened)
  else match t.closing?, opened with
    | none, _ => some opened
    | some _, [] => none
    | some _, o :: rest => if t.closes o then some rest else none

/-- The brackets open after some tokens; none if one of them closes what is not open. -/
def unclosed (opened : List Token) : List Token → Option (List Token)
  | [] => some opened
  | t :: ts => (t.openAfter? opened).bind fun o => unclosed o ts

theorem unclosed_append (opened xs ys : List Token) :
    unclosed opened (xs ++ ys) = (unclosed opened xs).bind fun o => unclosed o ys := by
  induction xs generalizing opened with
  | nil => rfl
  | cons x xs ih =>
    rw [List.cons_append, unclosed, unclosed, Option.bind_assoc]
    congr 1
    funext o
    exact ih o

theorem closing?_of_isOpening (h : t.isOpening = true) : t.closing? = none := by
  unfold Token.isOpening at h
  unfold Token.closing?
  cases hk : t.kind with
  | punct c =>
    simp only [hk, closingOf?] at h
    split at h <;> first | rfl | cases h
  | _ => rfl

theorem openAfter?_of_insignificant (h : t.isSignificant = false) (opened : List Token) :
    t.openAfter? opened = some opened := by
  unfold Token.openAfter? Token.isOpening Token.closing?
  cases hk : t.kind <;> simp [Token.isSignificant, hk] at h ⊢

/-- A significant token leaves open what the brackets around it say, unless it is at fault. -/
theorem openAfter?_spot (s : Spot) : s.token.openAfter? s.opened =
    if s.bracketFault? = none then some s.openedAfter else none := by
  unfold Token.openAfter? Spot.bracketFault? Spot.openedAfter
  cases ho : s.token.isOpening with
  | true => simp [closing?_of_isOpening ho]
  | false =>
    cases hc : s.token.closing? with
    | none => simp
    | some c =>
      cases s.opened with
      | nil => simp
      | cons o rest => by_cases hcl : s.token.closes o = true <;> simp [hcl]

/-- The brackets of a list are in order if and only if none of its tokens is at fault. -/
theorem isSome_unclosed_iff {c : Surroundings} {tokens : List Token} :
    (unclosed c.opened tokens).isSome = true ↔
      ∀ s ∈ Spot.ofTokens c tokens, s.bracketFault? = none := by
  induction tokens generalizing c with
  | nil => simp [unclosed, Spot.ofTokens]
  | cons t ts ih =>
    rw [unclosed, Spot.ofTokens]
    split
    · have hspot : t.openAfter? c.opened = _ := openAfter?_spot (c.spot t ts)
      rw [hspot, List.forall_mem_cons, ← ih]
      split <;> simp_all [Surroundings.next]
    · next ht =>
      rw [openAfter?_of_insignificant (by simpa using ht), ← ih]
      rfl

/-- What is open after the last significant token is what the tokens leave open. -/
theorem leftOpen_eq {c : Surroundings} {tokens opened : List Token}
    (h : unclosed c.opened tokens = some opened) :
    ((Spot.ofTokens c tokens).getLast?.map Spot.openedAfter).getD c.opened = opened := by
  induction tokens generalizing c with
  | nil => exact Option.some.inj h
  | cons t ts ih =>
    rw [unclosed] at h
    obtain ⟨o, ho, h⟩ := Option.bind_eq_some_iff.1 h
    rw [Spot.ofTokens]
    split
    · have hspot : t.openAfter? c.opened = _ := openAfter?_spot (c.spot t ts)
      rw [ho] at hspot
      split at hspot
      · cases hspot
        have hnext := ih (c := c.next (c.spot t ts)) h
        rw [List.getLast?_cons]
        cases hl : (Spot.ofTokens (c.next (c.spot t ts)) ts).getLast? with
        | none =>
          rw [hl] at hnext
          exact hnext
        | some s =>
          rw [hl] at hnext
          exact hnext
      · cases hspot
    · next ht =>
      rw [openAfter?_of_insignificant (by simpa using ht)] at ho
      cases ho
      exact ih (c := c.pass t) h

/-- The brackets open around a token are those that the tokens before it leave open. -/
theorem opened_read {c : Surroundings} {before after opened : List Token}
    (h : unclosed c.opened before = some opened) : (c.read before after).opened = opened := by
  induction before generalizing c with
  | nil => exact Option.some.inj h
  | cons t ts ih =>
    rw [unclosed] at h
    obtain ⟨o, ho, h⟩ := Option.bind_eq_some_iff.1 h
    rw [Surroundings.read]
    refine ih ?_
    cases ht : t.isSignificant with
    | true =>
      have hspot : t.openAfter? c.opened = _ := openAfter?_spot (c.spot t (ts ++ after))
      rw [ho] at hspot
      split at hspot
      · cases hspot
        rw [Surroundings.step_of_significant ht]
        exact h
      · cases hspot
    | false =>
      rw [openAfter?_of_insignificant ht] at ho
      cases ho
      rw [Surroundings.step_of_insignificant ht]
      exact h

end PolicyLint.Rego
