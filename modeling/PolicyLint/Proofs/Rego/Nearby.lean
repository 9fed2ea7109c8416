import PolicyLint.Proofs.Rego.Surroundings
/-!
# What a token says of itself

A token is read together with those around it, but not with all of them: a reference stops at the first
comment or line feed, and the token before matters only where it is significant. So each spot says the
same as the spot that is left when all else is cut away from it (`Spot.nearby`), and a module is what
its spots, its annotations and its comments make of it (`Module.ofSpots_map_nearby`). Two lists of
tokens whose spots are the same nearby declare the same.
-/

namespace PolicyLint.Rego

/-- Nothing that starts with a significant token. -/
def IsBreak (tokens : List Token) : Prop :=
  ∀ t ∈ tokens.head?, t.isSignificant = false

variable {t : Token} {xs ys tokens : List Token}

theorem isBreak_cons (h : t.isSignificant = false) : IsBreak (t :: ys) := by
  simpa [IsBreak] using h

theorem isBreak_dropWhile (tokens : List Token) : IsBreak (tokens.dropWhile Token.isSignificant) := by
  intro t ht
  have hnot := List.head?_dropWhile_not Token.isSignificant tokens
  rw [Option.mem_def.1 ht] at hnot
  simpa using hnot

/-- A list of tokens is a significant front and a break behind it. -/
theorem exists_front (tokens : List Token) : ∃ ys, IsBreak ys ∧
    tokens = tokens.takeWhile Token.isSignificant ++ ys :=
  ⟨_, isBreak_dropWhile tokens, (List.takeWhile_append_dropWhile ..).symm⟩

theorem isSignificant_of_isIdent (h : t.isIdent = true) : t.isSignificant = true := by
  have hk : t.kind = .ident := by simpa [Token.isIdent] using h
  simp [Token.isSignificant, hk]

theorem isSignificant_of_isPunct {c : Char} (h : t.isPunct c = true) : t.isSignificant = true := by
  have hk : t.kind = .punct c := by simpa [Token.isPunct] using h
  simp [Token.isSignificant, hk]

section

variable {p : Token → Bool} (hp : ∀ t, p t = true → t.isSignificant = true)

include hp

/-- A test that only significant tokens pass fails on the others. -/
theorem eq_false_of_insignificant (ht : t.isSignificant = false) : p t = false := by
  rw [← Bool.not_eq_true]
  intro h
  rw [hp t h] at ht
  cases ht

/-- A test that only significant tokens pass does not see behind a break. -/
theorem any_head?_append (hys : IsBreak ys) : (xs ++ ys).head?.any p = xs.head?.any p := by
  cases xs with
  | cons x xs => rfl
  | nil =>
    cases hy : ys.head? with
    | none => simp [hy]
    | some y => simp [hy, eq_false_of_insignificant hp (hys y hy)]

end

/-- A mark before a token is significant. -/
theorem any_isPunct_filter (before : Option Token) (c : Char) :
    (before.filter Token.isSignificant).any (·.isPunct c) = before.any (·.isPunct c) := by
  cases before with
  | none => rfl
  | some t =>
    cases ht : t.isSignificant with
    | true => simp [ht]
    | false =>
      have hno : t.isPunct c = false :=
        eq_false_of_insignificant (fun _ => isSignificant_of_isPunct) ht
      simp [ht, hno]

/-! ## References -/

namespace Reference

theorem isField_eq_true {point name : Token} (h : isField point name = true) :
    point.isSignificant = true ∧ name.isSignificant = true := by
  rw [isField, Bool.and_eq_true] at h
  exact ⟨isSignificant_of_isPunct h.1, isSignificant_of_isIdent h.2⟩

theorem isIndex_eq_true {opening name closing : Token} (h : isIndex opening name closing = true) :
    opening.isSignificant = true ∧ name.isSignificant = true ∧ closing.isSignificant = true := by
  rw [isIndex, Bool.and_eq_true, Bool.and_eq_true, beq_iff_eq] at h
  obtain ⟨⟨ho, hn⟩, hc⟩ := h
  exact ⟨isSignificant_of_isPunct ho, by simp [Token.isSignificant, hn], isSignificant_of_isPunct hc⟩

theorem parts_field {last point name : Token} (rest : List Token) (h : isField point name = true) :
    parts last (point :: name :: rest) =
      { parts name rest with path := name.text :: (parts name rest).path } := by
  cases rest with
  | nil => simp [parts, h]
  | cons closing rest => rw [parts, if_pos h]

theorem parts_index {last opening name closing : Token} (rest : List Token)
    (hfield : isField opening name = false) (h : isIndex opening name closing = true) :
    parts last (opening :: name :: closing :: rest) =
      { parts closing rest with path := name.text :: (parts closing rest).path } := by
  rw [parts, if_neg (by simp [hfield]), if_pos h]

def opensPart : List Token → Bool
  | t :: name :: rest => isField t name || rest.head?.any (isIndex t name)
  | _ => false

theorem parts_stop (last : Token) (h : opensPart tokens = false) :
    parts last tokens = ⟨[], last, tokens⟩ := by
  match tokens, h with
  | [], _ => rfl
  | [t], _ => rfl
  | [t, name], h =>
    rw [opensPart, Bool.or_eq_false_iff] at h
    rw [parts, if_neg (by simp [h.1])]
  | t :: name :: closing :: rest, h =>
    rw [opensPart, Bool.or_eq_false_iff] at h
    rw [parts, if_neg (by simp [h.1]), if_neg (by simpa using h.2)]

/-- A part does not reach over a break. -/
theorem opensPart_append (hys : IsBreak ys) : opensPart (xs ++ ys) = opensPart xs := by
  have hhead (t name : Token) (zs : List Token) :
      (zs ++ ys).head?.any (isIndex t name) = zs.head?.any (isIndex t name) :=
    any_head?_append (fun _ h => (isIndex_eq_true h).2.2) hys
  match xs, ys with
  | t :: name :: rest, ys => rw [List.cons_append, List.cons_append, opensPart, opensPart, hhead]
  | [t], [] | [], [] | [], [u] => rfl
  | [t], u :: us =>
    have hu : ¬ u.isSignificant = true := by simp [hys u rfl]
    have hfield : isField t u = false := by simpa using fun h => hu (isField_eq_true h).2
    have hindex : us.head?.any (isIndex t u) = false := by
      cases us with
      | nil => rfl
      | cons v us => simpa using fun h => hu (isIndex_eq_true h).2.1
    rw [List.singleton_append, opensPart, hfield, hindex]
    rfl
  | [], u :: v :: us =>
    have hu : ¬ u.isSignificant = true := by simp [hys u rfl]
    have hfield : isField u v = false := by simpa using fun h => hu (isField_eq_true h).1
    have hindex : us.head?.any (isIndex u v) = false := by
      cases us with
      | nil => rfl
      | cons w us => simpa using fun h => hu (isIndex_eq_true h).1
    rw [List.nil_append, opensPart, hfield, hindex]
    rfl

/-- Further parts are read up to a break, as if nothing stood behind it. -/
theorem parts_append (last : Token) (hys : IsBreak ys) : parts last (xs ++ ys) =
    { parts last xs with rest := (parts last xs).rest ++ ys } := by
  have hstop (last : Token) {xs : List Token} (h : opensPart xs = false) : parts last (xs ++ ys) =
      { parts last xs with rest := (parts last xs).rest ++ ys } := by
    rw [parts_stop last ((opensPart_append hys).trans h), parts_stop last h]
  induction last, xs using parts.induct with
  | case1 last | case2 last t => exact hstop last rfl
  | case3 last t name hfield =>
    rw [List.cons_append, List.cons_append, parts_field _ hfield, parts_field _ hfield,
      hstop name rfl]
  | case4 last t name hfield => exact hstop last (by simpa [opensPart] using hfield)
  | case5 last t name closing rest hfield ih =>
    rw [List.cons_append, List.cons_append, parts_field _ hfield, parts_field _ hfield, ih]
  | case6 last t name closing rest hfield hindex ih =>
    rw [Bool.not_eq_true] at hfield
    rw [List.cons_append, List.cons_append, List.cons_append, parts_index _ hfield hindex,
      parts_index _ hfield hindex, ih]
  | case7 last t name closing rest hfield hindex =>
    rw [Bool.not_eq_true] at hfield hindex
    exact hstop last (by simp [opensPart, hfield, hindex])

/-- A reference is read up to a break. -/
theorem read?_append (hys : IsBreak ys) : read? (xs ++ ys) =
    (read? xs).map fun r => { r with rest := r.rest ++ ys } := by
  cases xs with
  | cons x xs =>
    rw [List.cons_append, read?, read?]
    split
    · rw [parts_append x hys]
      rfl
    · rfl
  | nil =>
    have hnone : (read? ys).isSome = false := by
      rw [read?_isSome]
      exact @any_head?_append [] ys _ (fun _ => isSignificant_of_isIdent) hys
    rw [List.nil_append, Option.isSome_eq_false_iff.1 hnone |> Option.isNone_iff_eq_none.1]
    rfl

end Reference

/-! ## Spots -/

namespace Spot

/-- A spot with what it has nothing to say of cut away. -/
def nearby (s : Spot) : Spot :=
  { s with
    before := s.before.filter Token.isSignificant
    after := s.after.takeWhile Token.isSignificant }

variable (s : Spot)

/-- Behind a spot there is what is left of it nearby, and a break. -/
theorem exists_after : ∃ ys, IsBreak ys ∧ s.after = s.nearby.after ++ ys :=
  exists_front s.after

theorem isIdent_after_nearby :
    s.nearby.after.head?.any Token.isIdent = s.after.head?.any Token.isIdent := by
  obtain ⟨ys, hys, hafter⟩ := s.exists_after
  rw [hafter]
  exact (any_head?_append (fun _ => isSignificant_of_isIdent) hys).symm

theorem isSome_read?_nearby :
    (Reference.read? s.nearby.after).isSome = (Reference.read? s.after).isSome := by
  rw [Reference.read?_isSome, Reference.read?_isSome, isIdent_after_nearby]

theorem errors_nearby : s.nearby.errors = s.errors := by
  have hstatement : s.nearby.statementFault? = s.statementFault? := by
    unfold statementFault?
    rw [isSome_read?_nearby, isIdent_after_nearby]
    rfl
  rw [errors, hstatement]
  rfl

theorem announces_nearby : s.nearby.announces = s.announces := by
  rw [announces, isIdent_after_nearby]
  rfl

theorem package?_nearby (annotations : List Annotation) :
    s.nearby.package? annotations = s.package? annotations := by
  obtain ⟨ys, hys, hafter⟩ := s.exists_after
  unfold package?
  rw [hafter, Reference.read?_append hys, Option.map_map]
  rfl

theorem alias?_append (hys : IsBreak ys) : alias? (xs ++ ys) = alias? xs := by
  have hword (u : Token) (hu : u ∈ ys.head?) : u.isWord "as" = false ∧ u.isIdent = false := by
    have hident : u.isIdent = false :=
      eq_false_of_insignificant (fun _ => isSignificant_of_isIdent) (hys u hu)
    exact ⟨by simp_all [Token.isWord, Token.isIdent], hident⟩
  match xs, ys with
  | [], [] => rfl
  | [], [u] => rfl
  | [], u :: v :: us => simp [alias?, (hword u rfl).1]
  | [x], [] => rfl
  | [x], u :: us => simp [alias?, (hword u rfl).2]
  | x :: x' :: xs, ys => rfl

theorem import?_nearby : s.nearby.import? = s.import? := by
  obtain ⟨ys, hys, hafter⟩ := s.exists_after
  unfold import?
  rw [hafter, Reference.read?_append hys, Option.map_map]
  congr 2
  funext r
  simp only [Function.comp, alias?_append hys]
  rfl

theorem rule?_nearby (annotations : List Annotation) :
    s.nearby.rule? annotations = s.rule? annotations := by
  unfold rule?
  dsimp only
  rw [announces_nearby]
  split
  · next h =>
    -- the name that is announced is significant
    simp only [announces, Bool.and_eq_true] at h
    cases ha : s.after with
    | nil => simp [nearby, ha]
    | cons name rest =>
      have hname : name.isIdent = true := by simpa [ha] using h.2
      simp [nearby, ha, isSignificant_of_isIdent hname]
  · rfl

theorem call?_nearby : s.nearby.call? = s.call? := by
  have hhead : s.nearby.isHead = s.isHead := rfl
  have htoken : s.nearby.token = s.token := rfl
  have hbefore : s.nearby.before.any (·.isPunct '.') = s.before.any (·.isPunct '.') :=
    any_isPunct_filter s.before '.'
  obtain ⟨ys, hys, hafter⟩ := s.exists_after
  unfold call?
  rw [hhead, htoken, hbefore, hafter, ← List.cons_append, Reference.read?_append hys]
  congr 1
  cases Reference.read? (s.token :: s.nearby.after) with
  | none => rfl
  | some r =>
    obtain ⟨path, last, rest⟩ := r
    match rest, ys with
    | u :: us, ys => rfl
    | [], [] => rfl
    | [], u :: us =>
      -- what stands directly behind the reference is no parenthesis
      have hu : u.isPunct '(' = false :=
        eq_false_of_insignificant (fun _ => isSignificant_of_isPunct) (hys u rfl)
      simp [hu]

end Spot

/-! ## Modules -/

/-- What spots, annotations and comments make of a module. -/
def Module.ofSpots (spots : List Spot) (annotations : List Annotation) (comments : List Comment) :
    Module where
  package := (spots.findSome? (·.package? annotations)).getD {}
  imports := spots.filterMap (·.import?)
  rules := spots.filterMap (·.rule? annotations)
  annotations
  comments
  calls := spots.filterMap (·.call?)

theorem Module.ofTokens_eq (tokens : List Token) : Module.ofTokens tokens =
    Module.ofSpots (Spot.ofTokens {} tokens) (Rego.Annotation.ofTokens tokens)
      (tokens.filterMap Comment.ofToken?) :=
  rfl

theorem errorsOf_map_nearby (spots : List Spot) :
    errorsOf (spots.map Spot.nearby) = errorsOf spots := by
  have hleft : Spot.leftOpen (spots.map Spot.nearby) = Spot.leftOpen spots := by
    unfold Spot.leftOpen
    rw [List.getLast?_map, Option.map_map]
    rfl
  unfold errorsOf
  rw [hleft, List.isEmpty_map, List.flatMap_map]
  simp only [Spot.errors_nearby]

/-- A module is made of what its spots are nearby. -/
theorem Module.ofSpots_map_nearby (spots : List Spot) (annotations : List Annotation)
    (comments : List Comment) : Module.ofSpots (spots.map Spot.nearby) annotations comments =
      Module.ofSpots spots annotations comments := by
  unfold Module.ofSpots
  simp only [List.findSome?_map, List.filterMap_map, Function.comp_def, Spot.package?_nearby,
    Spot.import?_nearby, Spot.rule?_nearby, Spot.call?_nearby]

/-! ## Surroundings -/

/-- What is open after a token, and what it announces, shows nearby. -/
theorem Surroundings.next_congr {s s' : Spot} (c : Surroundings) (h : s.nearby = s'.nearby) :
    c.next s = c.next s' := by
  have htoken : s.token = s'.token := (congrArg Spot.token h :)
  have hrole : s.role = s'.role := (congrArg Spot.role h :)
  have hopened : s.openedAfter = s'.openedAfter := (congrArg Spot.openedAfter h :)
  have hannounces : s.announces = s'.announces := by
    rw [← s.announces_nearby, h, s'.announces_nearby]
  rw [next, next, htoken, hrole, hopened, hannounces]

theorem takeWhile_append_isBreak (hys : IsBreak ys) : (xs ++ ys).takeWhile Token.isSignificant =
    xs.takeWhile Token.isSignificant := by
  induction xs with
  | nil =>
    cases ys with
    | nil => rfl
    | cons y ys => simp [hys y rfl]
  | cons x xs ih => simp only [List.cons_append, List.takeWhile_cons, ih]

/-- What stands behind a break is not seen from before it. -/
theorem map_nearby_append (c : Surroundings) (hys : IsBreak ys) :
    (Spot.ofTokens c (xs ++ ys)).map Spot.nearby = (Spot.ofTokens c xs).map Spot.nearby ++
      (Spot.ofTokens (c.read xs ys) ys).map Spot.nearby := by
  induction xs generalizing c with
  | nil => rfl
  | cons x xs ih =>
    rw [List.cons_append, Spot.ofTokens, Spot.ofTokens, Surroundings.read, Surroundings.step]
    have hspot : (c.spot x (xs ++ ys)).nearby = (c.spot x xs).nearby := by
      simp only [Surroundings.spot, Spot.nearby, takeWhile_append_isBreak hys]
    split
    · rw [List.map_cons, List.map_cons, ih, hspot, c.next_congr hspot, List.cons_append]
    · exact ih (c.pass x)

namespace Surroundings

def nearby (c : Surroundings) : Surroundings :=
  { c with before := c.before.filter Token.isSignificant }

variable {c c' : Surroundings}

theorem nearby_spot (h : c.nearby = c'.nearby) (t : Token)
    (ha : xs.takeWhile Token.isSignificant = ys.takeWhile Token.isSignificant) :
    (c.spot t xs).nearby = (c'.spot t ys).nearby := by
  have hspot (c : Surroundings) (after : List Token) :
      (c.spot t after).nearby = c.nearby.spot t (after.takeWhile Token.isSignificant) := rfl
  rw [hspot, hspot, h, ha]

theorem nearby_next (h : c.nearby = c'.nearby) (s : Spot) :
    (c.next s).nearby = (c'.next s).nearby := by
  have hcontinues (c : Surroundings) :
      s.token.continues c.nearby.before = s.token.continues c.before := by
    have hbefore : c.nearby.before.any (·.isPunct '.') = c.before.any (·.isPunct '.') :=
      any_isPunct_filter c.before '.'
    unfold Token.continues
    rw [hbefore]
  have hstarted : c.started = c'.started := (congrArg started h :)
  rw [next, next, ← hcontinues c, ← hcontinues c', h, hstarted]

theorem nearby_pass (h : c.nearby = c'.nearby) {t t' : Token} (hk : t.kind = t'.kind)
    (ht : t.isSignificant = false) : (c.pass t).nearby = (c'.pass t').nearby := by
  have ht' : t'.isSignificant = false := by simpa [Token.isSignificant, hk] using ht
  have hpass {c : Surroundings} {t : Token} (ht : t.isSignificant = false) : (c.pass t).nearby =
      { c.nearby with
        lineStart := c.nearby.lineStart || t.kind == .newline, before := none, announced := false } := by
    simp [pass, nearby, ht]
  rw [hpass ht, hpass ht', h, hk]

end Surroundings

/-! ## Comments at the ends of lines -/

/-- Tokens, and what is left of them when each comment, at the end of its line, is left out. -/
inductive Uncommented : List Token → List Token → Prop
  | nil : Uncommented [] []
  | keep {ts us : List Token} (t : Token) (h : Uncommented ts us) : Uncommented (t :: ts) (t :: us)
  | last {t : Token} (ht : t.kind = .comment) : Uncommented [t] []
  | line {t n n' : Token} {ts us : List Token} (ht : t.kind = .comment) (hn : n.kind = .newline)
      (hn' : n'.kind = .newline) (h : Uncommented ts us) : Uncommented (t :: n :: ts) (n' :: us)

namespace Uncommented

variable {ts us : List Token}

theorem refl (tokens : List Token) : Uncommented tokens tokens := by
  induction tokens with
  | nil => exact .nil
  | cons t ts ih => exact .keep t ih

theorem tail {t u : Token} (ht : t.kind ≠ .comment) (h : Uncommented (t :: ts) (u :: us)) :
    Uncommented ts us := by
  cases h with
  | keep _ h => exact h
  | line hcomment => exact absurd hcomment ht

theorem takeWhile_eq (h : Uncommented ts us) : ts.takeWhile Token.isSignificant =
    us.takeWhile Token.isSignificant := by
  induction h with
  | nil => rfl
  | keep t _ ih => simp only [List.takeWhile_cons, ih]
  | last ht => simp [Token.isSignificant, ht]
  | line ht hn hn' _ _ => simp [Token.isSignificant, ht, hn']

/-- Comments at the ends of lines are not near any token. -/
theorem map_nearby_eq (h : Uncommented ts us) {c c' : Surroundings} (hc : c.nearby = c'.nearby) :
    (Spot.ofTokens c ts).map Spot.nearby = (Spot.ofTokens c' us).map Spot.nearby := by
  induction h generalizing c c' with
  | nil => rfl
  | @keep ts us t h ih =>
    rw [Spot.ofTokens, Spot.ofTokens]
    have hspot := Surroundings.nearby_spot hc t h.takeWhile_eq
    split
    · have hnext := Surroundings.nearby_next hc (c.spot t ts)
      rw [c'.next_congr hspot] at hnext
      rw [List.map_cons, List.map_cons, ih hnext, hspot]
    · next ht => exact ih (Surroundings.nearby_pass hc rfl (by simpa using ht))
  | last ht => simp [Spot.ofTokens, Token.isSignificant, ht]
  | @line t n n' ts us ht hn hn' h ih =>
    have hinsignificant : t.isSignificant = false ∧ n.isSignificant = false ∧
        n'.isSignificant = false := by
      simp [Token.isSignificant, ht, hn, hn']
    obtain ⟨hti, hni, hni'⟩ := hinsignificant
    simp only [Spot.ofTokens, hti, hni, hni', Bool.false_eq_true, if_false]
    -- a comment leaves the start of the line to the line feed
    refine ih ?_
    have hpass : ((c.pass t).pass n).nearby = (c.pass n).nearby := by
      simp [Surroundings.pass, Surroundings.nearby, ht, hn]
    rw [hpass]
    exact Surroundings.nearby_pass hc (hn.trans hn'.symm) hni

end Uncommented

end PolicyLint.Rego
