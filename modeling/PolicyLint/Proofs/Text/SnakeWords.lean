import Mathlib
import PolicyLint.Text.SnakeCase
/-!
# Words in snake case

A text is in snake case when it is made of words without capitals, with single underscores between
them (`IsSnakeCase`). The snake case of any text is (`isSnakeCase_ofIdent`), and a text in snake case
is its own (`ofIdent_eq_self_iff`): splitting at the case of letters only cuts at capitals, so it
leaves the words of such a text whole.

Splitting loses nothing but underscores, so a text and its snake case have the same letters and digits
in the same order (`letters_ofIdent`).
-/

namespace PolicyLint.SnakeCase

/-- A word in snake case: neither empty nor with a capital or an underscore. -/
structure IsWord (w : List Char) : Prop where
  ne_nil : w ≠ []
  lower : ∀ c ∈ w, c.isUpper = false
  whole : '_' ∉ w

/-- A text made of words, with single underscores between them. -/
def IsSnakeCase (cs : List Char) : Prop :=
  ∃ ws, (∀ w ∈ ws, IsWord w) ∧ cs = join ws

/-- The letters and digits of an identifier. -/
def letters (cs : List Char) : List Char :=
  cs.filter (· ≠ '_')

variable {cs w : List Char} {ws : List (List Char)} {last : Case}

/-! ## Splitting where the case changes -/

theorem flatten_splitCase (last : Case) (word cs : List Char) :
    (splitCase last word cs).flatten = word ++ cs := by
  fun_induction splitCase last word cs with
  | case1 => simp_all
  | case2 => simp_all
  | case3 => simp
  | case4 last word c d rest h ih => simp [ih]
  | case5 last word c d rest h h' ih => simp [ih]
  | case6 last word c d rest h h' ih => simp [ih]

/-- A word is only ended when something of it was read. -/
theorem ne_nil_of_mem_splitCase {word : List Char} (hlast : last = .upper → word ≠ [])
    (h : w ∈ splitCase last word cs) : w ≠ [] := by
  fun_induction splitCase last word cs with
  | case1 => simp_all
  | case2 => simp_all
  | case3 => simp_all
  | case4 last word c d rest hcut ih =>
    rcases List.mem_cons.1 h with rfl | h
    · simp
    · exact ih (by simp) h
  | case5 last word c d rest _ hcut ih =>
    rcases List.mem_cons.1 h with rfl | h
    · exact hlast hcut.1
    · exact ih (by simp) h
  | case6 last word c d rest _ _ ih => exact ih (by simp) h

/-- Without a capital there is nothing to split at. -/
theorem splitCase_of_lower {word : List Char} (hlower : ∀ c ∈ cs, c.isUpper = false)
    (hne : word ++ cs ≠ []) : splitCase last word cs = [word ++ cs] := by
  fun_induction splitCase last word cs with
  | case1 => simp_all
  | case2 => simp_all
  | case3 => rfl
  | case4 last word c d rest hcut ih =>
    rw [hlower d (by simp)] at hcut
    cases hcut.2
  | case5 last word c d rest _ hcut ih =>
    rw [hlower c (by simp)] at hcut
    cases hcut.2.1
  | case6 last word c d rest _ _ ih =>
    rw [ih (fun e he => hlower e (List.mem_cons_of_mem c he)) (by simp)]
    simp

/-! ## Words -/

theorem join_eq_intercalate (ws : List (List Char)) : join ws = ['_'].intercalate ws := by
  fun_induction join ws with
  | case1 => rfl
  | case2 w => simp [List.intercalate]
  | case3 w ws _ ih =>
    cases ws with
    | nil => contradiction
    | cons v ws => rw [List.intercalate_cons_cons, ih, List.append_assoc, List.singleton_append]

/-- Splitting into words loses nothing but underscores. -/
theorem flatten_words (cs : List Char) : (words cs).flatten = letters cs :=
  calc (words cs).flatten
    _ = ((pieces '_' cs).filter (· ≠ [])).flatMap fun p => (splitCase .none [] p).flatten := by
      rw [words, List.flatMap_def, List.flatMap_def, List.flatten_flatten, List.map_map]
      rfl
    _ = ((pieces '_' cs).filter (· ≠ [])).flatten := by simp [flatten_splitCase]
    _ = (pieces '_' cs).flatten := List.flatten_filter_ne_nil
    _ = letters cs := flatten_pieces '_' cs

theorem ne_nil_of_mem_words (h : w ∈ words cs) : w ≠ [] := by
  obtain ⟨piece, -, hw⟩ := List.mem_flatMap.1 h
  exact ne_nil_of_mem_splitCase (by simp) hw

theorem notMem_of_mem_words (h : w ∈ words cs) : '_' ∉ w := by
  intro hmem
  have : '_' ∈ letters cs := by
    rw [← flatten_words]
    exact List.mem_flatten.2 ⟨w, h, hmem⟩
  simp [letters] at this

/-- The words of a text in snake case are the words it is made of. -/
theorem words_join (h : ∀ w ∈ ws, IsWord w) : words (join ws) = ws := by
  rw [words, join_eq_intercalate]
  cases hws : ws with
  | nil => rfl
  | cons v vs =>
    rw [← hws, pieces_intercalate (fun w hw => (h w hw).whole) (by simp [hws]),
      List.filter_eq_self.2 fun w hw => by simpa using (h w hw).ne_nil]
    have hsplit (w) (hw : w ∈ ws) : splitCase .none [] w = [w] :=
      splitCase_of_lower (h w hw).lower (h w hw).ne_nil
    rw [List.flatMap_congr hsplit]
    simp

/-! ## Snake case -/

theorem toLower_of_not_isUpper {c : Char} (h : c.isUpper = false) : c.toLower = c :=
  Char.toLower_eq_of_not_isUpper (by simp [h])

theorem toLower_eq_underscore_iff {c : Char} : c.toLower = '_' ↔ c = '_' := by
  constructor
  · intro h
    cases hupper : c.isUpper with
    | false => rwa [toLower_of_not_isUpper hupper] at h
    | true =>
      have hlower := Char.isLower_toLower_eq_isAlpha c
      rw [h, Char.isAlpha, hupper] at hlower
      cases hlower
  · rintro rfl
    rfl

theorem isWord_map_toLower (h : w ∈ words cs) : IsWord (w.map Char.toLower) where
  ne_nil := by simpa using ne_nil_of_mem_words h
  lower := by simp
  whole := by
    intro hmem
    obtain ⟨c, hc, hlower⟩ := List.mem_map.1 hmem
    rw [toLower_eq_underscore_iff.1 hlower] at hc
    exact notMem_of_mem_words h hc

/-- The snake case of a text is in snake case. -/
theorem isSnakeCase_ofIdent (cs : List Char) : IsSnakeCase (ofIdent cs) := by
  refine ⟨(words cs).map (·.map Char.toLower), fun w hw => ?_, rfl⟩
  obtain ⟨v, hv, rfl⟩ := List.mem_map.1 hw
  exact isWord_map_toLower hv

/-- A text is its own snake case if and only if it is in snake case. -/
theorem ofIdent_eq_self_iff : ofIdent cs = cs ↔ IsSnakeCase cs := by
  constructor
  · intro h
    rw [← h]
    exact isSnakeCase_ofIdent cs
  · rintro ⟨ws, hws, rfl⟩
    have hlower (w) (hw : w ∈ ws) : w.map Char.toLower = w := by
      have hsame (c) (hc : c ∈ w) : c.toLower = c := toLower_of_not_isUpper ((hws w hw).lower c hc)
      rw [List.map_congr_left hsame, List.map_id']
    rw [ofIdent, words_join hws, List.map_congr_left hlower, List.map_id']

/-- A text and its snake case have the same letters and digits, apart from capitals. -/
theorem letters_ofIdent (cs : List Char) :
    letters (ofIdent cs) = (letters cs).map Char.toLower := by
  have hwords : words (ofIdent cs) = (words cs).map (·.map Char.toLower) := by
    refine words_join fun w hw => ?_
    obtain ⟨v, hv, rfl⟩ := List.mem_map.1 hw
    exact isWord_map_toLower hv
  rw [← flatten_words, hwords, ← flatten_words, List.map_flatten]

theorem IsSnakeCase.head?_ne (h : IsSnakeCase cs) : cs.head? ≠ some '_' := by
  obtain ⟨ws, hws, rfl⟩ := h
  cases ws with
  | nil => simp [join]
  | cons w ws =>
    obtain ⟨hne, -, hwhole⟩ := hws w (List.mem_cons_self ..)
    cases w with
    | nil => exact absurd rfl hne
    | cons c w =>
      have hc : c ≠ '_' := fun hc => hwhole (hc ▸ List.mem_cons_self ..)
      cases ws <;> simpa [join] using hc

theorem IsSnakeCase.dropWhile_eq (h : IsSnakeCase cs) : cs.dropWhile (· = '_') = cs := by
  have hhead := h.head?_ne
  cases cs with
  | nil => rfl
  | cons c cs => exact List.dropWhile_cons_of_neg (by simpa using hhead)

/-- A text is accepted if and only if it is in snake case behind its leading underscores. -/
theorem accepts_iff : accepts cs = true ↔ IsSnakeCase (cs.dropWhile (· = '_')) := by
  rw [accepts, beq_iff_eq, ofIdent_eq_self_iff]

end PolicyLint.SnakeCase
