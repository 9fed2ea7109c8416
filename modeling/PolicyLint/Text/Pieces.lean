/-!
# Pieces of a text

A text is cut at every occurrence of a character. There is one piece more than there are
occurrences, and the pieces, put together with the character in between, are the text.
-/

namespace PolicyLint

/-- The pieces of a text between the characters `d`. -/
def pieces (d : Char) : List Char → List (List Char)
  | [] => [[]]
  | c :: cs =>
    if c = d then [] :: pieces d cs
    else match pieces d cs with
      | [] => [[c]]
      | p :: ps => (c :: p) :: ps

theorem pieces_eq_splitOn (d : Char) (cs : List Char) : pieces d cs = cs.splitOn d := by
  induction cs with
  | nil => rfl
  | cons c cs ih =>
    have hne : cs.splitOn d ≠ [] := List.splitOn_ne_nil d cs
    rw [pieces, List.splitOn_cons_eq_if_modifyHead, ih]
    by_cases h : c = d
    · simp [h]
    · rw [if_neg h, if_neg (by simpa using h)]
      cases hs : cs.splitOn d with
      | nil => exact absurd hs hne
      | cons p ps => rfl

theorem pieces_ne_nil (d : Char) (cs : List Char) : pieces d cs ≠ [] := by
  rw [pieces_eq_splitOn]
  exact List.splitOn_ne_nil d cs

theorem length_pieces (d : Char) (cs : List Char) : (pieces d cs).length = cs.count d + 1 := by
  induction cs with
  | nil => rfl
  | cons c cs ih =>
    simp only [pieces]
    split
    · next h => simp [h, ih]
    · next h =>
      split
      · next hp => exact absurd hp (pieces_ne_nil d cs)
      · next p ps hp => simpa [hp, List.count_cons, h] using ih

/-- No piece holds the character that ends pieces. -/
theorem notMem_of_mem_pieces {d : Char} {cs p : List Char} (h : p ∈ pieces d cs) : d ∉ p := by
  induction cs generalizing p with
  | nil => simp_all [pieces]
  | cons c cs ih =>
    simp only [pieces] at h
    split at h
    · rcases List.mem_cons.1 h with rfl | h
      · simp
      · exact ih h
    · next hc =>
      split at h
      · next hp => exact absurd hp (pieces_ne_nil d cs)
      · next q qs hq =>
        rcases List.mem_cons.1 h with rfl | h
        · simp only [List.mem_cons, not_or]
          exact ⟨fun e => hc e.symm, ih (by simp [hq])⟩
        · exact ih (by simp [hq, h])

theorem intercalate_pieces (d : Char) (cs : List Char) : [d].intercalate (pieces d cs) = cs := by
  rw [pieces_eq_splitOn]
  exact List.intercalate_splitOn d

/-- Cutting a text takes nothing out but the character itself. -/
theorem flatten_pieces (d : Char) (cs : List Char) : (pieces d cs).flatten = cs.filter (· ≠ d) := by
  induction cs with
  | nil => rfl
  | cons c cs ih =>
    rw [pieces]
    split
    · next h => simp [h, ih]
    · next h =>
      cases hp : pieces d cs with
      | nil => exact absurd hp (pieces_ne_nil d cs)
      | cons p ps =>
        rw [hp] at ih
        simpa [h] using ih

/-- A text is cut where the character stands, and both sides are cut on their own. -/
theorem pieces_append_cons (d : Char) (cs ds : List Char) :
    pieces d (cs ++ d :: ds) = pieces d cs ++ pieces d ds := by
  induction cs with
  | nil => simp [pieces]
  | cons c cs ih =>
    rw [List.cons_append, pieces, pieces, ih]
    split
    · rfl
    · cases hp : pieces d cs with
      | nil => exact absurd hp (pieces_ne_nil d cs)
      | cons p ps => rfl

theorem pieces_intercalate {d : Char} {ps : List (List Char)} (h : ∀ p ∈ ps, d ∉ p)
    (hne : ps ≠ []) : pieces d ([d].intercalate ps) = ps := by
  rw [pieces_eq_splitOn]
  exact List.splitOn_intercalate d h hne

end PolicyLint
