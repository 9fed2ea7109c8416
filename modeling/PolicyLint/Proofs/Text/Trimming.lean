import Mathlib.Data.List.TakeWhile
import PolicyLint.Text.Blank
/-!
# Trimming

Trimming takes blanks from both ends of a text and nothing else (`exists_trim`). So what is left of a
word with blanks around it is the word (`trim_append`).
-/

namespace PolicyLint

variable {cs front back word : List Char}

theorem dropWhile_append_of_blank (hfront : ∀ c ∈ front, isBlank c = true)
    (hword : ∀ c ∈ word, isBlank c = false) (hne : word ≠ []) (back : List Char) :
    (front ++ word ++ back).dropWhile isBlank = word ++ back := by
  rw [List.append_assoc, List.dropWhile_append_of_pos hfront]
  cases word with
  | nil => exact absurd rfl hne
  | cons c word => simp [hword c (List.mem_cons_self ..)]

/-- Trimming a word with blanks around it leaves the word. -/
theorem trim_append (hfront : ∀ c ∈ front, isBlank c = true) (hback : ∀ c ∈ back, isBlank c = true)
    (hword : ∀ c ∈ word, isBlank c = false) (hne : word ≠ []) :
    trim (front ++ word ++ back) = word := by
  have hreverse : (word ++ back).reverse = back.reverse ++ word.reverse ++ [] := by simp
  rw [trim, trimLeft, dropWhile_append_of_blank hfront hword hne, trimRight, hreverse,
    dropWhile_append_of_blank (by simpa using hback) (by simpa using hword) (by simpa using hne)]
  simp

theorem exists_trimLeft (cs : List Char) :
    ∃ front, cs = front ++ trimLeft cs ∧ ∀ c ∈ front, isBlank c = true :=
  ⟨cs.takeWhile isBlank, List.takeWhile_append_dropWhile.symm, fun _ => List.mem_takeWhile_imp⟩

/-- Trimming takes nothing but blanks. -/
theorem exists_trim (cs : List Char) : ∃ front back, cs = front ++ trim cs ++ back ∧
    (∀ c ∈ front, isBlank c = true) ∧ ∀ c ∈ back, isBlank c = true := by
  obtain ⟨front, hfront, hblank⟩ := exists_trimLeft cs
  obtain ⟨back, hback, hblank'⟩ := exists_trimLeft (trimLeft cs).reverse
  refine ⟨front, back.reverse, ?_, hblank, by simpa using hblank'⟩
  have htrim : trimLeft cs = trim cs ++ back.reverse := by
    rw [← List.reverse_reverse (trimLeft cs), hback, List.reverse_append]
    rfl
  rw [List.append_assoc, ← htrim]
  exact hfront

theorem isBlank_of_isLower {c : Char} (h : c.isLower = true) : isBlank c = false := by
  obtain ⟨ha, hz⟩ := Bool.and_eq_true_iff.1 h
  have hlow : 97 ≤ c.toNat := UInt32.le_iff_toNat_le.1 (of_decide_eq_true ha)
  have hhigh : c.toNat ≤ 122 := UInt32.le_iff_toNat_le.1 (of_decide_eq_true hz)
  simp only [isBlank, Bool.or_eq_false_iff, Bool.and_eq_false_iff, decide_eq_false_iff_not,
    beq_eq_false_iff_ne]
  omega

end PolicyLint
