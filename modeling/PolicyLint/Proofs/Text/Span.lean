import PolicyLint.Text.Position
import PolicyLint.Text.Pieces
/-!
# Places in a text

A position lies in a text when its line exists and its column is the width of the beginning of that
line, so it is never between the two code units of one character. Reading a text from its front
only reaches such positions (`Cursor.Fits.isIn`), one after the other. So the range between two
places of a text lies in it (`Span.isIn`), as long as no line number and no column exceeds 32 bits.
-/

namespace PolicyLint

/-! ## The order of positions -/

namespace Position

variable {a b c : Position}

theorem lt_iff_toNat : a < b ↔ a.line.toNat < b.line.toNat ∨
    (a.line.toNat = b.line.toNat ∧ a.character.toNat < b.character.toNat) := by
  change (a.line < b.line ∨ (a.line = b.line ∧ a.character < b.character)) ↔ _
  rw [UInt32.lt_iff_toNat_lt, UInt32.lt_iff_toNat_lt, UInt32.toNat_inj]

theorem le_iff_not_lt : a ≤ b ↔ ¬ b < a := Iff.rfl

theorem lt_asymm (h : a < b) : ¬ b < a := by
  rw [lt_iff_toNat] at h ⊢
  omega

theorem le_trans (h : a ≤ b) (k : b ≤ c) : a ≤ c := by
  rw [le_iff_not_lt, lt_iff_toNat] at h k ⊢
  omega

theorem le_antisymm (h : a ≤ b) (k : b ≤ a) : a = b := by
  rw [le_iff_not_lt, lt_iff_toNat] at h k
  have hline : a.line = b.line := UInt32.toNat_inj.1 (by omega)
  have hcharacter : a.character = b.character := UInt32.toNat_inj.1 (by omega)
  cases a
  cases b
  cases hline
  cases hcharacter
  rfl

end Position

/-! ## Positions and ranges in a text -/

/-- A position lies in a text: the line exists, and the column is the width of some characters the
line begins with. -/
def Position.IsIn (p : Position) (text : String) : Prop :=
  ∃ line, (pieces '\n' text.toList)[p.line.toNat]? = some line ∧
    ∃ front, front <+: line ∧ utf16Length front = p.character.toNat

/-- A range lies in a text, and does not stop before it starts. -/
structure Range.IsIn (r : Range) (text : String) : Prop where
  le : r.start ≤ r.stop
  start : r.start.IsIn text
  stop : r.stop.IsIn text

/-- Line numbers and columns of a text fit into 32 bits. -/
structure IsSmall (text : String) : Prop where
  lines : (pieces '\n' text.toList).length < UInt32.size
  columns : ∀ line ∈ pieces '\n' text.toList, utf16Length line < UInt32.size

/-! ## Widths -/

@[simp] theorem utf16Length_nil : utf16Length [] = 0 := rfl

@[simp] theorem utf16Length_cons (c : Char) (cs : List Char) :
    utf16Length (c :: cs) = utf16Width c + utf16Length cs := rfl

theorem utf16Length_append (cs ds : List Char) :
    utf16Length (cs ++ ds) = utf16Length cs + utf16Length ds := by
  induction cs with
  | nil => simp
  | cons c cs ih => simp [ih, Nat.add_assoc]

/-! ## Cursors -/

/-- Where reading the first `i` characters of a text leads. -/
def placeAt (cs : List Char) (i : Nat) : Cursor :=
  Cursor.after {} (cs.take i)

/-- Reading the front of a text leads to its last line, as many lines below as there are others, and
to the width of that line; in the whole text the line goes on. The first line may start at a column
other than 0. -/
theorem cursor_after_eq (here : Cursor) (front back : List Char) :
    ∃ full last first rest, pieces '\n' front = full ++ [last] ∧
      pieces '\n' (front ++ back) = full ++ (last ++ first) :: rest ∧
      here.after front =
        ⟨here.line + full.length, (if full = [] then here.column else 0) + utf16Length last⟩ := by
  induction front generalizing here with
  | nil =>
    cases hp : pieces '\n' back with
    | nil => exact absurd hp (pieces_ne_nil '\n' back)
    | cons first rest => exact ⟨[], [], first, rest, rfl, hp, by simp⟩
  | cons c front ih =>
    obtain ⟨full, last, first, rest, hfront, hall, hafter⟩ := ih (here.step c)
    rw [Cursor.after_cons, hafter, List.cons_append, pieces, pieces, hfront, hall]
    by_cases hc : c = '\n'
    · -- a new line: everything that follows is one line below, from column 0
      refine ⟨[] :: full, last, first, rest, by simp [hc], by simp [hc], ?_⟩
      simp [Cursor.step, hc, Nat.add_assoc, Nat.add_comm 1]
    · rw [if_neg hc, if_neg hc]
      cases full with
      | nil =>
        refine ⟨[], c :: last, first, rest, rfl, rfl, ?_⟩
        simp [Cursor.step, hc, Nat.add_assoc]
      | cons line full =>
        refine ⟨(c :: line) :: full, last, first, rest, rfl, rfl, ?_⟩
        simp [Cursor.step, hc]

theorem Cursor.line_after (here : Cursor) (cs : List Char) :
    (here.after cs).line = here.line + cs.count '\n' := by
  induction cs generalizing here with
  | nil => rfl
  | cons c cs ih =>
    rw [after_cons, ih, step, List.count_cons]
    split
    · next h => simp [h, Nat.add_right_comm, Nat.add_assoc]
    · next h => simp [h]

theorem Cursor.line_after_of_notMem (here : Cursor) {cs : List Char} (h : '\n' ∉ cs) :
    (here.after cs).line = here.line := by
  rw [line_after, List.count_eq_zero.2 h, Nat.add_zero]

/-- Within a line, reading on leads to the right by the width of what is read. -/
theorem Cursor.after_of_notMem (here : Cursor) {cs : List Char} (h : '\n' ∉ cs) :
    here.after cs = ⟨here.line, here.column + utf16Length cs⟩ := by
  induction cs generalizing here with
  | nil => rfl
  | cons c cs ih =>
    have hc : c ≠ '\n' := fun heq => h (heq ▸ List.mem_cons_self ..)
    rw [after_cons, ih _ fun hmem => h (List.mem_cons_of_mem _ hmem), step, if_neg hc,
      utf16Length_cons, Nat.add_assoc]

/-- One cursor comes no later than another. -/
def Cursor.Le (a b : Cursor) : Prop :=
  a.line < b.line ∨ (a.line = b.line ∧ a.column ≤ b.column)

theorem Cursor.le_after (here : Cursor) (cs : List Char) : here.Le (here.after cs) := by
  induction cs generalizing here with
  | nil => exact Or.inr ⟨rfl, Nat.le_refl _⟩
  | cons c cs ih =>
    have h := ih (here.step c)
    rw [Cursor.after_cons]
    unfold Cursor.Le at h ⊢
    unfold Cursor.step at h ⊢
    split at h <;> simp_all <;> omega

/-! ## Spans -/

/-- A range covers the characters of a text from the `i`-th up to the `j`-th. -/
structure Span (cs : List Char) (i j : Nat) (r : Range) : Prop where
  le : i ≤ j
  le_length : j ≤ cs.length
  start : r.start = (placeAt cs i).position
  stop : r.stop = (placeAt cs j).position

variable {text : String}

theorem toNat_ofNat_of_lt {n : Nat} (h : n < UInt32.size) : (UInt32.ofNat n).toNat = n := by
  rw [UInt32.toNat_ofNat']
  exact Nat.mod_eq_of_lt h

/-- The line number and the column of a place fit into 32 bits. -/
structure Cursor.Fits (here : Cursor) : Prop where
  line : here.line < UInt32.size
  column : here.column < UInt32.size

/-- The place that the front of a text leads to is a position of the text, if it fits. -/
theorem Cursor.Fits.isIn {front back : List Char} (h : (Cursor.after {} front).Fits)
    (htext : text.toList = front ++ back) : (Cursor.after {} front).position.IsIn text := by
  obtain ⟨full, last, first, rest, -, hall, hafter⟩ := cursor_after_eq {} front back
  have hplace : Cursor.after {} front = ⟨full.length, utf16Length last⟩ := by
    rw [hafter]
    simp
  rw [hplace] at h ⊢
  refine ⟨last ++ first, ?_, last, List.prefix_append _ _, ?_⟩
  · simp only [Cursor.position]
    rw [toNat_ofNat_of_lt h.line, htext, hall]
    simp
  · simp only [Cursor.position]
    rw [toNat_ofNat_of_lt h.column]

theorem IsSmall.fits {front back : List Char} (h : IsSmall text)
    (htext : text.toList = front ++ back) : (Cursor.after {} front).Fits := by
  obtain ⟨full, last, first, rest, -, hall, hafter⟩ := cursor_after_eq {} front back
  rw [← htext] at hall
  have hcolumn := h.columns (last ++ first) (by simp [hall])
  have hlines := h.lines
  rw [utf16Length_append] at hcolumn
  rw [hall, List.length_append] at hlines
  rw [hafter]
  exact ⟨by simp; omega, by simp; omega⟩

theorem Span.isIn {i j : Nat} {r : Range} (h : Span text.toList i j r) (hs : IsSmall text) :
    r.IsIn text := by
  have htext (k : Nat) : text.toList = text.toList.take k ++ text.toList.drop k :=
    (List.take_append_drop k text.toList).symm
  have hi : (placeAt text.toList i).Fits := hs.fits (htext i)
  have hj : (placeAt text.toList j).Fits := hs.fits (htext j)
  refine ⟨?_, h.start ▸ hi.isIn (htext i), h.stop ▸ hj.isIn (htext j)⟩
  have hle : (placeAt text.toList i).Le (placeAt text.toList j) := by
    have hsplit : text.toList.take j =
        text.toList.take i ++ (text.toList.take j).drop i := by
      conv => lhs; rw [← List.take_append_drop i (text.toList.take j)]
      rw [List.take_take, Nat.min_eq_left h.le]
    rw [placeAt, placeAt, hsplit, Cursor.after_append]
    exact Cursor.le_after _ _
  rw [h.start, h.stop, Position.le_iff_not_lt, Position.lt_iff_toNat]
  simp only [Cursor.position, toNat_ofNat_of_lt hi.line, toNat_ofNat_of_lt hj.line,
    toNat_ofNat_of_lt hi.column, toNat_ofNat_of_lt hj.column]
  unfold Cursor.Le at hle
  omega

/-- A range covers some characters of a text. -/
def InText (cs : List Char) (r : Range) : Prop :=
  ∃ i j, Span cs i j r

theorem inText_empty (cs : List Char) : InText cs {} :=
  ⟨0, 0, Nat.le_refl 0, Nat.zero_le _, rfl, rfl⟩

theorem InText.isIn {r : Range} (hs : IsSmall text) (h : InText text.toList r) : r.IsIn text := by
  obtain ⟨i, j, h⟩ := h
  exact h.isIn hs

end PolicyLint
