import PolicyLint.Proofs.Text.Span
/-!
# What a text holds in a range

A position divides a text: before it stand the lines above, and its own line up to the column
(`Position.before`). The place that reading the front of a text leads to divides the text behind that
front (`before_after`), so no two fronts lead to the same position. What a range holds is what stands
before its stop and not before its start.
-/

namespace PolicyLint

/-- The characters that a line begins with, up to a column. -/
def takeColumns : Nat → List Char → List Char
  | _, [] => []
  | n, c :: cs => if utf16Width c ≤ n then c :: takeColumns (n - utf16Width c) cs else []

/-- What a text holds before a position. -/
def Position.before (p : Position) (text : String) : List Char :=
  let lines := pieces '\n' text.toList
  ['\n'].intercalate
    (lines.take p.line.toNat ++ [takeColumns p.character.toNat (lines.getD p.line.toNat [])])

/-- What a text holds in a range. -/
def Range.textIn (r : Range) (text : String) : List Char :=
  (r.stop.before text).drop (r.start.before text).length

/-! ## Fronts and positions -/

theorem utf16Width_pos (c : Char) : 0 < utf16Width c := by
  unfold utf16Width
  split <;> decide

theorem utf16Length_pos {cs : List Char} (h : cs ≠ []) : 0 < utf16Length cs := by
  cases cs with
  | nil => exact absurd rfl h
  | cons c cs => exact Nat.add_pos_left (utf16Width_pos c) _

theorem takeColumns_append (cs ds : List Char) : takeColumns (utf16Length cs) (cs ++ ds) = cs := by
  induction cs with
  | nil =>
    cases ds with
    | nil => rfl
    | cons d ds => simp [takeColumns, Nat.ne_of_gt (utf16Width_pos d)]
  | cons c cs ih => simp [takeColumns, ih]

variable {text : String} {front mid back : List Char}

theorem placeAt_length (h : text.toList = front ++ back) :
    placeAt text.toList front.length = Cursor.after {} front := by
  rw [placeAt, h, List.take_left]

/-- Where reading the front of a text leads, if the place fits, the text is divided behind that
front. -/
theorem Cursor.Fits.before (hf : (Cursor.after {} front).Fits) (h : text.toList = front ++ back) :
    (Cursor.after {} front).position.before text = front := by
  obtain ⟨full, last, first, rest, hfront, hall, hafter⟩ := cursor_after_eq {} front back
  simp only [Position.before, Cursor.position, toNat_ofNat_of_lt hf.line,
    toNat_ofNat_of_lt hf.column]
  have hplace : Cursor.after {} front = ⟨full.length, utf16Length last⟩ := by
    rw [hafter]
    simp
  rw [hplace, h, hall]
  simp [takeColumns_append, ← hfront, intercalate_pieces]

theorem before_after (hs : IsSmall text) (h : text.toList = front ++ back) :
    (Cursor.after {} front).position.before text = front :=
  (hs.fits h).before h

/-- The position that the front of a small text leads to lies in the text. -/
theorem isIn_after (hs : IsSmall text) (h : text.toList = front ++ back) :
    (Cursor.after {} front).position.IsIn text :=
  (hs.fits h).isIn h

theorem span_after (h : text.toList = front ++ mid ++ back) :
    Span text.toList front.length (front ++ mid).length
      ⟨(Cursor.after {} front).position, (Cursor.after {} (front ++ mid)).position⟩ where
  le := by simp
  le_length := by simp [h]
  start := by rw [placeAt_length (h.trans (List.append_assoc ..))]
  stop := by rw [placeAt_length h]

theorem after_le (hs : IsSmall text) (h : text.toList = front ++ mid ++ back) :
    (Cursor.after {} front).position ≤ (Cursor.after {} (front ++ mid)).position :=
  ((span_after h).isIn hs).le

theorem after_lt (hs : IsSmall text) (h : text.toList = front ++ mid ++ back) (hmid : mid ≠ []) :
    (Cursor.after {} front).position < (Cursor.after {} (front ++ mid)).position := by
  refine Classical.byContradiction fun hlt => hmid ?_
  have heq := Position.le_antisymm (after_le hs h) hlt
  -- the same position would divide the text in two places
  have hfront := before_after hs (h.trans (List.append_assoc ..))
  rw [heq, before_after hs h] at hfront
  exact List.append_right_eq_self.1 hfront

/-- A range between two places that fit holds what is read from its start to its stop. -/
theorem Cursor.Fits.textIn (hstart : (Cursor.after {} front).Fits)
    (hstop : (Cursor.after {} (front ++ mid)).Fits) (h : text.toList = front ++ mid ++ back) :
    Range.textIn ⟨(Cursor.after {} front).position, (Cursor.after {} (front ++ mid)).position⟩ text =
      mid := by
  rw [Range.textIn, hstop.before h, hstart.before (h.trans (List.append_assoc ..)), List.drop_left]

theorem textIn_after (hs : IsSmall text) (h : text.toList = front ++ mid ++ back) :
    Range.textIn ⟨(Cursor.after {} front).position, (Cursor.after {} (front ++ mid)).position⟩ text =
      mid :=
  (hs.fits (h.trans (List.append_assoc ..))).textIn (hs.fits h) h

end PolicyLint
