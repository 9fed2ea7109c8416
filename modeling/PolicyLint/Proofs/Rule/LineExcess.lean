import Mathlib.Logic.ExistsUnique
import PolicyLint.Proofs.Text.Between
import PolicyLint.Rule.LineLength
/-!
# Lines that are too long

A line starts where the text does, or behind a line feed. It ends at a line feed, before which one
carriage return belongs to its end, or with the text (`IsLine`). The rule on the length of lines
goes through these lines in order, and flags exactly those with more characters than the maximum:
what stands in the range of a finding is what the line has beyond the maximum
(`excess_is_reported`).

Lengths are counted in characters, and columns in UTF-16 code units. Both meet in the place that
reading the text up to a character leads to: behind the first characters of a line its column is
their width (`IsLine.after_append`).
-/

namespace PolicyLint

/-! ## The law on lines -/

/-- What stands behind a line: a line feed, before which one carriage return belongs to the end of
the line, or nothing. An empty line does not end with the text. -/
inductive EndsLine (line : List Char) : List Char → Prop
  | feed {rest : List Char} (h : line.getLast? ≠ some '\r') : EndsLine line ('\n' :: rest)
  | returnFeed {rest : List Char} : EndsLine line ('\r' :: '\n' :: rest)
  | text (h : line ≠ []) : EndsLine line []

/-- A text has a line behind `front`. -/
structure IsLine (cs front line : List Char) : Prop where
  starts : front = [] ∨ front.getLast? = some '\n'
  newline_notMem : '\n' ∉ line
  ends : ∃ rest, cs = front ++ line ++ rest ∧ EndsLine line rest

/-! ## Lines by their numbers -/

theorem lines_append (front back : List Char) :
    lines (front ++ '\n' :: back) = (pieces '\n' front).map dropCarriageReturn ++ lines back := by
  have hne := pieces_ne_nil '\n' back
  unfold lines
  dsimp only
  rw [pieces_append_cons, List.dropLast_append_of_ne_nil hne, List.getLast?_append,
    List.getLast?_eq_some_getLast hne, Option.some_or, List.map_append, List.append_assoc]

theorem pieces_of_notMem {d : Char} {cs : List Char} (h : d ∉ cs) : pieces d cs = [cs] := by
  rw [pieces_eq_splitOn, List.splitOn_eq_singleton h]

theorem lines_of_notMem {cs : List Char} (h : '\n' ∉ cs) :
    lines cs = if cs = [] then [] else [cs] := by
  unfold lines
  rw [pieces_of_notMem h]
  by_cases hcs : cs = [] <;> simp [hcs]

theorem dropCarriageReturn_of_ne {cs : List Char} (h : cs.getLast? ≠ some '\r') :
    dropCarriageReturn cs = cs := by
  rw [dropCarriageReturn, if_neg h]

theorem dropCarriageReturn_concat (cs : List Char) : dropCarriageReturn (cs ++ ['\r']) = cs := by
  simp [dropCarriageReturn]

variable {cs front line : List Char} {n : Nat}

/-- What the first line is, by what stands behind it. -/
theorem EndsLine.getElem?_lines {rest : List Char} (h : EndsLine line rest) (hline : '\n' ∉ line) :
    (lines (line ++ rest))[0]? = some line := by
  cases h with
  | feed hcr =>
    rw [lines_append, pieces_of_notMem hline, List.map_singleton, dropCarriageReturn_of_ne hcr]
    rfl
  | @returnFeed rest =>
    have hcr : '\n' ∉ line ++ ['\r'] := by simpa using hline
    have hsplit : line ++ '\r' :: '\n' :: rest = line ++ ['\r'] ++ '\n' :: rest := by simp
    rw [hsplit, lines_append, pieces_of_notMem hcr, List.map_singleton, dropCarriageReturn_concat]
    rfl
  | text hne => simp [lines_of_notMem hline, hne]

/-- A line has as its number how many line feeds stand before it. -/
theorem IsLine.getElem?_lines (h : IsLine cs front line) :
    (lines cs)[front.count '\n']? = some line := by
  obtain ⟨rest, rfl, hends⟩ := h.ends
  have hfirst := hends.getElem?_lines h.newline_notMem
  rcases h.starts with rfl | hlast
  · exact hfirst
  · obtain ⟨above, rfl⟩ := List.getLast?_eq_some_iff.1 hlast
    have hcount : (above ++ ['\n']).count '\n' = (pieces '\n' above).length := by
      simp [length_pieces]
    rw [List.append_assoc, List.append_assoc, List.singleton_append, lines_append, hcount,
      List.getElem?_append_right (by simp)]
    simpa using hfirst

theorem isLine_first {first back : List Char} (h : '\n' ∉ first) :
    IsLine (first ++ '\n' :: back) [] (dropCarriageReturn first) := by
  by_cases hcr : first.getLast? = some '\r'
  · obtain ⟨line, rfl⟩ := List.getLast?_eq_some_iff.1 hcr
    rw [dropCarriageReturn_concat]
    exact ⟨Or.inl rfl, by simpa using h, '\r' :: '\n' :: back, by simp, .returnFeed⟩
  · rw [dropCarriageReturn_of_ne hcr]
    exact ⟨Or.inl rfl, h, '\n' :: back, rfl, .feed hcr⟩

theorem IsLine.below {back : List Char} (h : IsLine back front line) (first : List Char) :
    IsLine (first ++ '\n' :: back) (first ++ '\n' :: front) line := by
  obtain ⟨rest, rfl, hends⟩ := h.ends
  refine ⟨Or.inr ?_, h.newline_notMem, rest, by simp, hends⟩
  rcases h.starts with rfl | hlast
  · exact List.getLast?_concat
  · rw [List.getLast?_append, List.getLast?_cons, hlast]
    rfl

/-- Every line stands behind as many line feeds as its number says. -/
theorem exists_isLine (cs : List Char) {n : Nat} (h : (lines cs)[n]? = some line) :
    ∃ front, IsLine cs front line ∧ front.count '\n' = n := by
  by_cases hmem : '\n' ∈ cs
  · obtain ⟨first, back, rfl, hfirst⟩ := List.eq_append_cons_of_mem hmem
    rw [lines_append, pieces_of_notMem hfirst] at h
    cases n with
    | zero =>
      cases h
      exact ⟨[], isLine_first hfirst, rfl⟩
    | succ n =>
      obtain ⟨front, hline, hcount⟩ := exists_isLine back (by simpa using h)
      exact ⟨first ++ '\n' :: front, hline.below first,
        by simp [List.count_eq_zero.2 hfirst, hcount]⟩
  · -- all of the text is one line, if it is not empty
    rw [lines_of_notMem hmem] at h
    split at h
    · cases h
    · next hne =>
      obtain ⟨rfl, rfl⟩ : n = 0 ∧ cs = line := by
        cases n with
        | zero => exact ⟨rfl, Option.some.inj h⟩
        | succ n => cases h
      exact ⟨[], ⟨Or.inl rfl, hmem, [], by simp, .text hne⟩, rfl⟩
termination_by cs.length

/-! ## Places in a line -/

/-- Behind the first characters of a line, the column is their width. -/
theorem IsLine.after_append (h : IsLine cs front line) {part : List Char} (hpart : part <+: line) :
    Cursor.after {} (front ++ part) = ⟨front.count '\n', utf16Length part⟩ := by
  have hfront : Cursor.after {} front = ⟨front.count '\n', 0⟩ := by
    rcases h.starts with rfl | hlast
    · rfl
    · obtain ⟨above, rfl⟩ := List.getLast?_eq_some_iff.1 hlast
      rw [Cursor.after_append, Cursor.after_cons, Cursor.after_nil, Cursor.step, if_pos rfl,
        Cursor.line_after, List.count_append, Nat.zero_add]
      rfl
  have hnotMem : '\n' ∉ part := fun hmem => h.newline_notMem (hpart.subset hmem)
  rw [Cursor.after_append, hfront, Cursor.after_of_notMem _ hnotMem, Nat.zero_add]

namespace LineLength

variable {max : Nat} {text : String} {d : Diagnostic}

/-- A finding reports what a line has beyond the maximum. -/
structure Excess (max : Nat) (text : String) (front line : List Char) (d : Diagnostic) : Prop where
  number : d.range.start.line.toNat = front.count '\n'
  onLine : d.range.stop.line = d.range.start.line
  isIn : d.range.IsIn text
  nonempty : d.range.start < d.range.stop
  stop : d.range.stop.character.toNat = utf16Length line
  textIn : d.range.textIn text = line.drop max

theorem range_finding (h : IsLine cs front line) (max : Nat) :
    (finding max line (front.count '\n')).range =
      ⟨(Cursor.after {} (front ++ line.take max)).position,
        (Cursor.after {} (front ++ line)).position⟩ := by
  rw [h.after_append (List.take_prefix max line), h.after_append List.prefix_rfl]
  rfl

/-- A line that is too long is reported as the law says, if its end fits into 32 bits. -/
theorem excess_finding (h : IsLine text.toList front line) (hlong : max < line.length)
    (hstop : (Cursor.after {} (front ++ line)).Fits) :
    Excess max text front line (finding max line (front.count '\n')) := by
  have hfirst := h.after_append (List.take_prefix max line)
  have hlast := h.after_append List.prefix_rfl
  have hwidth : utf16Length (line.take max) < utf16Length line := by
    have hpos : 0 < utf16Length (line.drop max) := utf16Length_pos (by simpa using hlong)
    calc utf16Length (line.take max)
        < utf16Length (line.take max) + utf16Length (line.drop max) := Nat.lt_add_of_pos_right hpos
      _ = utf16Length line := by rw [← utf16Length_append, List.take_append_drop]
  have hsize : (⟨front.count '\n', utf16Length line⟩ : Cursor).Fits := hlast ▸ hstop
  have hsizeStart : utf16Length (line.take max) < UInt32.size := Nat.lt_trans hwidth hsize.column
  have hstart : (Cursor.after {} (front ++ line.take max)).Fits := hfirst ▸ ⟨hsize.line, hsizeStart⟩
  have hline : front ++ line = front ++ line.take max ++ line.drop max := by
    rw [List.append_assoc, List.take_append_drop]
  obtain ⟨rest, htext, -⟩ := h.ends
  have hrange := range_finding h max
  have hlt : (finding max line (front.count '\n')).range.start <
      (finding max line (front.count '\n')).range.stop := by
    refine Position.lt_iff_toNat.2 (Or.inr ⟨rfl, ?_⟩)
    change (UInt32.ofNat (utf16Length (line.take max))).toNat <
      (UInt32.ofNat (utf16Length line)).toNat
    rw [toNat_ofNat_of_lt hsizeStart, toNat_ofNat_of_lt hsize.column]
    exact hwidth
  refine
    { number := toNat_ofNat_of_lt hsize.line
      onLine := rfl
      isIn := ⟨Position.lt_asymm hlt, ?_, ?_⟩
      nonempty := hlt
      stop := toNat_ofNat_of_lt hsize.column
      textIn := ?_ }
  · rw [hrange]
    exact hstart.isIn (htext.trans (by rw [hline, List.append_assoc, List.append_assoc]))
  · rw [hrange]
    exact hstop.isIn htext
  · rw [hrange, hline]
    exact hstart.textIn (hline ▸ hstop) (htext.trans (by rw [hline]))

theorem mem_check_iff : d ∈ check max text ↔ ∃ front line, IsLine text.toList front line ∧
    max < line.length ∧ d = finding max line (front.count '\n') := by
  unfold check
  rw [List.mem_filterMap]
  constructor
  · rintro ⟨⟨line, n⟩, hmem, hd⟩
    obtain ⟨front, hline, rfl⟩ := exists_isLine _ (List.mem_zipIdx_iff_getElem?.1 hmem)
    dsimp only at hd
    split at hd
    · next hlong => exact ⟨front, line, hline, hlong, (Option.some.inj hd).symm⟩
    · cases hd
  · rintro ⟨front, line, hline, hlong, rfl⟩
    exact ⟨(line, front.count '\n'), List.mem_zipIdx_iff_getElem?.2 hline.getElem?_lines,
      if_pos hlong⟩

/-- There are fewer than 2^32 lines, and none of them is as wide. -/
structure HasSmallLines (text : String) : Prop where
  count : (lines text.toList).length < UInt32.size
  width : ∀ line ∈ lines text.toList, utf16Length line < UInt32.size

theorem HasSmallLines.count_lt (hs : HasSmallLines text) (h : IsLine text.toList front line) :
    front.count '\n' < UInt32.size := by
  obtain ⟨hlt, -⟩ := List.getElem?_eq_some_iff.1 h.getElem?_lines
  exact Nat.lt_trans hlt hs.count

/-- The findings are in the order of the lines. -/
theorem pairwise_check (hs : HasSmallLines text) :
    (check max text).Pairwise fun d e => d.range.start.line < e.range.start.line := by
  have hnumbers : (lines text.toList).zipIdx.Pairwise fun x y => x.2 < y.2 := by
    rw [← List.pairwise_map, List.zipIdx_map_snd]
    exact List.pairwise_lt_range'
  have hsize : ∀ x ∈ (lines text.toList).zipIdx, x.2 < UInt32.size := fun x hx =>
    Nat.lt_trans (List.snd_lt_of_mem_zipIdx hx) hs.count
  have hnumber : ∀ (x : List Char × Nat) (d : Diagnostic),
      (if max < x.1.length then some (finding max x.1 x.2) else none) = some d →
        d.range.start.line = .ofNat x.2 := by
    intro x d hd
    split at hd
    · cases hd
      rfl
    · cases hd
  refine List.pairwise_filterMap.2 (hnumbers.imp_of_mem fun {x y} hx hy hxy d hd e he => ?_)
  rw [hnumber x d hd, hnumber y e he, UInt32.lt_iff_toNat_lt, toNat_ofNat_of_lt (hsize x hx),
    toNat_ofNat_of_lt (hsize y hy)]
  exact hxy

/-- A text with fewer than 2^32 lines and columns has one finding for each line with more characters
than the maximum, and no others, in the order of the lines. Each reports what is beyond the maximum:
it starts on the line, whose number is that of the line feeds before it, stops where the line does,
and is not empty, and its range holds precisely the characters behind the first ones, as many as the
maximum. -/
theorem excess_is_reported (max : Nat) (text : String) (hs : HasSmallLines text) :
    ((check max text).Pairwise fun d e => d.range.start.line < e.range.start.line) ∧
    (∀ d ∈ check max text, ∃ front line, IsLine text.toList front line ∧ max < line.length ∧
      Excess max text front line d) ∧
    (∀ front line, IsLine text.toList front line → max < line.length →
      ∃! d, d ∈ check max text ∧ Excess max text front line d) := by
  have hexcess : ∀ front line, IsLine text.toList front line → max < line.length →
      Excess max text front line (finding max line (front.count '\n')) := by
    intro front line hline hlong
    refine excess_finding hline hlong ?_
    rw [hline.after_append List.prefix_rfl]
    exact ⟨hs.count_lt hline, hs.width line (List.mem_of_getElem? hline.getElem?_lines)⟩
  refine ⟨pairwise_check hs, ?_, ?_⟩
  · intro d hd
    obtain ⟨front, line, hline, hlong, rfl⟩ := mem_check_iff.1 hd
    exact ⟨front, line, hline, hlong, hexcess front line hline hlong⟩
  · intro front line hline hlong
    refine ⟨finding max line (front.count '\n'),
      ⟨mem_check_iff.2 ⟨front, line, hline, hlong, rfl⟩, hexcess front line hline hlong⟩, ?_⟩
    rintro d ⟨hd, hreports⟩
    -- a finding with the number of the line is one for a line with that number, so for this one
    obtain ⟨front', line', hline', hlong', rfl⟩ := mem_check_iff.1 hd
    have hcount : front'.count '\n' = front.count '\n' :=
      (hexcess front' line' hline' hlong').number.symm.trans hreports.number
    have hsame := hline'.getElem?_lines
    rw [hcount, hline.getElem?_lines] at hsame
    rw [hcount, Option.some.inj hsame]

theorem excess_beyond_two_characters :
    let text := "ab\r\n\na😀b😀\r"
    HasSmallLines text ∧
      ((check 2 text).map fun d => (d.range, d.range.textIn text)) =
        [(⟨⟨2, 3⟩, ⟨2, 7⟩⟩, ['b', '😀', '\r'])] ∧
      ∃! d, d ∈ check 2 text ∧ Excess 2 text "ab\r\n\n".toList "a😀b😀\r".toList d := by
  intro text
  have hs : HasSmallLines text := ⟨by decide +kernel, by decide +kernel⟩
  refine ⟨hs, by decide +kernel, (excess_is_reported 2 text hs).2.2 _ _ ?_ (by decide +kernel)⟩
  exact ⟨by decide +kernel, by decide +kernel, [], by decide +kernel, .text (by decide +kernel)⟩

end LineLength

end PolicyLint
