import Mathlib.Data.List.Forall2
import Mathlib.Data.List.SplitBy
import PolicyLint.Proofs.Rego.TokenLines
import PolicyLint.Proofs.Text.Trimming
/-!
# Blocks of comments

A comment is on a line of its own when it is the first token of that line. Such comments on
consecutive lines form blocks, as long as can be (`commentBlocks`), and a block whose first comment says
`METADATA` is an annotation. Its scope is that of the first later comment that names one
(`NamesScope`).

The annotations of a text are exactly these blocks, in order, each with its range and its scope
(`annotations_are_blocks`). The reader of annotations keeps whether a significant token has been met on
the line, and compares the line on which a comment starts with that on which the one before it stops.
That comes to the same, as a comment is the last token of its line and stops where it starts.
-/

namespace PolicyLint.Rego

/-! ## The law -/

/-- The comments that are the first token of their line: directly behind a line feed, or at the start of
the text. `before` is the token before the list. -/
def ownLine (before : Option Token) : List Token → List Token
  | [] => []
  | t :: ts =>
    if t.kind = .comment ∧ ∀ u ∈ before, u.kind = .newline then t :: ownLine (some t) ts
    else ownLine (some t) ts

def isBelow (t u : Token) : Bool :=
  t.line + 1 == u.line

/-- The comments on a line of their own, in maximal runs on consecutive lines. -/
def commentBlocks (tokens : List Token) : List (List Token) :=
  (ownLine none tokens).splitBy isBelow

/-- A comment says `METADATA`, with any blanks around it. -/
def SaysMetadata (t : Token) : Prop :=
  trim t.text.toList = "METADATA".toList

instance : DecidablePred SaysMetadata := fun _ => inferInstanceAs (Decidable (_ = _))

/-- A comment says `scope:` and a word of lower-case letters, with any blanks around each. -/
def NamesScope (t : Token) (scope : String) : Prop :=
  ∃ front mid back : List Char,
    t.text.toList = front ++ "scope:".toList ++ mid ++ scope.toList ++ back ∧
    (∀ c ∈ front ++ mid ++ back, isBlank c = true) ∧
    scope.toList ≠ [] ∧ ∀ c ∈ scope.toList, c.isLower = true

/-- The scope that some comments name: that of the first one to name any. -/
def IsScopeOf (comments : List Token) : Option String → Prop
  | none => ∀ t ∈ comments, ∀ scope, ¬ NamesScope t scope
  | some scope => ∃ front t back, comments = front ++ t :: back ∧ NamesScope t scope ∧
      ∀ u ∈ front, ∀ scope, ¬ NamesScope u scope

/-- An annotation is made by a block of comments: the first says `METADATA`, and the others name the
scope. -/
def IsMadeBy (a : Annotation) (block : List Token) : Prop :=
  ∃ first rest, block = first :: rest ∧ SaysMetadata first ∧ IsScopeOf rest a.scope? ∧
    a.range = ⟨first.range.start, (rest.getLastD first).range.stop⟩

/-! ## Scopes -/

theorem dropWord?_eq_some_iff {word cs rest : List Char} :
    dropWord? word cs = some rest ↔ cs = word ++ rest := by
  unfold dropWord?
  split
  · next h =>
    obtain ⟨rest', rfl⟩ := List.isPrefixOf_iff_prefix.1 h
    simp
  · next h =>
    refine ⟨fun hnone => (by cases hnone), ?_⟩
    rintro rfl
    exact absurd (List.isPrefixOf_iff_prefix.2 (List.prefix_append word rest)) h

variable {t : Token} {scope : String}

theorem scopeOf?_eq_some_iff : scopeOf? t.text = some scope ↔ NamesScope t scope := by
  simp only [scopeOf?, Option.bind_eq_bind, Option.bind_eq_some_iff, dropWord?_eq_some_iff,
    Option.ite_none_right_eq_some, Bool.and_eq_true, Bool.not_eq_true', List.isEmpty_eq_false_iff,
    List.all_eq_true, Option.some.injEq]
  constructor
  · rintro ⟨rest, hrest, ⟨hne, hlower⟩, rfl⟩
    obtain ⟨front, hfront, hblank⟩ := exists_trimLeft t.text.toList
    obtain ⟨mid, back, hmid, hblankMid, hblankBack⟩ := exists_trim rest
    rw [hrest, hmid] at hfront
    refine ⟨front, mid, back, ?_, ?_, by rwa [String.toList_ofList], by rwa [String.toList_ofList]⟩
    · rw [hfront, @String.toList_ofList (trim rest)]
      simp only [List.append_assoc]
    · simpa [or_imp, forall_and] using ⟨hblank, hblankMid, hblankBack⟩
  · rintro ⟨front, mid, back, htext, hblank, hne, hlower⟩
    simp only [List.mem_append, or_imp, forall_and] at hblank
    obtain ⟨⟨hfront, hmid⟩, hback⟩ := hblank
    have hword : ∀ c ∈ scope.toList, isBlank c = false := fun c hc => isBlank_of_isLower (hlower c hc)
    have htrim : trim (mid ++ scope.toList ++ back) = scope.toList := trim_append hmid hback hword hne
    have hlabel : ∀ c ∈ "scope:".toList, isBlank c = false := by simp [isBlank]
    refine ⟨mid ++ scope.toList ++ back, ?_, ?_, ?_⟩
    · rw [htext, trimLeft, List.append_assoc, List.append_assoc, ← List.append_assoc mid,
        dropWhile_append_of_blank hfront hlabel (by decide)]
    · rw [htrim]
      exact ⟨hne, hlower⟩
    · rw [htrim, String.ofList_toList]

theorem isScopeOf_iff {comments : List Token} {scope? : Option String} :
    IsScopeOf comments scope? ↔ (comments.findSome? fun t => scopeOf? t.text) = scope? := by
  have hnone : ∀ u : Token, scopeOf? u.text = none ↔ ∀ scope, ¬ NamesScope u scope := by
    intro u
    simp only [Option.eq_none_iff_forall_ne_some, ne_eq, scopeOf?_eq_some_iff]
  cases scope? with
  | none => simp only [IsScopeOf, List.findSome?_eq_none_iff, hnone]
  | some scope =>
    simp only [IsScopeOf, List.findSome?_eq_some_iff, hnone, scopeOf?_eq_some_iff]

/-! ## Comments on a line of their own -/

/-- When comments are the last tokens of their lines, a comment with no significant token before it on
its line is the first token of the line. -/
theorem aloneComments_eq_ownLine {before : Option Token} {lineStart : Bool} {tokens : List Token}
    (hends : (before.toList ++ tokens).IsChain fun t u => t.kind = .comment → u.kind = .newline)
    (hline : (∃ u ∈ before, u.kind = .comment) ∨
      (lineStart = true ↔ ∀ u ∈ before, u.kind = .newline)) :
    aloneComments lineStart tokens = ownLine before tokens := by
  induction tokens generalizing before lineStart with
  | nil => rfl
  | cons t ts ih =>
    have htail : ((some t).toList ++ ts).IsChain fun t u => t.kind = .comment → u.kind = .newline :=
      (List.isChain_append.1 hends).2.1
    rw [aloneComments, ownLine]
    by_cases hn : t.kind = .newline
    · have hcomment : t.kind ≠ .comment := by simp [hn]
      rw [if_pos hn, if_neg fun h => hcomment h.1]
      exact ih htail (Or.inr (by simp [hn]))
    rw [if_neg hn]
    by_cases hc : t.kind = .comment
    · -- the token before is no comment, for that would be the last one of its line
      have hbefore : ¬ ∃ u ∈ before, u.kind = .comment := by
        rintro ⟨u, hu, hcomment⟩
        cases hu
        exact hn ((List.isChain_cons_cons.1 hends).1 hcomment)
      have hiff := hline.resolve_left hbefore
      have hnext : aloneComments lineStart ts = ownLine (some t) ts :=
        ih htail (Or.inl ⟨t, rfl, hc⟩)
      simp only [hc, hiff, true_and, if_true, hnext]
    · rw [if_neg hc, if_neg fun h => hc h.1]
      exact ih htail (Or.inr (by simp [hn]))

/-! ## Runs of comments -/

def blockOf (run : Token × List Token) : List Token :=
  run.1 :: run.2

theorem getLast?_cons_eq (first : Token) (run : List Token) :
    (first :: run).getLast? = some (run.getLastD first) := by
  rw [List.getLast?_cons, List.getLastD_eq_getLast?]

/-- The runs of comments that stop on the line on which they start are the maximal ones on consecutive
lines. -/
theorem map_blockOf_commentRuns {first : Token} {run ts : List Token}
    (hlines : ∀ t ∈ first :: run ++ ts, t.range.stop.line = t.line)
    (hrun : (first :: run).IsChain fun t u => isBelow t u = true) :
    (commentRuns first run ts).map blockOf = (first :: run ++ ts).splitBy isBelow := by
  induction ts generalizing first run with
  | nil =>
    rw [commentRuns, List.append_nil, List.splitBy_of_isChain (List.cons_ne_nil _ _) hrun]
    rfl
  | cons t ts ih =>
    have hlast := getLast?_cons_eq first run
    have hstop : (run.getLastD first).range.stop.line = (run.getLastD first).line :=
      hlines _ (List.mem_append_left _ (List.mem_of_getLast? hlast))
    rw [commentRuns, hstop]
    split
    · next hbelow =>
      have happend : first :: run ++ t :: ts = first :: (run ++ [t]) ++ ts := by simp
      rw [happend] at hlines ⊢
      refine ih hlines ?_
      rw [← List.cons_append]
      refine List.isChain_append.2 ⟨hrun, List.isChain_singleton t, fun u hu v hv => ?_⟩
      rw [hlast] at hu
      cases hu
      cases hv
      exact beq_iff_eq.2 hbelow
    · next hbelow =>
      have hend : ∀ u ∈ (first :: run).getLast?, isBelow u t = false := by
        intro u hu
        rw [hlast] at hu
        cases hu
        exact beq_eq_false_iff_ne.2 hbelow
      rw [List.splitBy_append_cons ts hend, List.splitBy_of_isChain (List.cons_ne_nil _ _) hrun,
        List.map_cons]
      have hrest : ∀ u ∈ [t] ++ ts, u.range.stop.line = u.line :=
        fun u hu => hlines u (List.mem_append_right _ hu)
      rw [ih hrest (List.isChain_singleton t)]
      rfl

theorem map_blockOf_runsOf {ts : List Token} (hlines : ∀ t ∈ ts, t.range.stop.line = t.line) :
    (runsOf ts).map blockOf = ts.splitBy isBelow := by
  cases ts with
  | nil => rfl
  | cons t ts => exact map_blockOf_commentRuns hlines (List.isChain_singleton t)

/-! ## Annotations -/

variable {text : String} {tokens : List Token}

theorem mem_of_mem_ownLine {before : Option Token} (ht : t ∈ ownLine before tokens) :
    t ∈ tokens ∧ t.kind = .comment := by
  induction tokens generalizing before with
  | nil => cases ht
  | cons u us ih =>
    rw [ownLine] at ht
    split at ht
    · next hu =>
      rcases List.mem_cons.1 ht with rfl | ht
      · exact ⟨List.mem_cons_self .., hu.1⟩
      · exact (ih ht).imp_left (List.mem_cons_of_mem u)
    · exact (ih ht).imp_left (List.mem_cons_of_mem u)

/-- The runs that are read are the blocks of comments. -/
theorem map_blockOf_runsOf_tokens (h : tokenize text = .ok tokens) :
    (runsOf (aloneComments true tokens)).map blockOf = commentBlocks tokens := by
  have hown : aloneComments true tokens = ownLine none tokens :=
    aloneComments_eq_ownLine (isChain_comment_newline h) (Or.inr (by simp))
  rw [hown]
  refine map_blockOf_runsOf fun t ht => ?_
  obtain ⟨hmem, hcomment⟩ := mem_of_mem_ownLine ht
  exact stop_line_of_comment h hmem hcomment

theorem ofRun?_eq_some_iff {run : Token × List Token} {a : Annotation} :
    Annotation.ofRun? run = some a ↔ IsMadeBy a (blockOf run) := by
  rw [Rego.Annotation.ofRun?, Option.ite_none_right_eq_some, Option.some_inj]
  constructor
  · rintro ⟨hmetadata, rfl⟩
    exact ⟨run.1, run.2, rfl, hmetadata, isScopeOf_iff.2 rfl, rfl⟩
  · rintro ⟨first, rest, hblock, hmetadata, hscope, hrange⟩
    cases hblock
    refine ⟨hmetadata, ?_⟩
    cases a
    cases hrange
    cases isScopeOf_iff.1 hscope
    rfl

/-- A block of comments is an annotation: its first comment says so. -/
def isMetadata (block : List Token) : Bool :=
  block.head?.any fun t => decide (SaysMetadata t)

theorem isSome_ofRun? (run : Token × List Token) :
    (Rego.Annotation.ofRun? run).isSome = isMetadata (blockOf run) := by
  unfold Annotation.ofRun? isMetadata blockOf SaysMetadata
  split <;> simp_all

/-- The annotations of a text are made by its blocks of comments that say `METADATA`, in order. -/
theorem annotations_are_blocks (h : tokenize text = .ok tokens) :
    List.Forall₂ IsMadeBy (Rego.Annotation.ofTokens tokens) ((commentBlocks tokens).filter isMetadata) := by
  rw [Rego.Annotation.ofTokens, ← map_blockOf_runsOf_tokens h]
  induction runsOf (aloneComments true tokens) with
  | nil => exact .nil
  | cons run runs ih =>
    rw [List.map_cons, List.filter_cons, List.filterMap_cons, ← isSome_ofRun?]
    cases hrun : Annotation.ofRun? run with
    | none => exact ih
    | some a => exact .cons (ofRun?_eq_some_iff.1 hrun) ih

theorem mem_annotations_iff (h : tokenize text = .ok tokens) {a : Annotation} :
    a ∈ Annotation.ofTokens tokens ↔ ∃ block ∈ commentBlocks tokens, IsMadeBy a block := by
  rw [← map_blockOf_runsOf_tokens h]
  simp [Rego.Annotation.ofTokens, ofRun?_eq_some_iff]

end PolicyLint.Rego
