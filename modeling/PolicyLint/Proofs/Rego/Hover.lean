import PolicyLint.Proofs.Rego.TokenLines
import PolicyLint.Proofs.Rego.TokenRuns
import PolicyLint.Rego.CallIndex
/-!
# Looking up a call by position

The index holds the calls to known functions by the line on which they start, and a position is looked
up on its own line alone. That is enough: the name of a known function holds no line feed, so neither do
the tokens that the call covers, and the call stops on the line on which it starts
(`stop_line_of_known`). Calls follow one another, so no two of them hold one position
(`length_calls_at_le_one`), and the first call found is the only one (`call_is_found_iff`).
-/

namespace PolicyLint

/-! ## Ranges that hold a position -/

namespace Chain

/-- In a small text, each of the ranges that follow one another stops before the later ones start. -/
theorem pairwise {text : String} {i : Nat} {rs : List Range} (hs : IsSmall text)
    (h : Chain text.toList i rs) : rs.Pairwise fun r r' => r.stop ≤ r'.start := by
  induction h with
  | nil => exact .nil
  | @cons i j k r rs hi hspan hrest ih =>
    refine .cons (fun r' hr' => ?_) ih
    obtain ⟨j', k', hj', hspan'⟩ := hrest.span_of_mem hr'
    have hbetween : Span text.toList k j' ⟨r.stop, r'.start⟩ :=
      ⟨hj', Nat.le_trans hspan'.le hspan'.le_length, hspan.stop, hspan'.start⟩
    exact (hbetween.isIn hs).le

end Chain

namespace Range

variable {r r' : Range} {p : Position}

theorem not_contains_of_stop_le (h : r.stop ≤ r'.start) (hr : r.contains p = true) :
    r'.contains p = false := by
  rw [contains, Bool.and_eq_true, decide_eq_true_eq, decide_eq_true_eq] at hr
  rw [← Bool.not_eq_true, contains, Bool.and_eq_true, decide_eq_true_eq, decide_eq_true_eq]
  exact fun hr' => Position.le_trans h hr'.1 hr.2

/-- A range that stops on the line on which it starts holds positions of that line only. -/
theorem line_eq_of_contains (hline : r.stop.line = r.start.line) (hr : r.contains p = true) :
    p.line = r.start.line := by
  rw [contains, Bool.and_eq_true, decide_eq_true_eq, decide_eq_true_eq, Position.le_iff_not_lt,
    Position.lt_iff_toNat, Position.lt_iff_toNat, hline] at hr
  exact UInt32.toNat_inj.1 (by omega)

end Range

namespace Rego

/-! ## The index -/

namespace CallIndex

def Ascends (index : CallIndex) : Prop :=
  index.Pairwise fun e f => e.1 < f.1

/-- The calls of a line, in the order in which they were added. -/
def callsOn (index : CallIndex) (line : UInt32) : List Call :=
  (index.lookup line).getD []

variable {index : CallIndex} {call : Call} {line : UInt32}

theorem callsOn_cons (l : UInt32) (calls : List Call) (rest : CallIndex) (line : UInt32) :
    callsOn ((l, calls) :: rest) line = if line = l then calls else callsOn rest line := by
  unfold callsOn
  rw [List.lookup_cons]
  by_cases h : line = l
  · simp [h]
  · rw [beq_eq_false_iff_ne.2 h, if_neg h]

theorem callsOn_of_lt (h : ∀ e ∈ index, line < e.1) : index.callsOn line = [] := by
  induction index with
  | nil => rfl
  | cons e rest ih =>
    obtain ⟨hlt, hrest⟩ := List.forall_mem_cons.1 h
    rw [callsOn_cons, if_neg (UInt32.ne_of_lt hlt), ih hrest]

theorem line_of_mem_insert {e : UInt32 × List Call} (h : e ∈ insert call index) :
    e.1 = call.range.start.line ∨ ∃ f ∈ index, e.1 = f.1 := by
  induction index with
  | nil => exact Or.inl (by rw [List.mem_singleton.1 h])
  | cons f rest ih =>
    rw [insert] at h
    split at h
    · rcases List.mem_cons.1 h with rfl | h
      · exact Or.inr ⟨f, List.mem_cons_self .., rfl⟩
      · exact Or.inr ⟨e, List.mem_cons_of_mem f h, rfl⟩
    · split at h
      · rcases List.mem_cons.1 h with rfl | h
        · exact Or.inl rfl
        · exact Or.inr ⟨e, h, rfl⟩
      · rcases List.mem_cons.1 h with rfl | h
        · exact Or.inr ⟨f, List.mem_cons_self .., rfl⟩
        · rcases ih h with h | ⟨g, hg, hline⟩
          · exact Or.inl h
          · exact Or.inr ⟨g, List.mem_cons_of_mem f hg, hline⟩

theorem ascends_insert (h : Ascends index) (call : Call) : Ascends (insert call index) := by
  induction index with
  | nil => exact List.pairwise_singleton ..
  | cons f rest ih =>
    obtain ⟨hhead, htail⟩ := List.pairwise_cons.1 h
    rw [insert]
    split
    · exact List.pairwise_cons.2 ⟨hhead, htail⟩
    · next hne =>
      split
      · next hlt =>
        refine List.pairwise_cons.2 ⟨fun g hg => ?_, h⟩
        rcases List.mem_cons.1 hg with rfl | hg
        · exact hlt
        · exact UInt32.lt_trans hlt (hhead g hg)
      · next hnlt =>
        refine List.pairwise_cons.2 ⟨fun g hg => ?_, ih htail⟩
        rcases line_of_mem_insert hg with hg | ⟨g', hg', hline⟩
        · rw [hg]
          exact UInt32.lt_of_le_of_ne (UInt32.not_lt.1 hnlt) (Ne.symm hne)
        · rw [hline]
          exact hhead g' hg'

theorem mem_callsOn_insert (h : Ascends index) {new : Call} :
    call ∈ (insert new index).callsOn line ↔
      call ∈ index.callsOn line ∨ call = new ∧ new.range.start.line = line := by
  induction index with
  | nil =>
    rw [insert, callsOn_cons]
    split <;> simp_all [callsOn, eq_comm]
  | cons f rest ih =>
    obtain ⟨hhead, htail⟩ := List.pairwise_cons.1 h
    rw [insert]
    split
    · next heq =>
      rw [callsOn_cons, callsOn_cons]
      split <;> simp_all [eq_comm]
    · next hne =>
      split
      · next hlt =>
        rw [callsOn_cons]
        split
        · next hline =>
          -- no later entry is for this line
          have hnone : callsOn (f :: rest) line = [] := by
            rw [hline]
            refine callsOn_of_lt (List.forall_mem_cons.2 ⟨hlt, fun g hg => ?_⟩)
            exact UInt32.lt_trans hlt (hhead g hg)
          rw [hnone]
          simp [hline]
        · next hline => simp [Ne.symm hline]
      · rw [callsOn_cons, callsOn_cons]
        split
        · next hline =>
          have hother : new.range.start.line ≠ line := by
            rw [hline]
            exact hne
          simp [hother]
        · exact ih htail

theorem callsOn_sortLine (index : CallIndex) (line : UInt32) :
    callsOn (index.map fun (l, calls) => (l, sortLine calls)) line =
      sortLine (index.callsOn line) := by
  induction index with
  | nil => simp [callsOn, sortLine]
  | cons e rest ih =>
    rw [List.map_cons, callsOn_cons, callsOn_cons, ih]
    split <;> rfl

/-- The index holds for each line the calls to known functions that start there. -/
theorem mem_callsOn_ofModule {m : Module} : call ∈ (ofModule m).callsOn line ↔
    call ∈ m.calls ∧ (Builtin.lookup call.name).isSome = true ∧ call.range.start.line = line := by
  have hfold (known : List Call) (index : CallIndex) (h : Ascends index) :
      call ∈ (known.foldl (fun index call => insert call index) index).callsOn line ↔
        call ∈ index.callsOn line ∨ call ∈ known ∧ call.range.start.line = line := by
    induction known generalizing index with
    | nil => simp
    | cons new known ih =>
      rw [List.foldl_cons, ih _ (ascends_insert h new), mem_callsOn_insert h, List.mem_cons]
      constructor
      · rintro ((h | ⟨rfl, hline⟩) | h)
        · exact Or.inl h
        · exact Or.inr ⟨Or.inl rfl, hline⟩
        · exact Or.inr ⟨Or.inr h.1, h.2⟩
      · rintro (h | ⟨rfl | h, hline⟩)
        · exact Or.inl (Or.inl h)
        · exact Or.inl (Or.inr ⟨rfl, hline⟩)
        · exact Or.inr ⟨h, hline⟩
  rw [ofModule, callsOn_sortLine, sortLine, List.mem_mergeSort, hfold _ [] .nil]
  simp [callsOn, and_assoc]

theorem find?_eq (index : CallIndex) (p : Position) :
    index.find? p = (index.callsOn p.line).find? (·.range.contains p) := by
  unfold find? callsOn
  cases index.lookup p.line <;> rfl

end CallIndex

/-! ## Calls on one line -/

variable {text : String} {tokens : List Token} {t : Token} {m : Module}

/-- A part of a dotted name holds nothing that the name does not. -/
theorem mem_dotted {path : List String} {name : String} (h : name ∈ path) {c : Char}
    (hc : c ∈ name.toList) : c ∈ (dotted path).toList := by
  induction path with
  | nil => cases h
  | cons first path ih =>
    cases path with
    | nil =>
      rw [List.mem_singleton.1 h] at hc
      simpa [dotted] using hc
    | cons second path =>
      rw [dotted_cons_cons, String.toList_append, String.toList_append]
      rcases List.mem_cons.1 h with rfl | h
      · exact List.mem_append_left _ (List.mem_append_left _ hc)
      · exact List.mem_append_right _ (ih h)

theorem newline_notMem_of_known {name : String} (h : (Builtin.lookup name).isSome = true) :
    '\n' ∉ name.toList := by
  have hall : ∀ b ∈ Builtin.catalogue, '\n' ∉ b.name.toList := by decide
  obtain ⟨b, hb, hname⟩ := List.find?_isSome.1 h
  rw [← beq_iff_eq.1 hname]
  exact hall b hb

theorem newline_notMem_of_punct (h : tokenize text = .ok tokens) (ht : t ∈ tokens) {mark : Char}
    (hkind : t.kind = .punct mark) : '\n' ∉ t.text.toList := by
  obtain ⟨x, hx, htoken⟩ := exists_lexeme_of_mem_tokens h ht
  have hproper := Lexeme.isProper_of_mem_ofChars hx
  rw [hkind] at htoken
  cases x <;> simp [Lexeme.token?] at htoken
  case punct c =>
    rw [← htoken.2, String.toList_singleton, List.mem_singleton]
    rintro rfl
    cases hproper.1

/-- The further parts of a reference are made of marks and of the tokens that name them. -/
theorem Reference.Parts.kind_or_mem {read : List Token} {path : List String} (h : Parts read path) :
    ∀ u ∈ read, (∃ mark, u.kind = .punct mark) ∨ u.kind ≠ .newline ∧ u.text ∈ path := by
  have hpunct {u : Token} {mark : Char} (hu : u.isPunct mark = true) :
      ∃ mark, u.kind = .punct mark := ⟨mark, by simpa [Token.isPunct] using hu⟩
  induction h with
  | nil => simp
  | @field point name tokens path h hrest ih =>
    rw [isField, Bool.and_eq_true] at h
    have hname : name.kind = .ident := by simpa [Token.isIdent] using h.2
    refine List.forall_mem_cons.2 ⟨Or.inl (hpunct h.1), List.forall_mem_cons.2 ⟨?_, fun u hu => ?_⟩⟩
    · exact Or.inr ⟨by simp [hname], List.mem_cons_self ..⟩
    · exact (ih u hu).imp_right fun hu => ⟨hu.1, List.mem_cons_of_mem _ hu.2⟩
  | @index opening name closing tokens path h hrest ih =>
    rw [isIndex, Bool.and_eq_true, Bool.and_eq_true, beq_iff_eq] at h
    refine List.forall_mem_cons.2 ⟨Or.inl (hpunct h.1.1), List.forall_mem_cons.2 ⟨?_,
      List.forall_mem_cons.2 ⟨Or.inl (hpunct h.2), fun u hu => ?_⟩⟩⟩
    · exact Or.inr ⟨by simp [h.1.2], List.mem_cons_self ..⟩
    · exact (ih u hu).imp_right fun hu => ⟨hu.1, List.mem_cons_of_mem _ hu.2⟩

/-- Tokens that each stop where they start, one behind the other, are on one line. -/
theorem stop_line_getLastD {ts : List Token}
    (hchain : (t :: ts).IsChain fun t u => u.line = t.range.stop.line)
    (hlines : ∀ u ∈ t :: ts, u.range.stop.line = u.line) :
    (ts.getLastD t).range.stop.line = t.line := by
  induction ts generalizing t with
  | nil => exact hlines t (List.mem_cons_self ..)
  | cons u us ih =>
    obtain ⟨hline, htail⟩ := List.isChain_cons_cons.1 hchain
    rw [List.getLastD_cons, ih htail fun v hv => hlines v (List.mem_cons_of_mem t hv), hline]
    exact hlines t (List.mem_cons_self ..)

/-- A call to a known function stops on the line on which it starts. -/
theorem stop_line_of_known (h : parse text = .ok m) {call : Call} (hcall : call ∈ m.calls)
    (hknown : (Builtin.lookup call.name).isSome = true) :
    call.range.stop.line = call.range.start.line := by
  obtain ⟨tokens, htokens, -, rfl⟩ := tokens_of_parse h
  obtain ⟨s, hs, hcall⟩ := List.mem_filterMap.1 hcall
  obtain ⟨read, rest, hafter, hcovers⟩ := exists_of_call? hcall
  obtain ⟨hident, path, hread, hname⟩ := hcovers.name
  obtain ⟨before, hsplit⟩ := exists_before_of_mem_spots hs
  rw [hafter, ← List.cons_append] at hsplit
  have hpart : ∀ name ∈ s.token.text :: path, '\n' ∉ name.toList := by
    intro name hmem hnewline
    refine newline_notMem_of_known hknown ?_
    rw [hname]
    exact mem_dotted hmem hnewline
  have hlines : ∀ u ∈ s.token :: read, u.range.stop.line = u.line := by
    intro u hu
    have hmem : u ∈ tokens := by
      rw [hsplit]
      exact List.mem_append_right _ (List.mem_append_left _ hu)
    rcases List.mem_cons.1 hu with rfl | hu
    · have hkind : s.token.kind = .ident := by simpa [Token.isIdent] using hident
      exact stop_line_of_notMem htokens hmem (by simp [hkind]) (hpart _ (List.mem_cons_self ..))
    · rcases hread.kind_or_mem u hu with ⟨mark, hmark⟩ | ⟨hkind, htext⟩
      · exact stop_line_of_notMem htokens hmem (by simp [hmark])
          (newline_notMem_of_punct htokens hmem hmark)
      · exact stop_line_of_notMem htokens hmem hkind (hpart _ (List.mem_cons_of_mem _ htext))
  have hchain := isChain_lines htokens
  rw [hsplit] at hchain
  rw [hcovers.range]
  exact stop_line_getLastD (List.isChain_append.1 (List.isChain_append.1 hchain).2.1).1 hlines

/-! ## Looking up -/

/-- A call of a module to a known function holds a position. -/
def Module.CallsAt (m : Module) (p : Position) (call : Call) : Prop :=
  call ∈ m.calls ∧ (∃ b ∈ Builtin.catalogue, b.name = call.name) ∧ call.range.contains p = true

theorem isSome_lookup_iff {name : String} :
    (Builtin.lookup name).isSome = true ↔ ∃ b ∈ Builtin.catalogue, b.name = name := by
  simp only [Builtin.lookup, List.find?_isSome, beq_iff_eq]

/-- What is found at a position is a call to a known function there. -/
theorem callsAt_of_find? {p : Position} {call : Call}
    (hfound : (CallIndex.ofModule m).find? p = some call) : m.CallsAt p call := by
  rw [CallIndex.find?_eq] at hfound
  obtain ⟨hmem, hknown, -⟩ := CallIndex.mem_callsOn_ofModule.1 (List.mem_of_find?_eq_some hfound)
  have hcontains := List.find?_some hfound
  exact ⟨hmem, isSome_lookup_iff.1 hknown, hcontains⟩

/-- Where there is a call to a known function, one is found: it starts on the line of the position. -/
theorem isSome_find?_of_callsAt (h : parse text = .ok m) {p : Position} {call : Call}
    (hcall : m.CallsAt p call) : ((CallIndex.ofModule m).find? p).isSome = true := by
  obtain ⟨hmem, hname, hcontains⟩ := hcall
  have hknown := isSome_lookup_iff.2 hname
  have hline := Range.line_eq_of_contains (stop_line_of_known h hmem hknown) hcontains
  rw [CallIndex.find?_eq]
  refine List.find?_isSome.2 ⟨call, ?_, hcontains⟩
  exact CallIndex.mem_callsOn_ofModule.2 ⟨hmem, hknown, hline.symm⟩

theorem length_le_one_of_pairwise {α : Type} {R : α → α → Prop} {xs : List α} (h : xs.Pairwise R)
    (hnot : ∀ x ∈ xs, ∀ y ∈ xs, ¬ R x y) : xs.length ≤ 1 := by
  match xs, h, hnot with
  | [], _, _ => exact Nat.zero_le 1
  | [_], _, _ => exact Nat.le_refl 1
  | x :: y :: rest, h, hnot =>
    have hxy := (List.pairwise_cons.1 h).1 y (List.mem_cons_self ..)
    exact absurd hxy (hnot x (List.mem_cons_self ..) y (List.mem_cons_of_mem x (List.mem_cons_self ..)))

/-- No position of a small text is held by two calls. -/
theorem length_calls_at_le_one (h : parse text = .ok m) (hs : IsSmall text) (p : Position) :
    (m.calls.filter fun call => call.range.contains p).length ≤ 1 := by
  have hpairwise := List.pairwise_map.1 ((chain_calls h).pairwise hs)
  refine length_le_one_of_pairwise (hpairwise.filter _) fun a ha b hb hle => ?_
  have hnot := Range.not_contains_of_stop_le hle (List.mem_filter.1 ha).2
  rw [(List.mem_filter.1 hb).2] at hnot
  cases hnot

theorem eq_of_length_le_one {α : Type} {xs : List α} {x y : α} (h : xs.length ≤ 1) (hx : x ∈ xs)
    (hy : y ∈ xs) : x = y := by
  match xs, h with
  | [_], _ => rw [List.mem_singleton.1 hx, List.mem_singleton.1 hy]

/-- What is found at a position of a text that parses is a call to a known function there, and where
there is one, one is found. The calls follow one another through the text; so unless lines or columns
are more than positions can tell, there is at most one, and it is what is found. -/
theorem hover_finds_the_call (h : parse text = .ok m) (p : Position) :
    (∀ call, (CallIndex.ofModule m).find? p = some call → m.CallsAt p call) ∧
      (∀ call, m.CallsAt p call → ((CallIndex.ofModule m).find? p).isSome = true) ∧
      Chain text.toList 0 (m.calls.map (·.range)) ∧
      (IsSmall text →
        (∀ call, (CallIndex.ofModule m).find? p = some call ↔ m.CallsAt p call) ∧
          (m.calls.filter fun call => call.range.contains p).length ≤ 1) := by
  refine ⟨fun call => callsAt_of_find?, fun call => isSome_find?_of_callsAt h, chain_calls h,
    fun hs => ?_⟩
  have hone := length_calls_at_le_one h hs p
  refine ⟨fun call => ⟨callsAt_of_find?, fun hcall => ?_⟩, hone⟩
  obtain ⟨found, hfound⟩ := Option.isSome_iff_exists.1 (isSome_find?_of_callsAt h hcall)
  have hmem {c : Call} (hc : m.CallsAt p c) :
      c ∈ m.calls.filter fun call => call.range.contains p :=
    List.mem_filter.2 ⟨hc.1, hc.2.2⟩
  rw [hfound, eq_of_length_le_one hone (hmem (callsAt_of_find? hfound)) (hmem hcall)]

/-- Calls inside a call, on one line, and one of them to a function whose name is partly in quotes. -/
theorem hover_finds_one_of_many :
    let text := "package a\n\nallow \x7b count(regex[\"match\"](\"x\", sum(y))) > max(z) \x7d\n"
    ∃ m, parse text = .ok m ∧
      m.calls.map (·.name) = ["count", "regex.match", "sum", "max"] ∧
      (CallIndex.ofModule m).find? ⟨2, 20⟩ = some ⟨"regex.match", ⟨2, 14⟩, ⟨2, 28⟩⟩ ∧
      (m.calls.filter fun call => call.range.contains ⟨2, 20⟩).length ≤ 1 := by
  intro text
  let m : Module :=
    { package := ⟨["a"], ⟨⟨0, 0⟩, ⟨0, 7⟩⟩, false⟩
      rules := [⟨"allow", ⟨⟨2, 0⟩, ⟨2, 5⟩⟩, false, false⟩]
      calls := [⟨"count", ⟨2, 8⟩, ⟨2, 13⟩⟩, ⟨"regex.match", ⟨2, 14⟩, ⟨2, 28⟩⟩,
        ⟨"sum", ⟨2, 34⟩, ⟨2, 37⟩⟩, ⟨"max", ⟨2, 45⟩, ⟨2, 48⟩⟩] }
  have hparse : parse text = .ok m := toOption_eq_some_iff.1 (by decide +kernel)
  have hsmall : IsSmall text := ⟨by decide +kernel, by decide +kernel⟩
  obtain ⟨-, -, -, hexact⟩ := hover_finds_the_call hparse ⟨2, 20⟩
  obtain ⟨hfound, hone⟩ := hexact hsmall
  refine ⟨m, hparse, rfl, (hfound _).2 ⟨by decide, ?_, by decide⟩, hone⟩
  exact isSome_lookup_iff.1 (by decide)

end Rego

end PolicyLint
