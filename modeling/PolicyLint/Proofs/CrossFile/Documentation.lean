import PolicyLint.Proofs.CrossFile.FindingOrder
/-!
# What is not documented

A package is documented when one of the files that contribute to it annotates it, a rule when one of
its definitions in its package is annotated. The findings are one for each subject that is not
documented, where it comes first by file and start, and nothing else (`findings_are_undocumented`).

The rule keeps the earliest of the declarations it meets. That it is also the one listed first among
those that tie rests on comparing strictly (`earliest_split`).
-/

namespace PolicyLint.MissingMetadata

/-! ## The law -/

section

variable (state : PathMap Contribution)

/-- A file contributes its facts to a package. -/
def Contributes (package : String) (path : Path) (f : MetadataFacts) : Prop :=
  (path, .missingMetadata f) ∈ state.entries ∧ f.package = package

/-- A file that contributes to a package defines a rule of it. -/
def Defines (package rule : String) (path : Path) (d : RuleFact) : Prop :=
  ∃ f, Contributes state package path f ∧ d ∈ f.rules ∧ d.name = rule

/-- A package that is contributed to and that no file annotates, or a rule that is defined and of
which no definition is annotated. -/
def Undocumented : Subject → Prop
  | .package p =>
    (∃ path f, Contributes state p path f) ∧
      ∀ path f, Contributes state p path f → f.annotated = false
  | .rule p r =>
    (∃ path d, Defines state p r path d) ∧ ∀ path d, Defines state p r path d → d.annotated = false

/-- Where a subject comes first. A package comes first in the smallest file that contributes to it; a
rule at the definition with the least file and start, and the one listed first among those. -/
def ComesFirst : Subject → Path → Range → Prop
  | .package p, path, place =>
    ∃ f, Contributes state p path f ∧ f.location = place ∧
      ∀ q g, Contributes state p q g → (path.order q).isLE = true
  | .rule p r, path, place =>
    ∃ f listed d rest, Contributes state p path f ∧ f.rules = listed ++ d :: rest ∧ d.name = r ∧
      d.location = place ∧
      (∀ e ∈ listed, e.name = r → d.location.start < e.location.start) ∧
      ∀ q e, Defines state p r q e → path.order q = .lt ∨
        (path == q) = true ∧ d.location.start ≤ e.location.start

/-- The finding about a subject that is not documented stands where the subject comes first. -/
def Reports (s : Subject) (x : Path × Diagnostic) : Prop :=
  Undocumented state s ∧ ∃ place, ComesFirst state s x.1 place ∧
    x.2 = .ofCode .missingMetadata place s.message

end

/-! ## Subjects -/

namespace Subject

/-- The package a subject is, or belongs to. -/
def packageName : Subject → String
  | package p => p
  | rule p _ => p

/-- What is said about the subjects of one package tells them apart. -/
theorem eq_of_message_eq {s t : Subject} (hp : s.packageName = t.packageName)
    (h : s.message = t.message) : s = t := by
  cases s <;> cases t
  case package.package p q =>
    cases hp
    rfl
  case rule.rule p r q u =>
    cases hp
    have hr : r = u := (String.append_right_inj _).1 ((String.append_left_inj _).1 h)
    rw [hr]
  all_goals
    -- one begins with `P`, the other one with `R`
    have hchars := congrArg String.toList h
    simp [message] at hchars

instance : Std.TransCmp order where
  eq_swap {a b} := by
    cases a <;> cases b <;> try rfl
    · exact Std.OrientedOrd.eq_swap
    · simp only [order, Ordering.swap_then]
      rw [← Std.OrientedOrd.eq_swap, ← Std.OrientedOrd.eq_swap]
  isLE_trans {a b c} h k := by
    cases a <;> cases b <;> cases c
    case package.package.package => exact Std.TransOrd.isLE_trans h k
    case rule.rule.rule p r q s u v =>
      have hpair : Std.TransCmp fun x y : String × String =>
          (compare x.1 y.1).then (compare x.2 y.2) :=
        inferInstanceAs (Std.TransCmp (compareLex (compareOn Prod.fst) (compareOn Prod.snd)))
      exact hpair.isLE_trans (a := (p, r)) (b := (q, s)) (c := (u, v)) h k
    all_goals first | rfl | exact absurd h Bool.false_ne_true | exact absurd k Bool.false_ne_true

theorem order_eq_iff {s t : Subject} : s.order t = .eq ↔ s = t := by
  cases s <;> cases t <;>
    simp [order, Ordering.then_eq_eq, Std.LawfulEqCmp.compare_eq_iff_eq]

end Subject

theorem mem_insertSubject {s t : Subject} {ts : List Subject} :
    t ∈ insertSubject s ts ↔ t = s ∨ t ∈ ts := by
  induction ts with
  | nil => simp [insertSubject]
  | cons u ts ih =>
    unfold insertSubject
    split
    · simp
    · next h =>
      rw [Subject.order_eq_iff.1 h]
      simp
    · simp only [List.mem_cons, ih]
      grind

theorem pairwise_insertSubject (s : Subject) {ts : List Subject}
    (h : ts.Pairwise fun t u => t.order u = .lt) :
    (insertSubject s ts).Pairwise fun t u => t.order u = .lt := by
  induction ts with
  | nil => simp [insertSubject]
  | cons u ts ih =>
    obtain ⟨hhead, htail⟩ := List.pairwise_cons.1 h
    unfold insertSubject
    split
    · next hlt =>
      refine List.pairwise_cons.2 ⟨fun t ht => ?_, h⟩
      rcases List.mem_cons.1 ht with rfl | ht
      · exact hlt
      · exact Std.TransCmp.lt_trans hlt (hhead t ht)
    · exact h
    · next hgt =>
      refine List.pairwise_cons.2 ⟨fun t ht => ?_, ih htail⟩
      rcases mem_insertSubject.1 ht with rfl | ht
      · exact Std.OrientedCmp.gt_iff_lt.1 hgt
      · exact hhead t ht

theorem pairwise_subjects (ds : List Declaration) :
    (subjects ds).Pairwise fun s t => s.order t = .lt := by
  induction ds with
  | nil => exact .nil
  | cons d ds ih => exact pairwise_insertSubject d.subject ih

theorem mem_subjects {ds : List Declaration} {s : Subject} :
    s ∈ subjects ds ↔ ∃ d ∈ ds, d.subject = s := by
  induction ds with
  | nil => simp [subjects]
  | cons d ds ih =>
    change s ∈ insertSubject d.subject (subjects ds) ↔ _
    rw [mem_insertSubject, ih]
    simp [eq_comm]

/-! ## The earliest declaration -/

/-- What comes no later by file and something else is in a file that comes no later. -/
theorem isLE_of_lt_or {p q : Path} {c : Prop} (h : p.order q = .lt ∨ (p == q) = true ∧ c) :
    (p.order q).isLE = true := by
  rcases h with h | ⟨h, -⟩
  · rw [h]
    rfl
  · rw [Path.order_eq_iff.2 h]
    rfl

theorem of_lt_or_self {p : Path} {c : Prop} (h : p.order p = .lt ∨ (p == p) = true ∧ c) : c := by
  have hself : p.order p = .eq := Std.ReflCmp.compare_self
  rcases h with h | ⟨-, h⟩
  · rw [hself] at h
    cases h
  · exact h

namespace Declaration

/-- The order of declarations by file and start. -/
def order (a b : Declaration) : Ordering :=
  (a.path.order b.path).then (a.location.start.order b.location.start)

instance : Std.TransCmp order :=
  have : Std.TransCmp fun a b : Declaration => a.path.order b.path :=
    transCmp_on fun a : Declaration => a.path
  have : Std.TransCmp fun a b : Declaration => a.location.start.order b.location.start :=
    transCmp_on fun a : Declaration => a.location.start
  inferInstanceAs (Std.TransCmp (compareLex _ _))

theorem isBefore_iff_order {a b : Declaration} : a.isBefore b = true ↔ a.order b = .lt := by
  unfold isBefore order
  rw [Ordering.then_eq_lt]
  split <;> simp_all [Position.order_eq_lt]

theorem isBefore_iff {a b : Declaration} : a.isBefore b = true ↔
    a.path.order b.path = .lt ∨
      (a.path == b.path) = true ∧ a.location.start < b.location.start := by
  rw [isBefore_iff_order, order, Ordering.then_eq_lt, Path.order_eq_iff, Position.order_eq_lt]

theorem isBefore_trans {a b c : Declaration} (h : a.isBefore b = true) (k : b.isBefore c = true) :
    a.isBefore c = true := by
  rw [isBefore_iff_order] at *
  exact Std.TransCmp.lt_trans h k

/-- What is before a declaration is before all that is not before that one. -/
theorem isBefore_of_not_isBefore {a b c : Declaration} (h : a.isBefore b = true)
    (k : ¬ c.isBefore b = true) : a.isBefore c = true := by
  rw [isBefore_iff_order] at *
  have hle : (b.order c).isLE = true := by
    rw [Ordering.isLE_iff_ne_gt, Std.OrientedCmp.gt_iff_lt]
    exact k
  exact Std.TransCmp.lt_of_lt_of_isLE h hle

theorem not_isBefore_of_isBefore {a b : Declaration} (h : a.isBefore b = true) :
    ¬ b.isBefore a = true := by
  rw [isBefore_iff_order] at *
  rw [Std.OrientedCmp.gt_iff_lt.2 h]
  decide

/-- A declaration that another one is not before comes no later, by file and start. -/
theorem le_of_not_isBefore {a b : Declaration} (h : ¬ b.isBefore a = true) :
    a.path.order b.path = .lt ∨
      (a.path == b.path) = true ∧ a.location.start ≤ b.location.start := by
  rw [isBefore_iff, not_or, not_and] at h
  obtain ⟨hpath, hstart⟩ := h
  cases ho : a.path.order b.path with
  | lt => exact Or.inl rfl
  | eq =>
    have heq := Path.order_eq_iff.1 ho
    exact Or.inr ⟨heq, hstart (BEq.symm heq)⟩
  | gt => exact absurd (Std.OrientedCmp.gt_iff_lt.1 ho) hpath

end Declaration

/-- The earliest declaration is before all that are listed in front of it, and none that is listed
after it is before it. -/
theorem earliest_split (first : Declaration) (others : List Declaration) :
    ∃ listed rest, first :: others = listed ++ earliest first others :: rest ∧
      (∀ d ∈ listed, (earliest first others).isBefore d = true) ∧
      ∀ d ∈ rest, ¬ d.isBefore (earliest first others) = true := by
  unfold earliest
  induction others generalizing first with
  | nil => exact ⟨[], [], rfl, by simp, by simp⟩
  | cons d others ih =>
    rw [List.foldl_cons]
    by_cases hd : d.isBefore first = true
    · -- the new best one comes later in the list, so the old one is listed in front of it
      rw [if_pos hd]
      obtain ⟨listed, rest, hsplit, hlisted, hrest⟩ := ih d
      refine ⟨first :: listed, rest, congrArg (first :: ·) hsplit, fun e he => ?_, hrest⟩
      rcases List.mem_cons.1 he with rfl | he
      · cases listed with
        | nil =>
          rw [(List.cons.inj hsplit).1] at hd
          exact hd
        | cons b listed =>
          have hb := hlisted b (List.mem_cons_self ..)
          rw [← (List.cons.inj hsplit).1] at hb
          exact Declaration.isBefore_trans hb hd
      · exact hlisted e he
    · rw [if_neg hd]
      obtain ⟨listed, rest, hsplit, hlisted, hrest⟩ := ih first
      cases listed with
      | nil =>
        obtain ⟨hbest, hothers⟩ := List.cons.inj hsplit
        refine ⟨[], d :: rest, by rw [← hbest, hothers]; rfl, by simp, fun e he => ?_⟩
        rcases List.mem_cons.1 he with rfl | he
        · rw [← hbest]
          exact hd
        · exact hrest e he
      | cons b listed =>
        obtain ⟨rfl, hothers⟩ := List.cons.inj hsplit
        refine ⟨first :: d :: listed, rest, congrArg (first :: d :: ·) hothers, fun e he => ?_, hrest⟩
        have hfirst := hlisted first (List.mem_cons_self ..)
        rcases List.mem_cons.1 he with rfl | he
        · exact hfirst
        · rcases List.mem_cons.1 he with rfl | he
          · exact Declaration.isBefore_of_not_isBefore hfirst hd
          · exact hlisted e (List.mem_cons_of_mem _ he)

/-- There is a finding about a subject that is declared and that no declaration annotates, and it
stands at the earliest of the declarations. -/
theorem finding?_eq_some {ds : List Declaration} {s : Subject} {x : Path × Diagnostic}
    (h : finding? ds s = some x) :
    ∃ listed d rest, ds.filter (·.subject = s) = listed ++ d :: rest ∧
      (∀ e ∈ listed, d.isBefore e = true) ∧ (∀ e ∈ rest, ¬ e.isBefore d = true) ∧
      (∀ e ∈ ds.filter (·.subject = s), e.annotated = false) ∧
      x = (d.path, .ofCode .missingMetadata d.location s.message) := by
  unfold finding? at h
  split at h
  · cases h
  · next first others hf =>
    split at h
    · cases h
    · next hany =>
      cases h
      obtain ⟨listed, rest, hsplit, hlisted, hrest⟩ := earliest_split first others
      refine ⟨listed, _, rest, hf.trans hsplit, hlisted, hrest, fun e he => ?_, rfl⟩
      rw [hf] at he
      simpa using fun k => hany (List.any_eq_true.2 ⟨e, he, k⟩)

theorem isSome_finding? {ds : List Declaration} {s : Subject} (hs : ∃ d ∈ ds, d.subject = s)
    (hannotated : ∀ d ∈ ds, d.subject = s → d.annotated = false) : (finding? ds s).isSome = true := by
  unfold finding?
  split
  · next hf =>
    obtain ⟨d, hd, hds⟩ := hs
    have hmem : d ∈ ds.filter (·.subject = s) := List.mem_filter.2 ⟨hd, by simpa using hds⟩
    rw [hf] at hmem
    cases hmem
  · next first others hf =>
    have hany : (first :: others).any (·.annotated) = false := by
      rw [← hf, List.any_eq_false]
      intro d hd
      obtain ⟨hd, hds⟩ := List.mem_filter.1 hd
      rw [hannotated d hd (by simpa using hds)]
      decide
    rw [if_neg (by rw [hany]; decide)]
    rfl

/-! ## Declarations and the law -/

variable {state : PathMap Contribution}

theorem mem_declarations_iff {d : Declaration} : d ∈ declarations state ↔
    ∃ path f, (path, .missingMetadata f) ∈ state.entries ∧ d ∈ declarationsIn path f := by
  constructor
  · intro h
    obtain ⟨⟨path, c⟩, he, hd⟩ := List.mem_flatMap.1 h
    cases c with
    | missingMetadata f => exact ⟨path, f, he, hd⟩
    | unresolvedImport f => cases hd
  · rintro ⟨path, f, he, hd⟩
    exact List.mem_flatMap.2 ⟨_, he, hd⟩

/-- The declarations of a package are those of the files that contribute to it. -/
theorem declares_package_iff {p : String} {d : Declaration} :
    d ∈ declarations state ∧ d.subject = .package p ↔
      ∃ path f, Contributes state p path f ∧ d = ⟨.package p, f.annotated, path, f.location⟩ := by
  rw [mem_declarations_iff]
  constructor
  · rintro ⟨⟨path, f, he, hd⟩, hs⟩
    rcases List.mem_cons.1 hd with rfl | hd
    · cases hs
      exact ⟨path, f, ⟨he, rfl⟩, rfl⟩
    · obtain ⟨r, -, rfl⟩ := List.mem_map.1 hd
      cases hs
  · rintro ⟨path, f, ⟨he, rfl⟩, rfl⟩
    exact ⟨⟨path, f, he, List.mem_cons_self ..⟩, rfl⟩

/-- The declarations of a rule are its definitions. -/
theorem declares_rule_iff {p r : String} {d : Declaration} :
    d ∈ declarations state ∧ d.subject = .rule p r ↔
      ∃ path e, Defines state p r path e ∧ d = ⟨.rule p r, e.annotated, path, e.location⟩ := by
  rw [mem_declarations_iff]
  constructor
  · rintro ⟨⟨path, f, he, hd⟩, hs⟩
    rcases List.mem_cons.1 hd with rfl | hd
    · cases hs
    · obtain ⟨e, hmem, rfl⟩ := List.mem_map.1 hd
      cases hs
      exact ⟨path, e, ⟨f, ⟨he, rfl⟩, hmem, rfl⟩, rfl⟩
  · rintro ⟨path, e, ⟨f, ⟨he, rfl⟩, hmem, rfl⟩, rfl⟩
    exact ⟨⟨path, f, he, List.mem_cons_of_mem _ (List.mem_map.2 ⟨e, hmem, rfl⟩)⟩, rfl⟩

/-- A subject is not documented when it is declared and no declaration annotates it. -/
theorem undocumented_iff {s : Subject} : Undocumented state s ↔
    (∃ d ∈ declarations state, d.subject = s) ∧
      ∀ d ∈ declarations state, d.subject = s → d.annotated = false := by
  cases s with
  | package p =>
    constructor
    · rintro ⟨⟨path, f, hf⟩, hannotated⟩
      refine ⟨⟨_, declares_package_iff.2 ⟨path, f, hf, rfl⟩⟩, fun d hd hs => ?_⟩
      obtain ⟨q, g, hg, rfl⟩ := declares_package_iff.1 ⟨hd, hs⟩
      exact hannotated q g hg
    · rintro ⟨⟨d, hd⟩, hannotated⟩
      obtain ⟨path, f, hf, rfl⟩ := declares_package_iff.1 hd
      refine ⟨⟨path, f, hf⟩, fun q g hg => ?_⟩
      obtain ⟨hmem, hs⟩ := declares_package_iff.2 ⟨q, g, hg, rfl⟩
      exact hannotated _ hmem hs
  | rule p r =>
    constructor
    · rintro ⟨⟨path, e, he⟩, hannotated⟩
      refine ⟨⟨_, declares_rule_iff.2 ⟨path, e, he, rfl⟩⟩, fun d hd hs => ?_⟩
      obtain ⟨q, e, he, rfl⟩ := declares_rule_iff.1 ⟨hd, hs⟩
      exact hannotated q e he
    · rintro ⟨⟨d, hd⟩, hannotated⟩
      obtain ⟨path, e, he, rfl⟩ := declares_rule_iff.1 hd
      refine ⟨⟨path, e, he⟩, fun q e he => ?_⟩
      obtain ⟨hmem, hs⟩ := declares_rule_iff.2 ⟨q, e, he, rfl⟩
      exact hannotated _ hmem hs

/-- An item of a list made of parts stands in one of the parts, behind items of that part that all
stand before it in the whole list. -/
theorem exists_part_of_flatMap_eq {α β : Type} {f : α → List β} {xs : List α} {front back : List β}
    {b : β} (h : xs.flatMap f = front ++ b :: back) :
    ∃ x ∈ xs, ∃ before after, f x = before ++ b :: after ∧ ∀ c ∈ before, c ∈ front := by
  induction xs generalizing front with
  | nil => simp at h
  | cons x xs ih =>
    rw [List.flatMap_cons] at h
    rcases List.append_eq_append_iff.1 h with ⟨later, rfl, hlater⟩ | ⟨later, hx, hlater⟩
    · obtain ⟨y, hy, before, after, hsplit, hbefore⟩ := ih hlater
      exact ⟨y, List.mem_cons_of_mem x hy, before, after, hsplit, fun c hc =>
        List.mem_append_right _ (hbefore c hc)⟩
    · cases later with
      | nil =>
        have hfront : xs.flatMap f = [] ++ b :: back := hlater.symm
        obtain ⟨y, hy, before, after, hsplit, hbefore⟩ := ih hfront
        exact ⟨y, List.mem_cons_of_mem x hy, before, after, hsplit, fun c hc =>
          absurd (hbefore c hc) (by simp)⟩
      | cons c later =>
        cases (List.cons.inj hlater).1
        exact ⟨x, List.mem_cons_self .., front, later, hx, fun c hc => hc⟩

/-- A declaration of a rule is a definition that a file lists; the definitions of the rule that this
file lists before are declared before. -/
theorem exists_listed_of_declarations_eq {p r : String} {d : Declaration}
    {front back : List Declaration} (h : declarations state = front ++ d :: back)
    (hd : d.subject = .rule p r) :
    ∃ f listed e rest, Contributes state p d.path f ∧ f.rules = listed ++ e :: rest ∧ e.name = r ∧
      e.location = d.location ∧
      ∀ x ∈ listed, x.name = r → ⟨.rule p r, x.annotated, d.path, x.location⟩ ∈ front := by
  obtain ⟨⟨path, c⟩, he, before, after, hsplit, hbefore⟩ := exists_part_of_flatMap_eq h
  cases c with
  | unresolvedImport f => simp at hsplit
  | missingMetadata f =>
    cases before with
    | nil =>
      -- the first declaration of a file is that of its package
      rw [← (List.cons.inj hsplit).1] at hd
      cases hd
    | cons first before =>
      obtain ⟨listed, others, hrules, hlisted, hothers⟩ :=
        List.map_eq_append_iff.1 (List.cons.inj hsplit).2
      obtain ⟨e, rest, rfl, rfl, -⟩ := List.map_eq_cons_iff.1 hothers
      cases hd
      refine ⟨f, listed, e, rest, ⟨he, rfl⟩, hrules, rfl, rfl, fun x hx hname => ?_⟩
      refine hbefore _ (List.mem_cons_of_mem _ ?_)
      rw [← hlisted, List.mem_map]
      exact ⟨x, hx, by rw [hname]⟩

/-- The finding about a subject is the one the law asks for. -/
theorem reports_of_finding? {s : Subject} {x : Path × Diagnostic}
    (h : finding? (declarations state) s = some x) : Reports state s x := by
  obtain ⟨listed, d, rest, hsplit, hlisted, hrest, hannotated, rfl⟩ := finding?_eq_some h
  have hmem : ∀ e ∈ declarations state, e.subject = s → e ∈ listed ++ d :: rest := by
    intro e he hs
    rw [← hsplit]
    exact List.mem_filter.2 ⟨he, by simpa using hs⟩
  have hd : d ∈ declarations state ∧ d.subject = s := by
    have hd : d ∈ (declarations state).filter (·.subject = s) := by
      rw [hsplit]
      simp
    simpa using List.mem_filter.1 hd
  have hleast : ∀ e ∈ declarations state, e.subject = s → ¬ e.isBefore d = true := by
    intro e he hs
    rcases List.mem_append.1 (hmem e he hs) with hl | hr
    · exact Declaration.not_isBefore_of_isBefore (hlisted e hl)
    · rcases List.mem_cons.1 hr with rfl | hr
      · exact fun k => Declaration.not_isBefore_of_isBefore k k
      · exact hrest e hr
  refine ⟨undocumented_iff.2 ⟨⟨d, hd⟩, fun e he hs => ?_⟩, d.location, ?_, rfl⟩
  · exact hannotated e (List.mem_filter.2 ⟨he, by simpa using hs⟩)
  · cases s with
    | package p =>
      obtain ⟨path, f, hf, rfl⟩ := declares_package_iff.1 hd
      refine ⟨f, hf, rfl, fun q g hg => ?_⟩
      obtain ⟨he, hs⟩ := declares_package_iff.2 ⟨q, g, hg, rfl⟩
      have hle := Declaration.le_of_not_isBefore (hleast _ he hs)
      exact isLE_of_lt_or hle
    | rule p r =>
      obtain ⟨front, back, hwhole, hfront, hback⟩ := List.filter_eq_append_iff.1 hsplit
      obtain ⟨skipped, back, rfl, hskipped, -, -⟩ := List.filter_eq_cons_iff.1 hback
      rw [← List.append_assoc] at hwhole
      obtain ⟨f, before, e, after, hf, hrules, hname, hplace, hbefore⟩ :=
        exists_listed_of_declarations_eq hwhole hd.2
      refine ⟨f, before, e, after, hf, hrules, hname, hplace, fun y hy hyname => ?_,
        fun q y hy => ?_⟩
      · have hyfront : (⟨.rule p r, y.annotated, d.path, y.location⟩ : Declaration) ∈ listed := by
          rcases List.mem_append.1 (hbefore y hy hyname) with hin | hin
          · rw [← hfront]
            exact List.mem_filter.2 ⟨hin, by simp⟩
          · exact absurd (by simp) (hskipped _ hin)
        have hafter := Declaration.isBefore_iff.1 (hlisted _ hyfront)
        exact hplace ▸ of_lt_or_self hafter
      · obtain ⟨hmem, hs⟩ := declares_rule_iff.2 ⟨q, y, hy, rfl⟩
        have hle := Declaration.le_of_not_isBefore (hleast _ hmem hs)
        exact hplace ▸ hle

/-! ## One finding for each subject -/

theorem Contributes.unique {p q : String} {path path' : Path} {f g : MetadataFacts}
    (hf : Contributes state p path f) (hg : Contributes state q path' g)
    (h : (path == path') = true) : path = path' ∧ f = g := by
  have heq := state.entry_unique hf.1 hg.1 h
  injection heq with hpath hc
  injection hc with hfg
  exact ⟨hpath, hfg⟩

theorem beq_of_isLE {p q : Path} (h : (p.order q).isLE = true) (k : (q.order p).isLE = true) :
    (p == q) = true := by
  rw [← Path.order_eq_iff]
  exact Std.OrientedCmp.isLE_antisymm h k

theorem ComesFirst.unique {s : Subject} {path path' : Path} {place place' : Range}
    (h : ComesFirst state s path place) (h' : ComesFirst state s path' place') :
    path = path' ∧ place = place' := by
  cases s with
  | package p =>
    obtain ⟨f, hf, rfl, hleast⟩ := h
    obtain ⟨g, hg, rfl, hleast'⟩ := h'
    obtain ⟨hpath, rfl⟩ := hf.unique hg (beq_of_isLE (hleast _ _ hg) (hleast' _ _ hf))
    exact ⟨hpath, rfl⟩
  | rule p r =>
    obtain ⟨f, listed, d, rest, hf, hrules, hname, rfl, hlisted, hleast⟩ := h
    obtain ⟨g, listed', e, rest', hg, hrules', hname', rfl, hlisted', hleast'⟩ := h'
    have hd : Defines state p r path d := ⟨f, hf, by rw [hrules]; simp, hname⟩
    have he : Defines state p r path' e := ⟨g, hg, by rw [hrules']; simp, hname'⟩
    have hsame : (path == path') = true :=
      beq_of_isLE (isLE_of_lt_or (hleast _ _ he)) (isLE_of_lt_or (hleast' _ _ hd))
    obtain ⟨rfl, rfl⟩ := hf.unique hg hsame
    -- neither of two definitions of one file starts before the other
    have hde : d.location.start ≤ e.location.start := of_lt_or_self (hleast _ _ he)
    have hed : e.location.start ≤ d.location.start := of_lt_or_self (hleast' _ _ hd)
    refine ⟨rfl, ?_⟩
    -- so neither is listed before the other one
    rcases List.append_eq_append_iff.1 (hrules.symm.trans hrules') with
      ⟨between, rfl, hbetween⟩ | ⟨between, rfl, hbetween⟩
    · cases between with
      | nil => rw [(List.cons.inj hbetween).1]
      | cons b between =>
        obtain ⟨rfl, -⟩ := List.cons.inj hbetween
        exact absurd (hlisted' d (by simp) hname) hde
    · cases between with
      | nil => rw [(List.cons.inj hbetween).1]
      | cons b between =>
        obtain ⟨rfl, -⟩ := List.cons.inj hbetween
        exact absurd (hlisted e (by simp) hname') hed

theorem Reports.unique {s : Subject} {x y : Path × Diagnostic} (hx : Reports state s x)
    (hy : Reports state s y) : x = y := by
  obtain ⟨-, place, hfirst, hdiagnostic⟩ := hx
  obtain ⟨-, place', hfirst', hdiagnostic'⟩ := hy
  obtain ⟨hpath, rfl⟩ := hfirst.unique hfirst'
  exact Prod.ext hpath (hdiagnostic.trans hdiagnostic'.symm)

theorem ComesFirst.contributes {s : Subject} {path : Path} {place : Range}
    (h : ComesFirst state s path place) : ∃ f, Contributes state s.packageName path f := by
  cases s with
  | package p =>
    obtain ⟨f, hf, -⟩ := h
    exact ⟨f, hf⟩
  | rule p r =>
    obtain ⟨f, -, -, -, hf, -⟩ := h
    exact ⟨f, hf⟩

/-- Findings in one file that say the same are about one subject. -/
theorem Reports.subject_eq {s t : Subject} {x y : Path × Diagnostic} (hx : Reports state s x)
    (hy : Reports state t y) (hpath : (x.1 == y.1) = true)
    (hmessage : x.2.message = y.2.message) : s = t := by
  obtain ⟨-, place, hfirst, hdiagnostic⟩ := hx
  obtain ⟨-, place', hfirst', hdiagnostic'⟩ := hy
  obtain ⟨f, hf⟩ := hfirst.contributes
  obtain ⟨g, hg⟩ := hfirst'.contributes
  obtain ⟨-, rfl⟩ := hf.unique hg hpath
  rw [hdiagnostic, hdiagnostic'] at hmessage
  exact Subject.eq_of_message_eq (hf.2.symm.trans hg.2) hmessage

theorem exists_reports {s : Subject} (h : Undocumented state s) :
    ∃ x, finding? (declarations state) s = some x ∧ Reports state s x := by
  obtain ⟨hdeclared, hannotated⟩ := undocumented_iff.1 h
  obtain ⟨x, hx⟩ := Option.isSome_iff_exists.1 (isSome_finding? hdeclared hannotated)
  exact ⟨x, hx, reports_of_finding? hx⟩

theorem mem_evaluate_iff {x : Path × Diagnostic} : x ∈ evaluate state ↔ ∃ s, Reports state s x := by
  constructor
  · intro h
    obtain ⟨s, -, hs⟩ := List.mem_filterMap.1 h
    exact ⟨s, reports_of_finding? hs⟩
  · rintro ⟨s, hs⟩
    obtain ⟨y, hy, hreports⟩ := exists_reports hs.1
    rw [hs.unique hreports]
    exact List.mem_filterMap.2 ⟨s, mem_subjects.2 (undocumented_iff.1 hs.1).1, hy⟩

/-- No two findings tie. -/
theorem pairwise_evaluate (state : PathMap Contribution) :
    (evaluate state).Pairwise fun x y => orderFindings x y ≠ .eq := by
  refine List.pairwise_filterMap.2 ((pairwise_subjects _).imp fun {s t} hst x hx y hy htie => ?_)
  have hxs := reports_of_finding? hx
  have hyt := reports_of_finding? hy
  unfold orderFindings at htie
  simp only [Ordering.then_eq_eq] at htie
  obtain ⟨hpath, -, -, hmessage⟩ := htie
  have heq := hxs.subject_eq hyt (Path.order_eq_iff.1 hpath)
    (Std.LawfulEqCmp.compare_eq_iff_eq.1 hmessage)
  rw [Subject.order_eq_iff.2 heq] at hst
  cases hst

/-- The findings are one for each subject that is not documented, where it comes first, in order by
file, start and message. -/
theorem findings_are_undocumented (state : PathMap Contribution) :
    (∀ x, x ∈ Category.missingMetadata.findings state ↔ ∃ s, Reports state s x) ∧
      (∀ s, Undocumented state s → ∃ x, Reports state s x ∧ ∀ y, Reports state s y → y = x) ∧
      (∀ s t x, Reports state s x → Reports state t x → s = t) ∧
      (Category.missingMetadata.findings state).Pairwise Precedes := by
  have hperm := sortFindings_perm (evaluate state)
  refine ⟨fun x => hperm.mem_iff.trans mem_evaluate_iff, fun s hs => ?_, fun s t x hs ht => ?_, ?_⟩
  · obtain ⟨x, -, hx⟩ := exists_reports hs
    exact ⟨x, hx, fun y hy => hy.unique hx⟩
  · exact hs.subject_eq ht BEq.rfl rfl
  · have hne : (Category.missingMetadata.findings state).Pairwise fun x y =>
        orderFindings x y ≠ .eq := by
      refine (hperm.pairwise_iff fun {x y} h heq => h ?_).2 (pairwise_evaluate state)
      exact Std.OrientedCmp.eq_symm heq
    have hle := pairwise_sortFindings (evaluate state)
    refine (hle.and hne).imp_of_mem fun {x y} hx hy ⟨hle, hne⟩ => ?_
    rw [← Category.orderFindings_eq_lt_of_mem hx hy]
    exact Ordering.isLE_iff_eq_lt_or_eq_eq.1 hle |>.resolve_right hne

end PolicyLint.MissingMetadata
