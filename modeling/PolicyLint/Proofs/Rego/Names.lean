import Mathlib.Data.List.TakeWhile
import PolicyLint.Proofs.Rego.TokenRanges
/-!
# Names in a module

Each kind of lexeme is made of characters of its own (`Lexeme.IsProper`). So the text of an identifier
token is an identifier, and what a module calls its rules are identifiers (`isIdentifier_of_mem_rules`).
A text that parses declares a package with at least one part (`package_path_ne_nil`).
-/

namespace PolicyLint.Rego

/-! ## What lexemes are made of -/

def IsIdentifier (cs : List Char) : Prop :=
  ∃ c rest, cs = c :: rest ∧ Lexeme.isIdentStart c = true ∧
    ∀ d ∈ rest, Lexeme.isIdentRest d = true

namespace Lexeme

/-- The characters that a lexeme of each kind is made of. -/
def IsProper : Lexeme → Prop
  | blank c => isBlank c = true ∧ c ≠ '\n'
  | newline => True
  | comment body => '\n' ∉ body
  | quoted body _ => '\n' ∉ body
  | backquoted body _ => '`' ∉ body
  | number digits => ∃ c rest, digits = c :: rest ∧ c.isDigit = true ∧
      ∀ d ∈ rest, isNumberRest d = true
  | ident name => IsIdentifier name
  | punct c => isBlank c = false ∧ isIdentRest c = false ∧ c ≠ '#' ∧ c ≠ '"' ∧ c ≠ '`'

theorem notMem_quotedBody (escaped : Bool) (cs : List Char) : '\n' ∉ (quotedBody escaped cs).1 := by
  induction cs generalizing escaped with
  | nil => simp [quotedBody]
  | cons c cs ih =>
    simp only [quotedBody]
    split
    · simp
    · next hc =>
      split
      · simp
      · simpa [eq_comm] using ⟨hc, ih _⟩

theorem notMem_backquotedBody (cs : List Char) : '`' ∉ (backquotedBody cs).1 := by
  induction cs with
  | nil => simp [backquotedBody]
  | cons c cs ih =>
    simp only [backquotedBody]
    split
    · simp
    · next hc => simpa [eq_comm] using ⟨hc, ih⟩

theorem isProper_read (c : Char) (cs : List Char) : (read c cs).1.IsProper := by
  unfold read
  split
  · trivial
  next hnewline =>
  split
  · next hblank => exact ⟨hblank, hnewline⟩
  next hblank =>
  split
  · intro h
    simpa using List.mem_takeWhile_imp h
  next hcomment =>
  split
  · exact notMem_quotedBody false cs
  next hquote =>
  split
  · exact notMem_backquotedBody cs
  next hbackquote =>
  split
  · next hdigit => exact ⟨c, _, rfl, hdigit, fun d hd => List.mem_takeWhile_imp hd⟩
  next hdigit =>
  split
  · next hident => exact ⟨c, _, rfl, hident, fun d hd => List.mem_takeWhile_imp hd⟩
  next hident =>
  refine ⟨by simpa using hblank, ?_, hcomment, hquote, hbackquote⟩
  simp only [isIdentStart, isIdentRest, Char.isAlphanum, Bool.or_eq_true, not_or] at *
  simp_all

theorem isProper_of_mem_ofChars {cs : List Char} {x : Lexeme} (h : x ∈ ofChars cs) :
    x.IsProper := by
  induction cs using ofChars.induct with
  | case1 => simp [ofChars] at h
  | case2 c cs ih =>
    rw [ofChars] at h
    rcases List.mem_cons.1 h with rfl | h
    · exact isProper_read c cs
    · exact ih h

end Lexeme

/-! ## Identifiers -/

theorem mem_of_mem_place {here : Cursor} {xs : List Lexeme} {y : Lexeme × Range}
    (h : y ∈ Lexeme.place here xs) : y.1 ∈ xs := by
  induction xs generalizing here with
  | nil => cases h
  | cons x xs ih =>
    rcases List.mem_cons.1 h with rfl | h
    · exact List.mem_cons_self ..
    · exact List.mem_cons_of_mem x (ih h)

/-- Every token stands for a lexeme of the text. -/
theorem exists_lexeme_of_mem_tokens {text : String} {tokens : List Token}
    (h : tokenize text = .ok tokens) {t : Token} (ht : t ∈ tokens) :
    ∃ x ∈ Lexeme.ofChars text.toList, x.token? = some (t.kind, t.text) := by
  unfold tokenize at h
  dsimp only at h
  split at h
  · cases h
    obtain ⟨y, hy, hyt⟩ := List.mem_filterMap.1 ht
    obtain ⟨⟨kind, text⟩, hkind, rfl⟩ := Option.map_eq_some_iff.1 hyt
    exact ⟨y.1, mem_of_mem_place hy, hkind⟩
  · cases h

theorem isIdentifier_of_mem_tokens {text : String} {tokens : List Token}
    (h : tokenize text = .ok tokens) {t : Token} (ht : t ∈ tokens) (hident : t.isIdent = true) :
    IsIdentifier t.text.toList := by
  obtain ⟨x, hx, htoken⟩ := exists_lexeme_of_mem_tokens h ht
  have hkind : t.kind = .ident := by simpa [Token.isIdent] using hident
  have hproper := Lexeme.isProper_of_mem_ofChars hx
  rw [hkind] at htoken
  cases x <;> simp [Lexeme.token?] at htoken
  case ident name =>
    rw [← htoken, String.toList_ofList]
    exact hproper

theorem text_of_punct {text : String} {tokens : List Token} (h : tokenize text = .ok tokens) {t : Token}
    (ht : t ∈ tokens) {mark : Char} (hkind : t.kind = .punct mark) : t.text.toList = [mark] := by
  obtain ⟨x, hx, htoken⟩ := exists_lexeme_of_mem_tokens h ht
  rw [hkind] at htoken
  cases x <;> simp [Lexeme.token?] at htoken
  case punct c => rw [← htoken.2, htoken.1, String.toList_singleton]

/-! ## Rules and the package -/

theorem dotted_cons_cons (c d : String) (cs : List String) :
    dotted (c :: d :: cs) = c ++ "." ++ dotted (d :: cs) :=
  String.intercalate_cons_cons

/-- A text that parses has tokens, in which nothing is wrong. -/
theorem tokens_of_parse {text : String} {m : Module} (h : parse text = .ok m) :
    ∃ tokens, tokenize text = .ok tokens ∧ errorsOf (Spot.ofTokens {} tokens) = [] ∧
      m = Module.ofTokens tokens := by
  unfold parse at h
  split at h
  · next tokens htokens =>
    unfold parseTokens at h
    split at h
    · next herrors =>
      injection h with h
      exact ⟨tokens, htokens, herrors, h.symm⟩
    · cases h
  · cases h

/-- A rule is named by an identifier token. -/
theorem exists_token_of_rule? {tokens : List Token} {annotations : List Annotation} {s : Spot}
    (hs : s ∈ Spot.ofTokens {} tokens) {r : Rule} (hr : s.rule? annotations = some r) :
    ∃ t ∈ tokens, t.isIdent = true ∧ r.name = t.text := by
  unfold Spot.rule? at hr
  dsimp only at hr
  split at hr
  · next hannounces =>
    obtain ⟨name, hn, rfl⟩ := Option.map_eq_some_iff.1 hr
    obtain ⟨before, hb⟩ := exists_before_of_mem_spots hs
    refine ⟨name, ?_, ?_, rfl⟩
    · rw [hb]
      exact List.mem_append_right _ (List.mem_cons_of_mem _ (List.mem_of_head? hn))
    · simp only [Spot.announces, Bool.and_eq_true, hn] at hannounces
      exact hannounces.2
  · split at hr
    · next hname =>
      cases hr
      simp only [Spot.isRuleName, Bool.and_eq_true] at hname
      exact ⟨s.token, mem_of_mem_spots hs, hname.1.2, rfl⟩
    · cases hr

theorem isIdentifier_of_mem_rules {text : String} {m : Module} (h : parse text = .ok m) {r : Rule}
    (hr : r ∈ m.rules) : IsIdentifier r.name.toList := by
  obtain ⟨tokens, htokens, -, rfl⟩ := tokens_of_parse h
  obtain ⟨s, hs, hrule⟩ := List.mem_filterMap.1 hr
  obtain ⟨t, ht, hident, hname⟩ := exists_token_of_rule? hs hrule
  rw [hname]
  exact isIdentifier_of_mem_tokens htokens ht hident

/-- The first significant token starts the first statement. -/
theorem role_head_spots {c : Surroundings} {tokens : List Token} {s : Spot} {spots : List Spot}
    (hline : c.lineStart = true) (hopened : c.opened = []) (hcontinues : c.continues = false)
    (hstarted : c.started = false) (h : Spot.ofTokens c tokens = s :: spots) : s.role = .first := by
  induction tokens generalizing c with
  | nil => cases h
  | cons t tokens ih =>
    unfold Spot.ofTokens at h
    split at h
    · cases h
      simp [Surroundings.spot, Surroundings.role, hline, hopened, hcontinues, hstarted]
    · have hpass : (c.pass t).lineStart = true := by simp [Surroundings.pass, hline]
      exact ih (c := c.pass t) hpass hopened hcontinues hstarted h

theorem path_ne_nil_of_read? {tokens : List Token} {r : Reference}
    (h : Reference.read? tokens = some r) : r.path ≠ [] := by
  cases tokens with
  | nil => cases h
  | cons t ts =>
    by_cases ht : t.isIdent = true
    · rw [Reference.read?, if_pos ht] at h
      cases h
      exact List.cons_ne_nil _ _
    · rw [Reference.read?, if_neg ht] at h
      cases h

/-- Without an error the first statement declares a package, which has a path. -/
theorem exists_read_of_first {s : Spot} (hrole : s.role = .first) (herrors : s.errors = []) :
    ∃ r, Reference.read? s.after = some r := by
  have hfault : s.statementFault? = none := by
    cases hf : s.statementFault? with
    | none => rfl
    | some fault => simp [Spot.errors, hf] at herrors
  unfold Spot.statementFault? at hfault
  rw [hrole] at hfault
  dsimp only at hfault
  split at hfault
  · split at hfault
    · next hread => exact Option.isSome_iff_exists.1 hread
    · cases hfault
  · cases hfault

/-- A text that parses declares a package of at least one part. -/
theorem package_path_ne_nil {text : String} {m : Module} (h : parse text = .ok m) :
    m.package.path ≠ [] := by
  obtain ⟨tokens, -, herrors, rfl⟩ := tokens_of_parse h
  unfold errorsOf at herrors
  split at herrors
  · cases herrors
  · next hne =>
    cases hspots : Spot.ofTokens {} tokens with
    | nil => simp [hspots] at hne
    | cons s spots =>
      have hrole := role_head_spots rfl rfl rfl rfl hspots
      rw [hspots, List.flatMap_cons] at herrors
      have hhead := (List.append_eq_nil_iff.1 (List.append_eq_nil_iff.1 herrors).1).1
      obtain ⟨r, hr⟩ := exists_read_of_first hrole hhead
      have hpackage : (Module.ofTokens tokens).package.path = r.path := by
        simp [Module.ofTokens, hspots, Spot.package?, hrole, hr]
      rw [hpackage]
      exact path_ne_nil_of_read? hr

end PolicyLint.Rego
