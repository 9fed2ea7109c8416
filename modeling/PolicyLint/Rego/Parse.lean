import PolicyLint.Rego.Annotation
import PolicyLint.Rego.Lexeme
import PolicyLint.Rego.Statement
/-!
# Parsing a policy text

The first statement of a module declares its package, later ones import, or define rules. Bodies
are not parsed: their brackets have to match, and the calls in them are noted. All that is wrong
with a text is reported in the order it is met; brackets that stay open come last.
-/

namespace PolicyLint.Rego

/-! ## What is wrong -/

namespace Spot

/-- What is wrong with the statement that starts at a token. -/
def statementFault? (s : Spot) : Option ParseFault :=
  match s.role with
  | .inner => none
  | .first =>
    if s.token.isWord "package" then
      if (Reference.read? s.after).isSome then none else some .packagePathExpected
    else some .packageExpected
  | .later =>
    match s.token.kind with
    | .ident =>
      if s.token.text == "package" then some .unexpectedPackage
      else if s.token.text == "import" then
        if (Reference.read? s.after).isSome then none else some .importPathExpected
      else if s.token.text == "default" then
        if s.after.head?.any Token.isIdent then none else some .ruleNameExpected
      else none
    | .punct c =>
      if (closingOf? c).isSome || isClosing c then none else some (.unexpectedToken s.token.text)
    | _ => some (.unexpectedToken s.token.text)

/-- A closing bracket has to belong to the innermost open one. -/
def bracketFault? (s : Spot) : Option ParseFault :=
  s.token.closing?.bind fun c =>
    if s.opened.head?.any s.token.closes then none else some (.unexpectedBracket c)

/-- What is wrong at a token. -/
def errors (s : Spot) : List ParseError :=
  (s.statementFault?.toList ++ s.bracketFault?.toList).map fun fault => ⟨fault, s.token.range⟩

end Spot

/-- What is wrong with a text whose significant tokens are given. -/
def errorsOf (spots : List Spot) : List ParseError :=
  if spots.isEmpty then [⟨.emptyModule, {}⟩]
  else spots.flatMap Spot.errors ++
    (Spot.leftOpen spots).reverse.map fun t => ⟨.unclosedBracket t.text, t.range⟩

/-! ## What is declared -/

/-- Whether an annotation that passes `applies` stands directly above `line`. -/
def annotatedAbove (annotations : List Annotation) (applies : Annotation → Bool)
    (line : UInt32) : Bool :=
  annotations.any fun a => a.endsAbove line && applies a

namespace Spot

def package? (annotations : List Annotation) (s : Spot) : Option Package :=
  if s.role = .first then
    (Reference.read? s.after).map fun r =>
      { path := r.path, keyword := s.token.range
        annotated := annotatedAbove annotations (·.appliesToPackage) s.token.line }
  else none

/-- The name that `as` gives, at the front of the tokens after an import's path. -/
def alias? : List Token → Option String
  | word :: name :: _ => if word.isWord "as" && name.isIdent then some name.text else none
  | _ => none

def import? (s : Spot) : Option Import :=
  if s.role = .later ∧ s.token.isWord "import" then
    (Reference.read? s.after).map fun r =>
      { path := r.path, alias? := alias? r.rest, range := ⟨s.token.range.start, r.last.range.stop⟩ }
  else none

/-- The rule a token starts: either a name, or `default` and a name. -/
def rule? (annotations : List Annotation) (s : Spot) : Option Rule :=
  let annotated := annotatedAbove annotations (·.appliesToRule) s.token.line
  if s.announces then
    s.after.head?.map fun name =>
      { name := name.text, head := name.range, isDefault := true, annotated }
  else if s.isRuleName then
    some { name := s.token.text, head := s.token.range, isDefault := false, annotated }
  else none

/-- The call a token starts: a reference that is no rule head and no part of another reference,
with an opening parenthesis directly after it. -/
def call? (s : Spot) : Option Call :=
  if s.token.isIdent && !s.isHead && !(s.before.any (·.isPunct '.')) then do
    let r ← Reference.read? (s.token :: s.after)
    let paren ← r.rest.head?
    if paren.isPunct '(' && paren.range.start == r.last.range.stop then
      some { name := dotted r.path, range := ⟨s.token.range.start, r.last.range.stop⟩ }
    else none
  else none

end Spot

def Comment.ofToken? (t : Token) : Option Comment :=
  if t.kind = .comment then some ⟨t.text, t.range⟩ else none

/-- What the tokens of a text declare. -/
def Module.ofTokens (tokens : List Token) : Module :=
  let spots := Spot.ofTokens {} tokens
  let annotations := Annotation.ofTokens tokens
  { package := (spots.findSome? (·.package? annotations)).getD {}
    imports := spots.filterMap (·.import?)
    rules := spots.filterMap (·.rule? annotations)
    annotations
    comments := tokens.filterMap Comment.ofToken?
    calls := spots.filterMap (·.call?) }

/-- The module of a list of tokens, or all that is wrong with it. -/
def parseTokens (tokens : List Token) : Except (List ParseError) Module :=
  match errorsOf (Spot.ofTokens {} tokens) with
  | [] => .ok (Module.ofTokens tokens)
  | errors => .error errors

/-- The module of a policy text, or all that is wrong with it. A text with a string that is not
closed is not parsed further. -/
def parse (text : String) : Except (List ParseError) Module :=
  match tokenize text with
  | .ok tokens => parseTokens tokens
  | .error errors => .error errors

end PolicyLint.Rego
