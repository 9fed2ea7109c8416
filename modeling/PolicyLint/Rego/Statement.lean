import PolicyLint.Rego.Reference
/-!
# Statements

Each significant token is seen in its surroundings: the token before it, the tokens after it, the
brackets open around it, and whether it starts a statement. A token starts a statement when it is
the first significant token of its line, no bracket is open, and the line before does not go on:
the significant token before is neither an operator nor a word such as `if` that wants more.
-/

namespace PolicyLint.Rego

/-- The closing bracket that belongs to an opening one. -/
def closingOf? : Char → Option Char
  | '(' => some ')'
  | '[' => some ']'
  | '{' => some '}'
  | _ => none

def isClosing (c : Char) : Bool :=
  c == ')' || c == ']' || c == '}'

namespace Token

def isOpening (t : Token) : Bool :=
  match t.kind with
  | .punct c => (closingOf? c).isSome
  | _ => false

/-- The closing bracket a token is, if any. -/
def closing? (t : Token) : Option Char :=
  match t.kind with
  | .punct c => if isClosing c then some c else none
  | _ => none

def closes (t opening : Token) : Bool :=
  match opening.kind, t.kind with
  | .punct o, .punct c => closingOf? o == some c
  | _, _ => false

/-- Whether a line that ends in `t` goes on in the next one. `before` is the token directly before
`t`: the last part of a reference is a name, whatever word it is. -/
def continues (before : Option Token) (t : Token) : Bool :=
  match t.kind with
  | .punct c => ",=+-*/|&:<>!.".toList.contains c
  | .ident =>
    !(before.any (·.isPunct '.')) && ["if", "contains", "else", "with"].contains t.text
  | _ => false

end Token

/-- The part a significant token plays. -/
inductive Role
  /-- it starts the first statement of the text -/
  | first
  /-- it starts a later statement -/
  | later
  /-- it is inside a statement -/
  | inner
deriving DecidableEq, Repr, Inhabited

/-- A significant token in its surroundings. -/
structure Spot where
  /-- the token directly before, of any kind -/
  before : Option Token
  token : Token
  /-- the tokens after, of any kind -/
  after : List Token
  role : Role
  /-- the brackets open before the token, the innermost first -/
  opened : List Token
  /-- the token is the name that a `default` directly before it announces -/
  announced : Bool
deriving DecidableEq, Repr, Inhabited

namespace Spot

/-- The brackets open after the token. A closing bracket that does not belong to the innermost open
one closes nothing. -/
def openedAfter (s : Spot) : List Token :=
  if s.token.isOpening then s.token :: s.opened
  else match s.token.closing?, s.opened with
    | some _, o :: rest => if s.token.closes o then rest else s.opened
    | _, _ => s.opened

/-- Whether the token is the word `default` that starts a later statement and has a name directly
after it. -/
def announces (s : Spot) : Bool :=
  s.role == .later && s.token.isWord "default" && s.after.head?.any Token.isIdent

/-- Whether the token is an identifier that names the rule its statement defines. -/
def isRuleName (s : Spot) : Bool :=
  s.role == .later && s.token.isIdent &&
    !(["package", "import", "else", "default"].contains s.token.text)

/-- Whether the token is the name in a rule head. -/
def isHead (s : Spot) : Bool :=
  s.announced || s.isRuleName

end Spot

/-- What the reading of the tokens so far says about the next one. -/
structure Surroundings where
  /-- no significant token has been met on the current line -/
  lineStart : Bool := true
  /-- the significant token before goes on in the next line -/
  continues : Bool := false
  /-- a statement has started -/
  started : Bool := false
  before : Option Token := none
  opened : List Token := []
  announced : Bool := false
deriving Repr, Inhabited

namespace Surroundings

/-- The part the next token plays if it is significant. -/
def role (c : Surroundings) : Role :=
  if c.lineStart && c.opened.isEmpty && !c.continues then
    if c.started then .later else .first
  else .inner

def spot (c : Surroundings) (t : Token) (after : List Token) : Spot :=
  { before := c.before, token := t, after, role := c.role, opened := c.opened
    announced := c.announced }

/-- The surroundings after a significant token. -/
def next (c : Surroundings) (s : Spot) : Surroundings :=
  { lineStart := false
    continues := s.token.continues c.before
    started := c.started || s.role != .inner
    before := some s.token
    opened := s.openedAfter
    announced := s.announces }

/-- The surroundings after a comment or a line feed. -/
def pass (c : Surroundings) (t : Token) : Surroundings :=
  { c with lineStart := c.lineStart || t.kind == .newline, before := some t, announced := false }

end Surroundings

/-- The significant tokens, each in its surroundings. -/
def Spot.ofTokens (c : Surroundings) : List Token → List Spot
  | [] => []
  | t :: ts =>
    if t.isSignificant then
      let s := c.spot t ts
      s :: Spot.ofTokens (c.next s) ts
    else Spot.ofTokens (c.pass t) ts

/-- The brackets still open after the last significant token, the innermost first. -/
def Spot.leftOpen (spots : List Spot) : List Token :=
  (spots.getLast?.map Spot.openedAfter).getD []

end PolicyLint.Rego
