import PolicyLint.Text.Blank
import PolicyLint.Rego.Token
/-!
# Lexemes

A text is cut into lexemes, each of which covers at least one character, so that the characters of
the lexemes put together are the text. Blanks other than line feeds are lexemes too. Placing the
lexemes one after the other gives every lexeme its range; the tokens are the placed lexemes that
are not blanks.

A quoted string that meets the end of its line, and a backquoted string that meets the end of the
text, are lexemes without a closing quote. A text with such a lexeme has no tokens.
-/

namespace PolicyLint.Rego

/-- A piece of policy text. -/
inductive Lexeme
  | blank (c : Char)
  | newline
  /-- a comment: `#` and the rest of the line -/
  | comment (body : List Char)
  /-- a string in double quotes, on one line -/
  | quoted (body : List Char) (closed : Bool)
  /-- a string in backquotes -/
  | backquoted (body : List Char) (closed : Bool)
  | number (digits : List Char)
  | ident (name : List Char)
  | punct (c : Char)
deriving DecidableEq, Repr, Inhabited

namespace Lexeme

def chars : Lexeme → List Char
  | blank c => [c]
  | newline => ['\n']
  | comment body => '#' :: body
  | quoted body closed => '"' :: body ++ (if closed then ['"'] else [])
  | backquoted body closed => '`' :: body ++ (if closed then ['`'] else [])
  | number digits => digits
  | ident name => name
  | punct c => [c]

/-- The kind and text of the token a lexeme stands for; a blank stands for none. -/
def token? : Lexeme → Option (TokenKind × String)
  | blank _ => none
  | newline => some (.newline, "")
  | comment body => some (.comment, .ofList body)
  | quoted body _ => some (.string, .ofList body)
  | backquoted body _ => some (.string, .ofList body)
  | number digits => some (.number, .ofList digits)
  | ident name => some (.ident, .ofList name)
  | punct c => some (.punct c, .singleton c)

/-- What is wrong with a lexeme: a string may lack its closing quote. -/
def fault? : Lexeme → Option ParseFault
  | quoted _ false => some .unterminatedString
  | backquoted _ false => some .unterminatedRawString
  | _ => none

/-- Letters of ASCII and the underscore start an identifier. -/
def isIdentStart (c : Char) : Bool :=
  c.isAlpha || c == '_'

/-- Identifiers go on with letters and digits of ASCII and underscores. -/
def isIdentRest (c : Char) : Bool :=
  c.isAlphanum || c == '_'

/-- Numbers go on with letters and digits of ASCII and points. -/
def isNumberRest (c : Char) : Bool :=
  c.isAlphanum || c == '.'

/-- The body of a quoted string, whether its closing quote was met, and what follows. A backslash
takes the next character of the line with it, whatever that is. -/
def quotedBody (escaped : Bool) : List Char → List Char × Bool × List Char
  | [] => ([], false, [])
  | c :: cs =>
    if c = '\n' then ([], false, c :: cs)
    else if escaped = false ∧ c = '"' then ([], true, cs)
    else
      let (body, closed, rest) := quotedBody (!escaped && c = '\\') cs
      (c :: body, closed, rest)

/-- The body of a backquoted string, whether its closing quote was met, and what follows. -/
def backquotedBody : List Char → List Char × Bool × List Char
  | [] => ([], false, [])
  | c :: cs =>
    if c = '`' then ([], true, cs)
    else
      let (body, closed, rest) := backquotedBody cs
      (c :: body, closed, rest)

/-- The lexeme at the front of `c :: cs`, and what follows it. -/
def read (c : Char) (cs : List Char) : Lexeme × List Char :=
  if c = '\n' then (newline, cs)
  else if isBlank c then (blank c, cs)
  else if c = '#' then (comment (cs.takeWhile (· ≠ '\n')), cs.dropWhile (· ≠ '\n'))
  else if c = '"' then
    let (body, closed, rest) := quotedBody false cs
    (quoted body closed, rest)
  else if c = '`' then
    let (body, closed, rest) := backquotedBody cs
    (backquoted body closed, rest)
  else if c.isDigit then (number (c :: cs.takeWhile isNumberRest), cs.dropWhile isNumberRest)
  else if isIdentStart c then (ident (c :: cs.takeWhile isIdentRest), cs.dropWhile isIdentRest)
  else (punct c, cs)

theorem quotedBody_append (escaped : Bool) (cs : List Char) :
    let (body, closed, rest) := quotedBody escaped cs
    body ++ (if closed then ['"'] else []) ++ rest = cs := by
  induction cs generalizing escaped with
  | nil => simp [quotedBody]
  | cons c cs ih =>
    simp only [quotedBody]
    split
    · simp
    · split
      · next h => simp [h.2]
      · simpa using ih _

theorem backquotedBody_append (cs : List Char) :
    let (body, closed, rest) := backquotedBody cs
    body ++ (if closed then ['`'] else []) ++ rest = cs := by
  induction cs with
  | nil => simp [backquotedBody]
  | cons c cs ih =>
    simp only [backquotedBody]
    split
    · next h => simp [h]
    · simpa using ih

theorem chars_read_append (c : Char) (cs : List Char) :
    (read c cs).1.chars ++ (read c cs).2 = c :: cs := by
  unfold read
  split
  · next h => simp [chars, h]
  split
  · simp [chars]
  split
  · next h => simp [chars, h]
  split
  · next h =>
    have := quotedBody_append false cs
    simp only [List.append_assoc] at this
    simp [chars, h, this]
  split
  · next h =>
    have := backquotedBody_append cs
    simp only [List.append_assoc] at this
    simp [chars, h, this]
  split
  · simp [chars]
  split
  · simp [chars]
  · simp [chars]

theorem chars_read_ne_nil (c : Char) (cs : List Char) : (read c cs).1.chars ≠ [] := by
  unfold read
  repeat' split
  all_goals simp [chars]

theorem length_read_lt (c : Char) (cs : List Char) : (read c cs).2.length < (c :: cs).length := by
  have h := congrArg List.length (chars_read_append c cs)
  have h' := List.length_pos_iff.2 (chars_read_ne_nil c cs)
  simp only [List.length_append] at h
  omega

def ofChars : List Char → List Lexeme
  | [] => []
  | c :: cs => (read c cs).1 :: ofChars (read c cs).2
termination_by cs => cs.length
decreasing_by exact length_read_lt c cs

/-- Puts lexemes one after the other, the first at `here`, and gives each its range. -/
def place (here : Cursor) : List Lexeme → List (Lexeme × Range)
  | [] => []
  | x :: xs =>
    let next := here.after x.chars
    (x, ⟨here.position, next.position⟩) :: place next xs

end Lexeme

def Token.ofLexeme? (x : Lexeme × Range) : Option Token :=
  x.1.token?.map fun (kind, text) => ⟨kind, text, x.2⟩

def ParseError.ofLexeme? (x : Lexeme × Range) : Option ParseError :=
  x.1.fault?.map fun fault => ⟨fault, x.2⟩

/-- The tokens of a text, or every string in it that is not closed. -/
def tokenize (text : String) : Except (List ParseError) (List Token) :=
  let placed := Lexeme.place {} (Lexeme.ofChars text.toList)
  match placed.filterMap ParseError.ofLexeme? with
  | [] => .ok (placed.filterMap Token.ofLexeme?)
  | errors => .error errors

end PolicyLint.Rego
