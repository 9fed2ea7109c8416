import PolicyLint.Text.Position
/-!
# Tokens of a policy text

A token has a kind, the text it stands for, and the range it covers. The text of a comment is
without its `#`, the text of a string without its quotes and with its escapes untouched, and the
text of a line feed is empty; every other token stands for exactly the characters it covers.
-/

namespace PolicyLint.Rego

/-- What a token is; a punctuation mark is a single character. -/
inductive TokenKind
  | ident
  | number
  | string
  | comment
  | punct (c : Char)
  | newline
deriving DecidableEq, Repr, Inhabited

structure Token where
  kind : TokenKind
  text : String
  range : Range
deriving DecidableEq, Repr, Inhabited

namespace Token

def isIdent (t : Token) : Bool :=
  t.kind == .ident

/-- Whether the token is the identifier `word`. -/
def isWord (t : Token) (word : String) : Bool :=
  t.kind == .ident && t.text == word

def isPunct (t : Token) (c : Char) : Bool :=
  t.kind == .punct c

def line (t : Token) : UInt32 :=
  t.range.start.line

/-- Comments and line feeds carry no syntax; every other token is significant. -/
def isSignificant (t : Token) : Bool :=
  t.kind != .comment && t.kind != .newline

end Token

/-- Why a text is not a policy module. -/
inductive ParseFault
  | unterminatedString
  | unterminatedRawString
  | packageExpected
  | packagePathExpected
  | unexpectedPackage
  | importPathExpected
  | ruleNameExpected
  | unexpectedToken (text : String)
  | unexpectedBracket (c : Char)
  | unclosedBracket (text : String)
  | emptyModule
deriving DecidableEq, Repr, Inhabited

def ParseFault.message : ParseFault → String
  | .unterminatedString => "non-terminated string"
  | .unterminatedRawString => "non-terminated raw string"
  | .packageExpected => "package expected"
  | .packagePathExpected => "package path expected"
  | .unexpectedPackage => "unexpected package"
  | .importPathExpected => "import path expected"
  | .ruleNameExpected => "rule name expected"
  | .unexpectedToken text => "unexpected " ++ text ++ " token"
  | .unexpectedBracket c => "unexpected `" ++ String.singleton c ++ "`"
  | .unclosedBracket text => "unclosed `" ++ text ++ "`"
  | .emptyModule => "empty module"

/-- A fault and the range of the text it is found at. -/
structure ParseError where
  fault : ParseFault
  range : Range := {}
deriving DecidableEq, Repr, Inhabited

def ParseError.message (e : ParseError) : String :=
  e.fault.message

end PolicyLint.Rego
