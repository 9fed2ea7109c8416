import PolicyLint.Rego.Token
/-!
# References

A reference is an identifier followed by any number of parts, each either a point and an
identifier, or a string in square brackets, with no line feed or comment in between:
`a.b["c"].d` has the parts `a`, `b`, `c` and `d`.
-/

namespace PolicyLint.Rego

/-- A reference, the last token it covers, and the tokens after it. -/
structure Reference where
  path : List String
  last : Token
  rest : List Token
deriving DecidableEq, Repr, Inhabited

namespace Reference

/-- Whether two tokens make the part `.name`. -/
def isField (point name : Token) : Bool :=
  point.isPunct '.' && name.isIdent

/-- Whether three tokens make the part `["name"]`. -/
def isIndex (opening name closing : Token) : Bool :=
  opening.isPunct '[' && name.kind == .string && closing.isPunct ']'

/-- Reads further parts; `last` is the last token read. -/
def parts (last : Token) : List Token → Reference
  | [] => ⟨[], last, []⟩
  | [t] => ⟨[], last, [t]⟩
  | [t, name] =>
    if isField t name then ⟨[name.text], name, []⟩ else ⟨[], last, [t, name]⟩
  | t :: name :: closing :: rest =>
    if isField t name then
      let r := parts name (closing :: rest)
      { r with path := name.text :: r.path }
    else if isIndex t name closing then
      let r := parts closing rest
      { r with path := name.text :: r.path }
    else ⟨[], last, t :: name :: closing :: rest⟩

/-- The reference at the front of a list of tokens. -/
def read? : List Token → Option Reference
  | [] => none
  | t :: ts =>
    if t.isIdent then
      let r := parts t ts
      some { r with path := t.text :: r.path }
    else none

/-- A reference is empty of parts only where there is no identifier. -/
theorem read?_isSome (ts : List Token) :
    (read? ts).isSome = (ts.head?.any Token.isIdent) := by
  cases ts with
  | nil => rfl
  | cons t ts => by_cases h : t.isIdent <;> simp [read?, h]

end Reference

end PolicyLint.Rego
