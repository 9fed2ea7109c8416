import PolicyLint.Ignore.Glob
import PolicyLint.Text.Blank
import PolicyLint.Text.Lines
/-!
# Ignore files

Each line of an ignore file is a rule. Blank lines and lines that start with `#` are none, nor are
lines whose pattern is malformed. A leading `!` takes paths back in, a trailing slash restricts the
rule to folders, and a pattern without another slash matches at any depth. Of the rules that match
a path the last one decides.
-/

namespace PolicyLint.Ignore

/-- What an ignore file says about a path. -/
inductive Verdict
  | skip
  | keep
deriving DecidableEq, Repr, Inhabited

/-- One line of an ignore file. -/
structure Rule where
  pattern : Glob.Pattern
  verdict : Verdict
  onlyFolders : Bool
deriving DecidableEq, Repr, Inhabited

/-- The text before a trailing slash, and whether there was one. A backslash before that slash goes
with it. -/
def dropTrailingSlash (cs : List Char) : List Char × Bool :=
  if cs.getLast? = some '/' then
    let front := cs.dropLast
    (if front.getLast? = some '\\' then front.dropLast else front, true)
  else (cs, false)

/-- The pattern that a line's text stands for: without a slash it matches at any depth, and one
that ends in `/**` matches what is inside a folder and not the folder. -/
def fullPattern (anchored : Bool) (cs : List Char) : String :=
  let text : String := .ofList cs
  let deep := if anchored || cs.contains '/' || text == "**" then text else "**/" ++ text
  if "/**".toList.isSuffixOf deep.toList then deep ++ "/*" else deep

/-- Whether a text starts with a backslash that takes `!` or `#` as it is. -/
def escapesMark (cs : List Char) : Bool :=
  match cs with
  | '\\' :: '!' :: _ | '\\' :: '#' :: _ => true
  | _ => false

/-- The rule on a line, given without the blanks at its end. -/
def Rule.ofTrimmed? (cs : List Char) : Option Rule := do
  let negated := cs.head? == some '!'
  let bare := if escapesMark cs || negated then cs.tail else cs
  let anchored := !escapesMark cs && bare.head? == some '/'
  let (front, onlyFolders) := dropTrailingSlash (if anchored then bare.tail else bare)
  let pattern ← Glob.read? (fullPattern anchored front)
  return { pattern, verdict := if negated then .keep else .skip, onlyFolders }

/-- The rule on a line, if there is one. -/
def Rule.ofLine? (line : List Char) : Option Rule :=
  if line.head? = some '#' then none
  else
    let trimmed := if "\\ ".toList.isSuffixOf line then line else trimRight line
    if trimmed = [] then none else Rule.ofTrimmed? trimmed

/-- Whether a rule matches a path relative to the folder of its file. -/
def Rule.covers (r : Rule) (isFolder : Bool) (path : List UInt8) : Bool :=
  (!r.onlyFolders || isFolder) && Glob.matchPattern r.pattern path

/-- What a list of rules says about a path relative to the folder of their file. -/
def verdict? (rules : List Rule) (isFolder : Bool) (path : List UInt8) : Option Verdict :=
  (rules.reverse.find? (·.covers isFolder path)).map (·.verdict)

def dropByteOrderMark (cs : List Char) : List Char :=
  cs.dropWhile (· = '\uFEFF')

def rulesOf (text : String) : List Rule :=
  (lines (dropByteOrderMark text.toList)).filterMap Rule.ofLine?

end PolicyLint.Ignore
