import PolicyLint.Text.Blank
import PolicyLint.Rego.Module
import PolicyLint.Rego.Token
/-!
# Metadata annotations

A comment stands alone when only blanks come before it on its line. Comments that stand alone on
consecutive lines form a run, and a run that opens with `METADATA` is an annotation. Its scope is
given by the first later line of the form `scope: name`.
-/

namespace PolicyLint.Rego

/-- The comments that stand alone on their line. `lineStart` says whether no significant token has
been met on the current line. -/
def aloneComments (lineStart : Bool) : List Token → List Token
  | [] => []
  | t :: ts =>
    if t.kind = .newline then aloneComments true ts
    else if t.kind = .comment then
      if lineStart then t :: aloneComments lineStart ts else aloneComments lineStart ts
    else aloneComments false ts

/-- Cuts comments into maximal runs on consecutive lines; `first :: run` is the run being read. -/
def commentRuns (first : Token) (run : List Token) : List Token → List (Token × List Token)
  | [] => [(first, run)]
  | t :: ts =>
    if (run.getLastD first).range.stop.line + 1 = t.line then commentRuns first (run ++ [t]) ts
    else (first, run) :: commentRuns t [] ts

def runsOf : List Token → List (Token × List Token)
  | [] => []
  | t :: ts => commentRuns t [] ts

/-- Drops `word` from the front of a text, if it starts with it. -/
def dropWord? (word : List Char) (cs : List Char) : Option (List Char) :=
  if word.isPrefixOf cs then some (cs.drop word.length) else none

/-- The scope a comment names: `scope:` and a word of lower-case letters, with blanks around. -/
def scopeOf? (text : String) : Option String := do
  let rest ← dropWord? "scope:".toList (trimLeft text.toList)
  let word := trim rest
  if !word.isEmpty && word.all Char.isLower then some (.ofList word) else none

/-- The annotation a run of comments makes, if its first comment says `METADATA`. -/
def Annotation.ofRun? (run : Token × List Token) : Option Annotation :=
  if trim run.1.text.toList = "METADATA".toList then
    some {
      scope? := run.2.findSome? fun t => scopeOf? t.text
      range := ⟨run.1.range.start, (run.2.getLastD run.1).range.stop⟩ }
  else none

def Annotation.ofTokens (tokens : List Token) : List Annotation :=
  (runsOf (aloneComments true tokens)).filterMap Annotation.ofRun?

end PolicyLint.Rego
