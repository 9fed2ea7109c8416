import PolicyLint.Text.Pieces
/-!
# Snake case

An identifier of ASCII letters, digits and underscores is split into words: at underscores, before
an upper-case letter that follows a lower-case one (digits in between belong to the word before),
and before the last letter of a run of upper-case letters when a lower-case letter follows. Its
snake case is the words in lower case, joined by single underscores.
-/

namespace PolicyLint.SnakeCase

/-- The case of the letter seen last in the word being read. -/
inductive Case
  | none
  | lower
  | upper
deriving DecidableEq, Repr

/-- The case after one more character; a digit leaves it as it is. -/
def Case.next (last : Case) (c : Char) : Case :=
  if c.isLower then .lower else if c.isUpper then .upper else last

/-- Splits a run of letters and digits where its case changes. `word` is the word read so far. -/
def splitCase (last : Case) (word : List Char) : List Char → List (List Char)
  | [] => if word = [] then [] else [word]
  | [c] => [word ++ [c]]
  | c :: d :: rest =>
    if last.next c = .lower ∧ d.isUpper then
      (word ++ [c]) :: splitCase .none [] (d :: rest)
    else if last = .upper ∧ c.isUpper ∧ d.isLower then
      word :: splitCase .none [c] (d :: rest)
    else
      splitCase (last.next c) (word ++ [c]) (d :: rest)

def words (cs : List Char) : List (List Char) :=
  ((pieces '_' cs).filter (· ≠ [])).flatMap (splitCase .none [])

/-- The words joined by single underscores. -/
def join : List (List Char) → List Char
  | [] => []
  | [w] => w
  | w :: ws => w ++ '_' :: join ws

def ofIdent (cs : List Char) : List Char :=
  join ((words cs).map (·.map Char.toLower))

/-- Whether an identifier, its leading underscores aside, is already in snake case. -/
def accepts (cs : List Char) : Bool :=
  let bare := cs.dropWhile (· = '_')
  ofIdent bare == bare

end PolicyLint.SnakeCase
