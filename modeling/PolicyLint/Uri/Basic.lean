import PolicyLint.Text.Pieces
/-!
# Resource identifiers

A URI reference after RFC 3986: an optional scheme, an optional authority, a path, an optional
query and an optional fragment. Reading splits a text at its delimiters and accepts it when every
component holds only the characters it may.
-/

namespace PolicyLint

/-- A URI reference in its components, none of them decoded. -/
structure Uri where
  scheme? : Option String := none
  authority? : Option String := none
  path : String
  query? : Option String := none
  fragment? : Option String := none
deriving DecidableEq, Repr, Inhabited

namespace Uri

def text (u : Uri) : String :=
  (u.scheme?.map (· ++ ":")).getD "" ++ (u.authority?.map ("//" ++ ·)).getD "" ++ u.path ++
    (u.query?.map ("?" ++ ·)).getD "" ++ (u.fragment?.map ("#" ++ ·)).getD ""

/-! ## Characters -/

/-- Characters that are never a delimiter. -/
def isUnreserved (c : Char) : Bool :=
  c.isAlphanum || "-._~".toList.contains c

/-- Delimiters inside a component. -/
def isSubDelimiter (c : Char) : Bool :=
  "!$&'()*+,;=".toList.contains c

def isHexDigit (c : Char) : Bool :=
  c.isDigit || ('a' ≤ c && c ≤ 'f') || ('A' ≤ c && c ≤ 'F')

/-- Whether a text holds only unreserved characters, delimiters inside components, characters of
`extra`, and triples of a percent sign and two hexadecimal digits. -/
def allowed (extra : List Char) : List Char → Bool
  | [] => true
  | '%' :: a :: b :: rest => isHexDigit a && isHexDigit b && allowed extra rest
  | c :: rest => (isUnreserved c || isSubDelimiter c || extra.contains c) && allowed extra rest

/-- A scheme is a letter, followed by letters, digits, `+`, `-` and `.`. -/
def isScheme : List Char → Bool
  | [] => false
  | c :: cs => c.isAlpha && cs.all fun d => d.isAlphanum || "+-.".toList.contains d

/-! ## Hosts -/

/-- The number a text of decimal digits stands for. -/
def decimal (cs : List Char) : Nat :=
  cs.foldl (fun n c => n * 10 + (c.toNat - '0'.toNat)) 0

/-- A decimal number up to 255 without leading zeros. -/
def isByte (cs : List Char) : Bool :=
  !cs.isEmpty && cs.length ≤ 3 && cs.all Char.isDigit && decimal cs ≤ 255 &&
    (cs.length = 1 || cs.head? != some '0')

/-- Four decimal bytes with points between them. -/
def isIpv4 (cs : List Char) : Bool :=
  let bytes := pieces '.' cs
  bytes.length = 4 && bytes.all isByte

/-- The number of 16-bit words in colon-separated pieces, of which only the last may be a version 4
address and count for two. -/
def countWords? : List (List Char) → Option Nat
  | [] => some 0
  | [piece] =>
    if isIpv4 piece then some 2
    else if 1 ≤ piece.length ∧ piece.length ≤ 4 ∧ piece.all isHexDigit then some 1 else none
  | piece :: pieces =>
    if 1 ≤ piece.length ∧ piece.length ≤ 4 ∧ piece.all isHexDigit then
      (countWords? pieces).map (· + 1)
    else none

/-- The words of a text that may be empty. -/
def countWordsOf? (cs : List Char) : Option Nat :=
  if cs = [] then some 0 else countWords? (pieces ':' cs)

/-- The texts before and after the first double colon. -/
def splitDoubleColon? (before : List Char) : List Char → Option (List Char × List Char)
  | ':' :: ':' :: rest => some (before, rest)
  | c :: rest => splitDoubleColon? (before ++ [c]) rest
  | [] => none

/-- A version 6 address: eight words, or fewer with one double colon for the missing ones. -/
def isIpv6 (cs : List Char) : Bool :=
  match splitDoubleColon? [] cs with
  | none => countWordsOf? cs == some 8
  | some (front, back) =>
    let frontWords := if (pieces '.' front).length = 1 then countWordsOf? front else none
    match frontWords, countWordsOf? back with
    | some m, some n => m + n ≤ 7
    | _, _ => false

/-- An address of a later version: `v`, its number to base 16, a point, and the address. -/
def isIpFuture : List Char → Bool
  | c :: cs =>
    (c = 'v' || c = 'V') &&
      match cs.dropWhile isHexDigit with
      | '.' :: address =>
        !(cs.takeWhile isHexDigit).isEmpty && !address.isEmpty &&
          address.all fun d => isUnreserved d || isSubDelimiter d || d = ':'
      | _ => false
  | [] => false

/-- A host, with an optional port after it. -/
def isHostPort (cs : List Char) : Bool :=
  let isPort : List Char → Bool
    | [] => true
    | ':' :: port => port.all Char.isDigit
    | _ => false
  match cs with
  | '[' :: rest =>
    let address := rest.takeWhile (· ≠ ']')
    match rest.dropWhile (· ≠ ']') with
    | ']' :: port => (isIpv6 address || isIpFuture address) && isPort port
    | _ => false
  | _ => allowed [] (cs.takeWhile (· ≠ ':')) && isPort (cs.dropWhile (· ≠ ':'))

/-- An authority: optional user information, a host, an optional port. -/
def isAuthority (cs : List Char) : Bool :=
  match cs.dropWhile (· ≠ '@') with
  | '@' :: host => allowed [':'] (cs.takeWhile (· ≠ '@')) && isHostPort host
  | _ => isHostPort cs

/-! ## Reading -/

/-- Splits a text before the first character that passes `stops`. -/
def cut (stops : Char → Bool) (cs : List Char) : List Char × List Char :=
  (cs.takeWhile (!stops ·), cs.dropWhile (!stops ·))

/-- The text after a delimiter, if it starts with it. -/
def after? (delimiter : Char) : List Char → Option (List Char)
  | c :: cs => if c = delimiter then some cs else none
  | [] => none

/-- Reads what follows the scheme. -/
def readHierarchy? (scheme? : Option String) (cs : List Char) : Option Uri :=
  let (hierarchy, tail) := cut (fun c => c = '?' || c = '#') cs
  let (queryPart, fragmentPart) := cut (· = '#') tail
  let query? := after? '?' queryPart
  let fragment? := after? '#' fragmentPart
  let (authority?, path) : Option (List Char) × List Char :=
    match hierarchy with
    | '/' :: '/' :: rest => let (authority, path) := cut (· = '/') rest; (some authority, path)
    | _ => (none, hierarchy)
  if authority?.all isAuthority && allowed [':', '@', '/'] path &&
      query?.all (allowed [':', '@', '/', '?']) && fragment?.all (allowed [':', '@', '/', '?']) then
    some {
      scheme?
      authority? := authority?.map .ofList
      path := .ofList path
      query? := query?.map .ofList
      fragment? := fragment?.map .ofList }
  else none

/-- Reads a URI reference. A colon in the first segment of the path ends a scheme. -/
def read? (text : String) : Option Uri :=
  let cs := text.toList
  let (front, rest) := cut (fun c => c = ':' || c = '/' || c = '?' || c = '#') cs
  match rest with
  | ':' :: hierarchy =>
    if isScheme front then readHierarchy? (some (.ofList front)) hierarchy else none
  | _ => readHierarchy? none cs

end Uri

end PolicyLint
