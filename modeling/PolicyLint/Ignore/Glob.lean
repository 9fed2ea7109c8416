import PolicyLint.Text.Utf8
/-!
# Glob patterns

A pattern matches a relative path, both as bytes. `?` stands for one byte and `*` for any number of
them, neither for a slash; `[a-z]` stands for one byte of a set; `**` between slashes stands for any
number of folders; `{a,b}` stands for `a` or `b`; a backslash takes the next character as it is.
-/

namespace PolicyLint.Glob

inductive Atom
  | byte (b : UInt8)
  /-- `?` -/
  | any
  /-- `*` -/
  | star
  /-- a leading `**/` -/
  | folders
  /-- a trailing `/**` -/
  | below
  /-- `/**/` -/
  | between
  /-- a set of bytes, as inclusive ranges -/
  | set (negated : Bool) (ranges : List (UInt8 × UInt8))
deriving DecidableEq, Repr, Inhabited

/-- A pattern: the sequences it stands for, one of which has to match. -/
abbrev Pattern := List (List Atom)

/-! ## Matching -/

/-- The byte between the names in a path. -/
def slash : UInt8 := 47

/-- Whether `k` accepts what is left after some bytes other than slashes. -/
def afterName (k : List UInt8 → Bool) : List UInt8 → Bool
  | [] => k []
  | b :: bs => k (b :: bs) || (b != slash && afterName k bs)

/-- Whether `k` accepts what is left after some slash. -/
def afterSlash (k : List UInt8 → Bool) : List UInt8 → Bool
  | [] => false
  | b :: bs => (b == slash && k bs) || afterSlash k bs

/-- Whether `k` accepts what is left after some bytes. -/
def afterAny (k : List UInt8 → Bool) : List UInt8 → Bool
  | [] => k []
  | b :: bs => k (b :: bs) || afterAny k bs

/-- Whether a sequence matches the whole of a path. -/
def matchAtoms : List Atom → List UInt8 → Bool
  | [], bs => bs.isEmpty
  | .star :: rest, bs => afterName (matchAtoms rest) bs
  | .folders :: rest, bs => matchAtoms rest bs || afterSlash (matchAtoms rest) bs
  | _ :: _, [] => false
  | .byte c :: rest, b :: bs => b == c && matchAtoms rest bs
  | .any :: rest, b :: bs => b != slash && matchAtoms rest bs
  | .below :: rest, b :: bs => b == slash && afterAny (matchAtoms rest) bs
  | .between :: rest, b :: bs =>
    b == slash && (matchAtoms rest bs || afterSlash (matchAtoms rest) bs)
  | .set negated ranges :: rest, b :: bs =>
    (ranges.any (fun r => r.1 ≤ b && b ≤ r.2) != negated) && matchAtoms rest bs

def matchPattern (p : Pattern) (bs : List UInt8) : Bool :=
  p.any fun atoms => matchAtoms atoms bs

/-! ## Reading -/

/-- A pattern while it is read. Sequences hold their last atom first. -/
structure Reading where
  /-- the sequences the current alternative stands for so far -/
  current : List (List Atom) := [[]]
  /-- nothing of the current alternative has been read -/
  fresh : Bool := true
  /-- for each open brace, what came before it and the alternatives that are complete -/
  braces : List (List (List Atom) × List (List Atom)) := []
  /-- the character read last -/
  last? : Option Char := none
deriving Repr, Inhabited

namespace Reading

/-- Adds an atom at the end. -/
def push (r : Reading) (a : Atom) : Reading :=
  { r with current := r.current.map (a :: ·), fresh := false }

/-- Adds the bytes of a character at the end. -/
def pushChar (r : Reading) (c : Char) : Reading :=
  (Utf8.encode [c]).foldl (fun r b => r.push (.byte b)) r

def replaceLast (r : Reading) (f : Atom → Atom) : Reading :=
  { r with current := r.current.map fun
      | a :: atoms => f a :: atoms
      | [] => [] }

def openBrace (r : Reading) : Reading :=
  { r with current := [[]], fresh := true, braces := (r.current, []) :: r.braces }

/-- Ends an alternative, if a brace is open; an empty alternative does not count. -/
def comma (r : Reading) : Reading :=
  match r.braces with
  | [] => r.pushChar ','
  | (before, done) :: outer =>
    { r with current := [[]], fresh := true
             braces := (before, done ++ r.current.filter (!·.isEmpty)) :: outer }

/-- Closes a brace, if one is open. -/
def closeBrace? (r : Reading) : Option Reading :=
  match r.braces with
  | [] => none
  | (before, done) :: outer =>
    let alternatives := done ++ r.current.filter (!·.isEmpty)
    let all := if alternatives.isEmpty then [[]] else alternatives
    some { r with current := before.flatMap fun front => all.map (· ++ front)
                  fresh := false, braces := outer }

/-- What two stars become, given whether what follows them is a slash, the end of the alternative,
or anything else. Answers also whether that slash belongs to them. -/
def doubleStar (r : Reading) (next? : Option Char) : Reading × Bool :=
  let plain := ((r.push .star).push .star, false)
  let atEnd := next?.isNone || (!r.braces.isEmpty && (next? == some ',' || next? == some '}'))
  if r.fresh then
    if next?.isNone || next? == some '/' then (r.push .folders, next?.isSome) else plain
  else if r.last? != some '/' then plain
  else if atEnd then
    (r.replaceLast fun
      | .folders => .folders
      | .below => .below
      | _ => .below, false)
  else if next? == some '/' then
    (r.replaceLast fun
      | .folders => .folders
      | .below => .below
      | _ => .between, true)
  else plain

end Reading

/-- The ranges of bytes of a set that holds the characters from `a` to `b`. -/
def byteRanges (a b : Char) : List (UInt8 × UInt8) :=
  let bytes (c : Char) : List UInt8 := Utf8.encode [c]
  if a = b then (bytes a).map fun x => (x, x)
  else
    (bytes a).dropLast.map (fun x => (x, x)) ++
      [((bytes a).getLastD 0, (bytes b).headD 0)] ++ (bytes b).tail.map fun x => (x, x)

inductive SetReading
  | closed (ranges : List (Char × Char)) (rest : List Char)
  | unclosed
  /-- a range whose ends are the wrong way round -/
  | malformed
deriving Repr, Inhabited

/-- Reads the characters of a set up to its closing bracket. A closing bracket that comes first is
a member; `inRange` says that a dash has been read that may make a range. -/
def readSet (first inRange : Bool) (ranges : List (Char × Char)) : List Char → SetReading
  | [] => .unclosed
  | c :: cs =>
    if c = ']' ∧ !first then
      .closed (if inRange then ranges ++ [('-', '-')] else ranges) cs
    else if c = '-' ∧ !first ∧ !inRange then readSet false true ranges cs
    else if inRange then
      match ranges.getLast? with
      | some (a, _) =>
        if a ≤ c then readSet false false (ranges.dropLast ++ [(a, c)]) cs else .malformed
      | none => .malformed
    else readSet false false (ranges ++ [(c, c)]) cs

theorem length_readSet {first inRange : Bool} {ranges out : List (Char × Char)}
    {cs rest : List Char} (h : readSet first inRange ranges cs = .closed out rest) :
    rest.length < cs.length := by
  induction cs generalizing first inRange ranges with
  | nil => simp [readSet] at h
  | cons c cs ih =>
    simp only [readSet] at h
    split at h
    · simp only [SetReading.closed.injEq] at h
      simp [← h.2]
    split at h
    · exact Nat.lt_succ_of_lt (ih h)
    split at h
    · split at h
      · split at h
        · exact Nat.lt_succ_of_lt (ih h)
        · cases h
      · cases h
    · exact Nat.lt_succ_of_lt (ih h)

/-- The text of a set without the mark that negates it. -/
def setBody (cs : List Char) : Bool × List Char :=
  match cs with
  | '!' :: rest | '^' :: rest => (true, rest)
  | _ => (false, cs)

theorem length_setBody_le (cs : List Char) : (setBody cs).2.length ≤ cs.length := by
  unfold setBody
  split <;> simp

/-- Reads the rest of a pattern. -/
def readFrom? (r : Reading) (cs : List Char) : Option Pattern :=
  match cs with
  | [] => if r.braces.isEmpty then some (r.current.map List.reverse) else none
  | '?' :: cs => readFrom? { r.push .any with last? := some '?' } cs
  | '*' :: '*' :: cs =>
    match r.doubleStar cs.head? with
    | (r, true) => readFrom? { r with last? := some '/' } cs.tail
    | (r, false) => readFrom? { r with last? := some '*' } cs
  | '*' :: cs => readFrom? { r.push .star with last? := some '*' } cs
  | '[' :: cs =>
    match _h : readSet true false [] (setBody cs).2 with
    | .closed ranges rest =>
      let bytes := ranges.flatMap fun x => byteRanges x.1 x.2
      readFrom? { r.push (.set (setBody cs).1 bytes) with last? := some ']' } rest
    | .unclosed => readFrom? { r.pushChar '[' with last? := some '[' } cs
    | .malformed => none
  | '{' :: cs => readFrom? { r.openBrace with last? := some '{' } cs
  | '}' :: cs =>
    match r.closeBrace? with
    | some r => readFrom? { r with last? := some '}' } cs
    | none => none
  | ',' :: cs => readFrom? { r.comma with last? := some ',' } cs
  | '\\' :: c :: cs => readFrom? { r.pushChar c with last? := some c } cs
  | ['\\'] => none
  | c :: cs => readFrom? { r.pushChar c with last? := some c } cs
termination_by cs.length
decreasing_by
  all_goals simp only [List.length_cons, List.length_tail]
  all_goals try omega
  exact Nat.lt_succ_of_lt (Nat.lt_of_lt_of_le (length_readSet _h) (length_setBody_le cs))

/-- Reads a pattern; it may be malformed. A pattern of two stars alone matches everything. -/
def read? (text : String) : Option Pattern :=
  if text = "**" then some [[.folders, .star]]
  else readFrom? {} text.toList

end PolicyLint.Glob
