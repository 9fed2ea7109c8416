/-!
# Positions in a text

A position is a line and a column, both counted from zero. Lines end at a line feed; a column
counts UTF-16 code units, so a character beyond the basic plane is two columns wide. Both
coordinates are 32-bit words, and a count that does not fit is reduced modulo 2^32.
-/

namespace PolicyLint

/-- A place in a text: a line, and a column in UTF-16 code units. -/
structure Position where
  line : UInt32 := 0
  character : UInt32 := 0
deriving DecidableEq, Repr, Inhabited

namespace Position

/-- Positions are ordered by line, then by column. -/
instance : LT Position where
  lt a b := a.line < b.line ∨ (a.line = b.line ∧ a.character < b.character)

instance : LE Position where
  le a b := ¬ b < a

instance (a b : Position) : Decidable (a < b) :=
  inferInstanceAs (Decidable (a.line < b.line ∨ (a.line = b.line ∧ a.character < b.character)))

instance (a b : Position) : Decidable (a ≤ b) :=
  inferInstanceAs (Decidable (¬ b < a))

/-- The three-way form of the order on positions. -/
def order (a b : Position) : Ordering :=
  if a < b then .lt else if b < a then .gt else .eq

end Position

/-- The text from `start` up to, and not including, `stop`. -/
structure Range where
  start : Position := {}
  stop : Position := {}
deriving DecidableEq, Repr, Inhabited

/-- A range is half-open: it holds its start and not its stop. -/
def Range.contains (r : Range) (p : Position) : Bool :=
  decide (r.start ≤ p) && decide (p < r.stop)

/-- The number of UTF-16 code units of a character. -/
def utf16Width (c : Char) : Nat :=
  if c.toNat < 0x10000 then 1 else 2

/-- The number of UTF-16 code units of a text. -/
def utf16Length : List Char → Nat
  | [] => 0
  | c :: cs => utf16Width c + utf16Length cs

/-- A place reached while reading a text, before it is cut to 32-bit words. -/
structure Cursor where
  line : Nat := 0
  column : Nat := 0
deriving DecidableEq, Repr, Inhabited

namespace Cursor

/-- The place after one more character. -/
def step (here : Cursor) (c : Char) : Cursor :=
  if c = '\n' then ⟨here.line + 1, 0⟩ else ⟨here.line, here.column + utf16Width c⟩

/-- The place after reading all of `cs`. -/
def after (here : Cursor) (cs : List Char) : Cursor :=
  cs.foldl step here

def position (here : Cursor) : Position :=
  ⟨.ofNat here.line, .ofNat here.column⟩

@[simp] theorem after_nil (here : Cursor) : here.after [] = here := rfl

@[simp] theorem after_cons (here : Cursor) (c : Char) (cs : List Char) :
    here.after (c :: cs) = (here.step c).after cs := rfl

theorem after_append (here : Cursor) (cs ds : List Char) :
    here.after (cs ++ ds) = (here.after cs).after ds := by
  simp [after]

end Cursor

end PolicyLint
