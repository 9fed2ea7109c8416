import PolicyLint.Text.Pieces
/-!
# Paths

A path is kept as it was spelled. It is read as a list of parts, and two paths are the same when
their parts are: repeated and trailing slashes do not count, nor does a `.` unless it leads a
relative path. A `..` does count, because what it stands for depends on the disk.
-/

namespace PolicyLint

inductive Part
  /-- the leading slash of an absolute path -/
  | root
  /-- a leading `.` of a relative path -/
  | current
  /-- `..` -/
  | parent
  | name (s : String)
deriving DecidableEq, Repr, Inhabited

namespace Part

/-- The place of the kind of a part in the order. -/
def rank : Part → Nat
  | root => 0
  | current => 1
  | parent => 2
  | name _ => 3

/-- Parts are ordered by kind; names by their characters. -/
def order : Part → Part → Ordering
  | name s, name t => compare s t
  | a, b => compare a.rank b.rank

end Part

/-- Lists of parts are ordered by the first part in which they differ; a list comes after its own
beginnings. -/
def orderParts : List Part → List Part → Ordering
  | [], [] => .eq
  | [], _ :: _ => .lt
  | _ :: _, [] => .gt
  | a :: as, b :: bs => (a.order b).then (orderParts as bs)

namespace Part

theorem order_swap (a b : Part) : a.order b = (b.order a).swap := by
  cases a <;> cases b <;> first | rfl | exact Std.OrientedOrd.eq_swap

theorem order_trans {a b c : Part} (h : (a.order b).isLE) (k : (b.order c).isLE) :
    (a.order c).isLE := by
  cases a <;> cases b <;> cases c
  case name.name.name => exact Std.TransOrd.isLE_trans h k
  all_goals first | rfl | exact absurd h Bool.false_ne_true | exact absurd k Bool.false_ne_true

instance : Std.TransCmp order where
  eq_swap := order_swap _ _
  isLE_trans := order_trans

instance : Std.LawfulEqCmp order where
  compare_self {a} := by cases a <;> simp [order, rank]
  eq_of_compare {a b} h := by cases a <;> cases b <;> simp_all [order, rank]

end Part

theorem orderParts_swap : ∀ as bs : List Part, orderParts as bs = (orderParts bs as).swap
  | [], [] => rfl
  | [], _ :: _ => rfl
  | _ :: _, [] => rfl
  | a :: as, b :: bs => by
    rw [orderParts, orderParts, Ordering.swap_then, ← Part.order_swap, ← orderParts_swap as bs]

theorem orderParts_eq_iff : ∀ {as bs : List Part}, orderParts as bs = .eq ↔ as = bs
  | [], [] => by simp [orderParts]
  | [], _ :: _ => by simp [orderParts]
  | _ :: _, [] => by simp [orderParts]
  | a :: as, b :: bs => by
    simp [orderParts, Ordering.then_eq_eq, @orderParts_eq_iff as bs,
      Std.LawfulEqCmp.compare_eq_iff_eq]

theorem orderParts_trans : ∀ {as bs cs : List Part}, (orderParts as bs).isLE →
    (orderParts bs cs).isLE → (orderParts as cs).isLE
  | [], _, [], _, _ => rfl
  | [], _, _ :: _, _, _ => rfl
  | _ :: _, [], _, h, _ => absurd h Bool.false_ne_true
  | _ :: _, _ :: _, [], _, k => absurd k Bool.false_ne_true
  | a :: as, b :: bs, c :: cs, h, k => by
    simp only [orderParts, Ordering.isLE_then_iff_or, Std.LawfulEqCmp.compare_eq_iff_eq] at h k ⊢
    rcases h with h | ⟨rfl, h⟩
    · rcases k with k | ⟨rfl, k⟩
      · exact Or.inl (Std.TransCmp.lt_trans h k)
      · exact Or.inl h
    · rcases k with k | ⟨rfl, k⟩
      · exact Or.inl k
      · exact Or.inr ⟨rfl, orderParts_trans h k⟩

/-- The part a segment stands for; an empty segment and a `.` stand for none. -/
def Part.ofSegment? (segment : List Char) : Option Part :=
  if segment = [] ∨ segment = ['.'] then none
  else if segment = ['.', '.'] then some .parent
  else some (.name (.ofList segment))

/-- A path, as it was spelled. -/
structure Path where
  text : String
deriving Repr, Inhabited

namespace Path

def segments (p : Path) : List (List Char) :=
  pieces '/' p.text.toList

/-- Whether a path starts with a slash. -/
def isAbsolute (p : Path) : Bool :=
  p.text.toList.head? == some '/'

def parts (p : Path) : List Part :=
  let lead :=
    if p.isAbsolute then [Part.root]
    else if p.segments.head? = some ['.'] then [Part.current]
    else []
  lead ++ p.segments.filterMap Part.ofSegment?

/-- Two paths are the same when their parts are. -/
instance : BEq Path where
  beq p q := p.parts == q.parts

theorem beq_iff {p q : Path} : (p == q) = true ↔ p.parts = q.parts := by
  change (p.parts == q.parts) = true ↔ _
  exact beq_iff_eq

instance : EquivBEq Path where
  rfl := beq_iff.2 rfl
  symm h := beq_iff.2 (beq_iff.1 h).symm
  trans h k := beq_iff.2 ((beq_iff.1 h).trans (beq_iff.1 k))

/-- The order on paths: part by part. -/
def order (p q : Path) : Ordering :=
  orderParts p.parts q.parts

instance : Std.TransCmp order where
  eq_swap := orderParts_swap _ _
  isLE_trans := orderParts_trans

theorem order_eq_iff {p q : Path} : p.order q = .eq ↔ (p == q) = true :=
  orderParts_eq_iff.trans beq_iff.symm

/-- Whether `p` is `folder` or lies below it, part by part. -/
def isWithin (p folder : Path) : Bool :=
  folder.parts.isPrefixOf p.parts

/-- The name at the end of a path. A path that ends in `..`, or has no part, has none. -/
def fileName? (p : Path) : Option String :=
  match p.parts.getLast? with
  | some (.name s) => some s
  | _ => none

/-- What follows the last point of a file name, if anything comes before that point. -/
def extensionOf? (name : List Char) : Option (List Char) :=
  let back := name.reverse
  match back.dropWhile (· ≠ '.') with
  | _point :: _ :: _ => some (back.takeWhile (· ≠ '.')).reverse
  | _ => none

def extension? (p : Path) : Option String :=
  p.fileName?.bind fun name => (extensionOf? name.toList).map String.ofList

/-- Whether a path names a policy file: its extension is `rego`, in any mixture of cases. -/
def isPolicy (p : Path) : Bool :=
  p.extension?.any fun e => e.toList.map Char.toLower == "rego".toList

/-- Whether the spelling asks for a folder: it ends in a slash or in `.`. -/
def asksForFolder (p : Path) : Bool :=
  match p.segments.getLast? with
  | some [] => p.text != ""
  | some ['.'] => true
  | _ => false

def ofNames (names : List String) : Path :=
  ⟨"/" ++ "/".intercalate names⟩

end Path

end PolicyLint
