/-!
# JSON values

The values exchanged with a client. A number written with a fraction or an exponent is kept apart
from an integer, because it is never taken for one. An object holds each key once.
-/

namespace PolicyLint

inductive Json
  | null
  | bool (b : Bool)
  /-- a number written as an integer -/
  | int (n : Int)
  /-- a number written with a fraction or an exponent, as it was written -/
  | decimal (digits : String)
  | str (s : String)
  | arr (items : List Json)
  | obj (fields : List (String × Json))
deriving Repr, Inhabited

namespace Json

def field? (key : String) : Json → Option Json
  | obj fields => fields.lookup key
  | _ => none

def str? : Json → Option String
  | str s => some s
  | _ => none

def arr? : Json → Option (List Json)
  | arr items => some items
  | _ => none

/-- An integer from 0 up to, and not including, `bound`. -/
def natBelow? (bound : Nat) : Json → Option Nat
  | int n => if 0 ≤ n ∧ n.toNat < bound then some n.toNat else none
  | _ => none

def isNull : Json → Bool
  | null => true
  | _ => false

end Json

end PolicyLint
