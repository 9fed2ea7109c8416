/-!
# Elapsed time

A short rendering of a span of time. Below a second the largest unit that is not zero is shown
and the rest is cut off. From a second on the span is rounded to the nearest double-precision
number of seconds, and that number, exactly, to two decimals; a tie goes to the even neighbour.
-/

namespace PolicyLint

/-- A span of time; there are 10^9 nanoseconds to a second. -/
structure Elapsed where
  seconds : Nat
  nanoseconds : Nat
deriving DecidableEq, Repr, Inhabited

/-- The quotient rounded to the nearest integer, ties to even. -/
def roundDivEven (num den : Nat) : Nat :=
  let q := num / den
  let twice := 2 * (num % den)
  if twice < den then q
  else if den < twice then q + 1
  else q + q % 2

/-- A non-negative number `mantissa * 2 ^ exponent`. -/
structure Dyadic where
  mantissa : Nat
  exponent : Int
deriving DecidableEq, Repr, Inhabited

namespace Dyadic

/-- The quotient `num / den` rounded to 53 significant binary digits, ties to even. Exponents are
not bounded, which is right for every span of time. -/
def ofRatio (num den : Nat) : Dyadic :=
  if num = 0 ∨ den = 0 then ⟨0, 0⟩
  else
    let guess : Int := (num.log2 : Int) - den.log2 - 52
    let scaled (e : Int) : Nat :=
      if 0 ≤ e then roundDivEven num (den <<< e.toNat) else roundDivEven (num <<< (-e).toNat) den
    let large (e : Int) : Bool :=
      if 0 ≤ e then den <<< (52 + e.toNat) ≤ num else den <<< 52 ≤ num <<< (-e).toNat
    let e := if large guess then guess else guess - 1
    ⟨scaled e, e⟩

/-- The sum of two numbers, rounded to 53 significant binary digits. -/
def add (a b : Dyadic) : Dyadic :=
  let e := min (min a.exponent b.exponent) 0
  let units (x : Dyadic) : Nat := x.mantissa <<< (x.exponent - e).toNat
  ofRatio (units a + units b) (1 <<< (-e).toNat)

/-- The number in hundredths, rounded to the nearest, ties to even. -/
def hundredths (x : Dyadic) : Nat :=
  if 0 ≤ x.exponent then (x.mantissa <<< x.exponent.toNat) * 100
  else roundDivEven (x.mantissa * 100) (1 <<< (-x.exponent).toNat)

end Dyadic

/-- A number of hundredths with a point and two decimals. -/
def showHundredths (n : Nat) : String :=
  let rest := n % 100
  toString (n / 100) ++ "." ++ (if rest < 10 then "0" else "") ++ toString rest

/-- The short rendering of a span of time. -/
def Elapsed.render (t : Elapsed) : String :=
  if 0 < t.seconds then
    let whole := Dyadic.ofRatio t.seconds 1
    let part := Dyadic.ofRatio t.nanoseconds 1000000000
    showHundredths (whole.add part).hundredths ++ "s"
  else if 0 < t.nanoseconds / 1000000 then toString (t.nanoseconds / 1000000) ++ "ms"
  else if 0 < t.nanoseconds / 1000 then toString (t.nanoseconds / 1000) ++ "µs"
  else toString t.nanoseconds ++ "ns"

end PolicyLint
