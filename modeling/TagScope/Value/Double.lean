/-!
Numbers of double precision, as exact fractions. A decimal is read as the nearest
of them; of two that are equally near the one with the even significand is taken.
-/

set_option autoImplicit false

namespace TagScope

/-- A finite double is its significand times a power of two. The significand has 53
bits, unless the exponent is the least there is. -/
inductive Double where
  | finite (negative : Bool) (significand : Nat) (exponent : Int)
  | infinite (negative : Bool)
  | nan
deriving DecidableEq, Repr

namespace Double

def leastExponent : Int := -1074

def greatestExponent : Int := 971

def zero (negative : Bool) : Double :=
  .finite negative 0 leastExponent

/-- A ratio rounded to a whole number, an exact half to the even one. -/
def rounded (num den : Nat) : Nat :=
  if den < 2 * (num % den) || (2 * (num % den) = den && num / den % 2 = 1) then num / den + 1
  else num / den

/-- A ratio divided by a power of a base, as a ratio again. -/
def scaled (base : Nat) (num den : Nat) (exponent : Int) : Nat × Nat :=
  if exponent < 0 then (num * Nat.pow base (-exponent).toNat, den)
  else (num, den * Nat.pow base exponent.toNat)

/-- The exponent of the greatest power of two that is not above a positive ratio. -/
def binaryOrder (num den : Nat) : Int :=
  let estimate : Int := (num.log2 : Int) - den.log2
  let (n, d) := scaled 2 num den estimate
  if d ≤ n then estimate else estimate - 1

/-- The double nearest to a positive ratio. -/
def ofRatio (negative : Bool) (num den : Nat) : Double :=
  let exponent := max (binaryOrder num den - 52) leastExponent
  let (n, d) := scaled 2 num den exponent
  let significand := rounded n d
  let carries := significand = Nat.pow 2 53
  if greatestExponent < (if carries then exponent + 1 else exponent) then .infinite negative
  else if carries then .finite negative (Nat.pow 2 52) (exponent + 1)
  else .finite negative significand exponent

/-- The double nearest to some digits times a power of ten. Powers that are out of all
proportion to the digits decide the result by themselves. -/
def ofDecimal (negative : Bool) (digits : Nat) (tens : Int) : Double :=
  if digits = 0 || tens + digits.log2 < -340 then zero negative
  else if 310 < tens then .infinite negative
  else
    let (num, den) := scaled 10 digits 1 (-tens)
    ofRatio negative num den

/-- The whole number that a double is, if it is one. -/
def whole? : Double → Option Int
  | .finite negative significand exponent =>
    let sign : Int := if negative then -1 else 1
    let (num, den) := scaled 2 significand 1 (-exponent)
    if num % den = 0 then some (sign * (num / den : Nat)) else none
  | .infinite _ | .nan => none

end Double

end TagScope
