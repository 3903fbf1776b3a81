import TagScope.Value.Double

/-!
The decimal text of a double: the fewest digits that read back as the same double,
and of those the nearest to it. Numbers from a ten-thousandth up to ten to the
sixteenth are written with a point, all others with a power of ten.
-/

set_option autoImplicit false

namespace TagScope.Double

/-- The exponent of the greatest power of ten that is not above a positive ratio. -/
def decimalOrder (num den : Nat) : Int :=
  if den ≤ num then ((Nat.toDigits 10 (num / den)).length : Int) - 1
  else
    let estimate := (Nat.toDigits 10 (den / num)).length - 1
    if den ≤ num * Nat.pow 10 estimate then -(estimate : Int) else -(estimate : Int) - 1

/-- The multiple of a power of ten next to a positive double that reads back as it, if
there is one: of the multiples just below and just above, the nearer comes first. -/
def multiple? (double : Double) (num den : Nat) (tens : Int) : Option Nat :=
  let (n, d) := scaled 10 num den tens
  let below := n / d
  let nearer := rounded n d
  [nearer, if nearer = below then below + 1 else below].find? fun digits ↦
    ofDecimal false digits tens = double

/-- The fewest digits of a positive double, with the power of ten of the last one. Seventeen
digits always suffice. -/
def shortest (significand : Nat) (exponent : Int) : Nat × Int :=
  let (num, den) := scaled 2 significand 1 (-exponent)
  let order := decimalOrder num den
  let found := (List.range 17).findSome? fun (more : Nat) ↦
    (multiple? (.finite false significand exponent) num den (order - more)).map fun digits ↦
      (digits, order - (more : Int))
  found.getD (0, 0)

/-- The digits of a number without the zeros at its end. -/
def significantDigits (digits : Nat) : List Char :=
  ((Nat.toDigits 10 digits).reverse.dropWhile fun c ↦ c = '0').reverse

/-- Digits with a point after the first `point` of them, filled up with zeros. -/
def positional (digits : List Char) (point : Int) : List Char :=
  if point ≤ 0 then '0' :: '.' :: List.replicate (-point).toNat '0' ++ digits
  else
    let whole := digits.take point.toNat
    let fraction := digits.drop point.toNat
    whole ++ List.replicate (point.toNat - digits.length) '0' ++
      '.' :: if fraction.isEmpty then ['0'] else fraction

/-- A sign and at least two digits. -/
def exponentText (exponent : Int) : List Char :=
  let digits := Nat.toDigits 10 exponent.natAbs
  (if exponent < 0 then '-' else '+') :: List.replicate (2 - digits.length) '0' ++ digits

def scientific (digits : List Char) (exponent : Int) : List Char :=
  match digits with
  | [] => []
  | first :: rest =>
    first :: (if rest.isEmpty then [] else '.' :: rest) ++ 'e' :: exponentText exponent

/-- The text of a positive double. -/
def magnitudeText (significand : Nat) (exponent : Int) : List Char :=
  let (digits, tens) := shortest significand exponent
  let written := significantDigits digits
  let point := ((Nat.toDigits 10 digits).length : Int) + tens
  if -4 < point && point ≤ 16 then positional written point else scientific written (point - 1)

/-- The text of a double that is finite. -/
def text? : Double → Option (List Char)
  | .finite negative significand exponent =>
    some ((if negative then ['-'] else []) ++
      if significand = 0 then ['0', '.', '0'] else magnitudeText significand exponent)
  | .infinite _ | .nan => none

end TagScope.Double
