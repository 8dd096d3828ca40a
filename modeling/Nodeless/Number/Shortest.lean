import Nodeless.Number.Binary64

/-!
# Shortest digits

A number is written with the fewest decimal digits that still read back as the same number, and
with the nearest of those. The layout is always positional: no exponent is written.
-/

namespace Nodeless.Binary64

/-- The multiple of `10 ^ place` nearest to the number, as the factor, if a multiple reads back as
the number. The ends of the interval that does are in it where the mantissa is even. Between two
equally near multiples the greater is taken. -/
def factorAt? (mantissa : Nat) (exponent : Int) (place : Int) : Option Nat :=
  -- All lengths are in quarters of the last binary place.
  let quarter := Nat.pow 2 (exponent - 2).toNat * Nat.pow 10 (-place).toNat
  let grid := Nat.pow 10 place.toNat * Nat.pow 2 (2 - exponent).toNat
  let value := 4 * mantissa * quarter
  let low :=
    value - (if mantissa = Nat.pow 2 52 ∧ leastExponent < exponent then 1 else 2) * quarter
  let high := value + 2 * quarter
  let readsBack (point : Nat) : Bool :=
    if mantissa % 2 = 0 then low ≤ point && point ≤ high else low < point && point < high
  let below := value / grid
  let above := below + 1
  match readsBack (below * grid), readsBack (above * grid) with
  | true, true => some (if value - below * grid < above * grid - value then below else above)
  | true, false => some below
  | false, true => some above
  | false, false => none

/-- The shortest digits of a number that is not zero, as a factor and its decimal place. Twenty
places from the first that can matter hold them: 17 digits always do. -/
def shortest (mantissa : Nat) (exponent : Int) : Nat × Int :=
  let top := ((mantissa.log2 : Int) + exponent + 1) * 30103 / 100000 + 1
  let found := (List.range 20).findSome? fun i : Nat =>
    let place := top - i
    (factorAt? mantissa exponent place).map fun factor => (factor, place)
  found.getD (0, 0)

def positional (factor : Nat) (place : Int) : String :=
  let digits := Nat.toDigits 10 factor
  let zeros (n : Nat) : List Char := List.replicate n '0'
  let places := (-place).toNat
  String.ofList <|
    if 0 ≤ place then digits ++ zeros place.toNat
    else if places < digits.length then
      digits.take (digits.length - places) ++ ['.'] ++ digits.drop (digits.length - places)
    else ['0', '.'] ++ zeros (places - digits.length) ++ digits

def render : Binary64 → String
  | nan => "NaN"
  | infinite negative => (if negative then "-" else "") ++ "Infinity"
  | finite negative mantissa exponent =>
    let (factor, place) := if mantissa = 0 then (0, 0) else shortest mantissa exponent
    (if negative then "-" else "") ++ positional factor place

end Nodeless.Binary64
