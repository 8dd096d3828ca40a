import Nodeless.Number.Binary64

/-!
# Decimal text

Reads numbers written in decimal. The value is the nearest one.
-/

namespace Nodeless.Binary64

def digitValue (c : Char) : Nat := c.toNat - '0'.toNat

def digitsValue (digits : List Char) : Nat :=
  digits.foldl (fun value c => 10 * value + digitValue c) 0

def splitDigits (text : List Char) : List Char × List Char :=
  (text.takeWhile Char.isDigit, text.dropWhile Char.isDigit)

def splitSign : List Char → Bool × List Char
  | '-' :: cs => (true, cs)
  | '+' :: cs => (false, cs)
  | cs => (false, cs)

/-- The fraction after a point, if there is a point, and the rest. -/
def splitFraction : List Char → Option (List Char) × List Char
  | '.' :: cs => (some (splitDigits cs).1, (splitDigits cs).2)
  | cs => (none, cs)

/-- The exponent that a text is, which is zero if there is no text. -/
def exponent? : List Char → Option Int
  | [] => some 0
  | mark :: cs =>
    let (negative, digits) := splitSign cs
    if (mark = 'e' || mark = 'E') && !digits.isEmpty && digits.all Char.isDigit then
      some (if negative then -(digitsValue digits : Int) else digitsValue digits)
    else none

/-- A number with any of its parts but the digits left out, or one of the words for what is not
finite, in either case. -/
def ofText? (text : List Char) : Option Binary64 :=
  let (negative, body) := splitSign text
  let word := String.ofList (body.map Char.toLower)
  if word = "inf" ∨ word = "infinity" then some (.infinite negative)
  else if word = "nan" then some .nan
  else
    let (whole, rest) := splitDigits body
    let (fraction, rest) := splitFraction rest
    let fraction := fraction.getD []
    if whole.isEmpty && fraction.isEmpty then none
    else
      (exponent? rest).map fun exponent =>
        ofDecimal negative (digitsValue (whole ++ fraction)) (exponent - fraction.length)

end Nodeless.Binary64
