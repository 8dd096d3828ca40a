import Nodeless.Number.Decimal
import Nodeless.Text.Hex

/-!
# JSON tokens

Strings and numbers are kept as they are written, so that a value that nobody looks at need only be
well formed: its strings may hold half of a surrogate pair, and its numbers may be of any size.
-/

namespace Nodeless.Json

inductive Token
  | openArray | closeArray | openObject | closeObject | comma | colon
  /-- What stands between the quotes. -/
  | text (raw : List Char)
  | number (raw : List Char)
  | boolean (value : Bool)
  | null
  deriving DecidableEq, Repr

def isBlank (c : Char) : Bool := c = ' ' || c = '\t' || c = '\n' || c = '\r'

def stringBody : List Char → Option (List Char)
  | [] => none
  | '\x22' :: _ => some []
  | '\\' :: 'u' :: a :: b :: c :: d :: cs =>
    if [a, b, c, d].all Text.isHexDigit then
      (stringBody cs).map fun body => '\\' :: 'u' :: a :: b :: c :: d :: body
    else none
  | '\\' :: c :: cs =>
    if "\"\\/bfnrt".contains c then (stringBody cs).map fun body => '\\' :: c :: body else none
  | c :: cs => if c.toNat < 0x20 then none else (stringBody cs).map fun body => c :: body

def isNumberChar (c : Char) : Bool :=
  c.isDigit || c = '-' || c = '+' || c = '.' || c = 'e' || c = 'E'

/-- The parts of a number: its sign, the digits of its whole part and of its fraction, and its
exponent. -/
structure NumberParts where
  negative : Bool
  whole : List Char
  fraction : List Char
  exponent : Int
  deriving DecidableEq, Repr

/-- A number has no plus sign, no needless zero before its digits, and digits after its point. -/
def numberParts? (raw : List Char) : Option NumberParts :=
  let (negative, body) := match raw with
    | '-' :: cs => (true, cs)
    | cs => (false, cs)
  let (whole, rest) := Binary64.splitDigits body
  let (fraction, exponent) := Binary64.splitFraction rest
  if whole.isEmpty || (whole.head? = some '0' && whole.length ≠ 1) || fraction = some [] then none
  else
    (Binary64.exponent? exponent).map fun value =>
      { negative, whole, fraction := fraction.getD [], exponent := value }

/-- The token that a character starts, and how many characters after it belong to it. -/
def tokenAt? (c : Char) (cs : List Char) : Option (Token × Nat) :=
  if c = '[' then some (.openArray, 0)
  else if c = ']' then some (.closeArray, 0)
  else if c = '\x7b' then some (.openObject, 0)
  else if c = '\x7d' then some (.closeObject, 0)
  else if c = ',' then some (.comma, 0)
  else if c = ':' then some (.colon, 0)
  else if c = '\x22' then (stringBody cs).map fun body => (.text body, body.length + 1)
  else if c.isDigit || c = '-' then
    let run := cs.takeWhile isNumberChar
    (numberParts? (c :: run)).map fun _ => (.number (c :: run), run.length)
  else
    let run := cs.takeWhile Char.isAlpha
    let word := String.ofList (c :: run)
    if word = "true" then some (.boolean true, run.length)
    else if word = "false" then some (.boolean false, run.length)
    else if word = "null" then some (.null, run.length)
    else none

def tokens? : List Char → Option (List Token)
  | [] => some []
  | c :: cs =>
    if isBlank c then tokens? cs
    else
      match tokenAt? c cs with
      | none => none
      | some (token, taken) => (tokens? (cs.drop taken)).map fun tokens => token :: tokens
termination_by text => text.length
decreasing_by all_goals simp only [List.length_cons, List.length_drop]; omega

end Nodeless.Json
