import Nodeless.Number.Decimal
import Nodeless.Text.Hex
import Nodeless.Text.Reader

/-!
# TOML numbers and dates

Numbers and dates of TOML 1.0. A date is checked, and nothing is kept of it.
-/

namespace Nodeless.Toml

open Text Text.Reader

/-! ## Dates and times -/

def digits (count : Nat) : Reader Nat := fun text =>
  let digits := text.take count
  if digits.length = count ∧ digits.all Char.isDigit then
    some (Binary64.digitsValue digits, text.drop count)
  else none

def check (condition : Bool) : Reader Unit := if condition then return () else failure

def daysIn (year month : Nat) : Nat :=
  let leap := year % 4 = 0 ∧ (year % 100 ≠ 0 ∨ year % 400 = 0)
  if month = 2 then if leap then 29 else 28
  else if month = 4 ∨ month = 6 ∨ month = 9 ∨ month = 11 then 30
  else 31

def date : Reader Unit := do
  let year ← digits 4
  exactly "-"
  let month ← digits 2
  check (1 ≤ month && month ≤ 12)
  exactly "-"
  let day ← digits 2
  check (1 ≤ day && day ≤ daysIn year month)

def hourAndMinute : Reader Unit := do
  let hour ← digits 2
  check (hour ≤ 23)
  exactly ":"
  let minute ← digits 2
  check (minute ≤ 59)

def time : Reader Unit := do
  hourAndMinute
  exactly ":"
  let second ← digits 2
  check (second ≤ 60)
  let _ ← optional (do exactly "."; span1 Char.isDigit)

def offset : Reader Unit :=
  (do let _ ← char fun c => c = 'Z' || c = 'z') <|>
  (do let _ ← char fun c => c = '+' || c = '-'; hourAndMinute)

def dateTime : Reader Unit :=
  (do
    date
    let _ ← optional (do
      let _ ← char fun c => c = 'T' || c = 't' || c = ' '
      time
      optional offset)) <|> time

/-! ## Numbers -/

/-- Digits with single underscores between them. -/
def spacedDigits (isDigit : Char → Bool) : Reader (List Char) := do
  let first ← char isDigit
  let more ← many (char isDigit <|> (do exactly "_"; char isDigit))
  return first :: more

def sign : Reader (List Char) := do
  return (← optional (char fun c => c = '+' || c = '-')).toList

/-- A whole number, without needless zeros. -/
def wholeNumber : Reader (List Char) := do
  let sign ← sign
  let first ← char Char.isDigit
  if first = '0' then return sign ++ ['0']
  let more ← many (char Char.isDigit <|> (do exactly "_"; char Char.isDigit))
  return sign ++ first :: more

def fraction : Reader (List Char) := do
  exactly "."
  return '.' :: (← spacedDigits Char.isDigit)

def exponent : Reader (List Char) := do
  let _ ← char fun c => c = 'e' || c = 'E'
  let sign ← sign
  return 'e' :: sign ++ (← spacedDigits Char.isDigit)

def special : Reader (List Char) := do
  let sign ← sign
  (do exactly "inf"; return sign ++ "inf".toList) <|>
    (do exactly "nan"; return sign ++ "nan".toList)

/-- A number with a point or an exponent. One that is past the greatest is refused, but only above
zero. -/
def decimal : Reader Binary64 := do
  let whole ← wholeNumber
  let rest ← exponent <|> (do return (← fraction) ++ ((← optional exponent).getD []))
  match Binary64.ofText? (whole ++ rest) with
  | none | some (.infinite false) => failure
  | some value => return value

def float : Reader Binary64 :=
  decimal <|> do
    match Binary64.ofText? (← special) with
    | none => failure
    | some value => return value

def inWord (n : Int) : Bool := -(Nat.pow 2 63 : Int) ≤ n && n < Nat.pow 2 63

def based (mark : String) (base : Nat) (isDigit : Char → Bool) : Reader Int := do
  exactly mark
  let digits ← spacedDigits isDigit
  let value : Int := numberInBase base digits
  if inWord value then return value else failure

def integer : Reader Int :=
  based "0x" 16 isHexDigit <|>
  based "0o" 8 (fun c => '0' ≤ c && c ≤ '7') <|>
  based "0b" 2 (fun c => c = '0' || c = '1') <|> do
    let (negative, digits) := Binary64.splitSign (← wholeNumber)
    let magnitude : Int := Binary64.digitsValue digits
    let value := if negative then -magnitude else magnitude
    if inWord value then return value else failure

end Nodeless.Toml
