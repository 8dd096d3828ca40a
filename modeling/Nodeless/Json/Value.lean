import Nodeless.Json.Token

/-!
# JSON values

A value is the run of its tokens. The grammar is a machine with a stack of the brackets that are
open: it says after each token what is due next.
-/

namespace Nodeless.Json

inductive Bracket
  | array
  | object
  deriving DecidableEq, Repr

inductive Due
  | value
  | valueOrClose
  | key
  | keyOrClose
  | colon
  /-- A comma or the closing bracket. -/
  | separator
  deriving DecidableEq, Repr

/-- What is due after a token, and the brackets open after it. -/
def advance (stack : List Bracket) : Due → Token → Option (Due × List Bracket)
  | .value, .openArray | .valueOrClose, .openArray => some (.valueOrClose, .array :: stack)
  | .value, .openObject | .valueOrClose, .openObject => some (.keyOrClose, .object :: stack)
  | .value, .text _ | .valueOrClose, .text _ => some (.separator, stack)
  | .value, .number _ | .valueOrClose, .number _ => some (.separator, stack)
  | .value, .boolean _ | .valueOrClose, .boolean _ => some (.separator, stack)
  | .value, .null | .valueOrClose, .null => some (.separator, stack)
  | .key, .text _ | .keyOrClose, .text _ => some (.colon, stack)
  | .colon, .colon => some (.value, stack)
  | .separator, .comma =>
    match stack with
    | .array :: _ => some (.value, stack)
    | .object :: _ => some (.key, stack)
    | [] => none
  | .separator, .closeArray | .valueOrClose, .closeArray =>
    match stack with
    | .array :: stack => some (.separator, stack)
    | _ => none
  | .separator, .closeObject | .keyOrClose, .closeObject =>
    match stack with
    | .object :: stack => some (.separator, stack)
    | _ => none
  | _, _ => none

/-- The tokens of the value that is under way, and those after it. -/
def splitValue? (due : Due) (stack : List Bracket) : List Token → Option (List Token × List Token)
  | [] => none
  | t :: ts =>
    match advance stack due t with
    | none => none
    | some (.separator, []) => some ([t], ts)
    | some (due, stack) => (splitValue? due stack ts).map fun split => (t :: split.1, split.2)

theorem length_splitValue?_lt {due : Due} {stack : List Bracket} {ts value rest : List Token}
    (h : splitValue? due stack ts = some (value, rest)) : rest.length < ts.length := by
  induction ts generalizing due stack value with
  | nil => simp [splitValue?] at h
  | cons t ts ih =>
    rw [splitValue?] at h
    split at h
    · cases h
    · cases h; simp
    · obtain ⟨split, hsplit, heq⟩ := Option.map_eq_some_iff.1 h
      cases heq
      exact Nat.lt_trans (ih hsplit) (by simp)

/-- The members of an object after its opening bracket, each as its key and the tokens of its
value. Nothing may follow the object. -/
def members? : List Token → Option (List (List Char × List Token))
  | [.closeObject] => some []
  | .text key :: .colon :: ts =>
    match h : splitValue? .value [] ts with
    | some (value, [.closeObject]) => some [(key, value)]
    | some (value, .comma :: .text key' :: rest) =>
      have := length_splitValue?_lt h
      (members? (.text key' :: rest)).map fun members => (key, value) :: members
    | _ => none
  | _ => none
termination_by ts => ts.length
decreasing_by simp at this ⊢; omega

def elementsFrom? (ts : List Token) : Option (List (List Token)) :=
  match h : splitValue? .value [] ts with
  | some (value, [.closeArray]) => some [value]
  | some (value, .comma :: rest) =>
    have := length_splitValue?_lt h
    (elementsFrom? rest).map fun elements => value :: elements
  | _ => none
termination_by ts.length
decreasing_by simp at this; omega

/-- The elements of an array after its opening bracket. Nothing may follow the array. -/
def elements? : List Token → Option (List (List Token))
  | [.closeArray] => some []
  | ts => elementsFrom? ts

/-! ## Strings -/

def simpleEscape : Char → Char
  | 'b' => '\x08'
  | 'f' => '\x0c'
  | 'n' => '\n'
  | 'r' => '\r'
  | 't' => '\t'
  | c => c

/-- The text that the body of a string stands for. Half of a surrogate pair stands for nothing. -/
def decode? : List Char → Option (List Char)
  | [] => some []
  | '\\' :: 'u' :: a :: b :: c :: d :: cs =>
    let unit := Text.numberInBase 16 [a, b, c, d]
    if 0xdc00 ≤ unit ∧ unit ≤ 0xdfff then none
    else if 0xd800 ≤ unit ∧ unit ≤ 0xdbff then
      match cs with
      | '\\' :: 'u' :: e :: f :: g :: h :: cs =>
        let low := Text.numberInBase 16 [e, f, g, h]
        if 0xdc00 ≤ low ∧ low ≤ 0xdfff then
          let point := 0x10000 + (unit - 0xd800) * 0x400 + (low - 0xdc00)
          (decode? cs).map fun text => Char.ofNat point :: text
        else none
      | _ => none
    else (decode? cs).map fun text => Char.ofNat unit :: text
  | '\\' :: c :: cs => (decode? cs).map fun text => simpleEscape c :: text
  | c :: cs => (decode? cs).map fun text => c :: text

/-! ## Numbers -/

/-- Adds digits to a number below 2 ^ 64 for as long as it stays below, and counts them. -/
def absorb (value : Nat) : List Char → Nat × Nat
  | [] => (value, 0)
  | c :: cs =>
    let next := 10 * value + Binary64.digitValue c
    if next < Nat.pow 2 64 then
      let more := absorb next cs
      (more.1, more.2 + 1)
    else (value, 0)

def finiteFraction? : Binary64 → Option (Nat × Nat)
  | .finite _ mantissa exponent => some (Binary64.fraction mantissa exponent)
  | _ => none

def combine (divide : Bool) (a b : Binary64) : Binary64 :=
  match finiteFraction? a, finiteFraction? b with
  | some a, some b =>
    if divide then Binary64.nearest false (a.1 * b.2) (a.2 * b.1)
    else Binary64.nearest false (a.1 * b.1) (a.2 * b.2)
  | _, _ => a

def power (place : Nat) : Binary64 := Binary64.ofDecimal false 1 place

/-- `value` times ten to the power of `place`, rounded after each step. A step goes over 308 places
at most. -/
def scale (value : Binary64) (place : Int) : Binary64 :=
  if value.isZero then value
  else if 308 < place then .infinite false
  else if 0 ≤ place then combine false value (power place.toNat)
  else if -308 ≤ place then combine true value (power (-place).toNat)
  else scale (combine true value (power 308)) (place + 308)
termination_by (-place).toNat
decreasing_by omega

/-- The value of a number, unless it is past the greatest. As many digits count as a number below
2 ^ 64 can hold. -/
def numberValue? (parts : NumberParts) : Option Binary64 :=
  let whole := absorb 0 parts.whole
  let beyond := parts.whole.length - whole.2
  let fraction := absorb whole.1 parts.fraction
  let place := parts.exponent + beyond - fraction.2
  let value := scale (Binary64.nearest false fraction.1 1) place
  match value with
  | .finite _ mantissa exponent => some (.finite parts.negative mantissa exponent)
  | _ => none

end Nodeless.Json
