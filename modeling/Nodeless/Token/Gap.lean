import Nodeless.Text.CharClass

/-!
# Gaps

What may stand between two tokens: blanks and comments. A line comment leaves its line end to the
blanks. Only a block comment that the text ends in leaves a gap open.
-/

namespace Nodeless

structure Gap where
  text : List Char
  rest : List Char
  closed : Bool
  deriving DecidableEq, Repr

namespace Gap

def after (read : List Char) (gap : Gap) : Gap := { gap with text := read ++ gap.text }

inductive Place
  | between
  | lineComment
  /-- In a block comment, with whether the last character was a star that may close it. -/
  | blockComment (star : Bool)
  deriving DecidableEq, Repr

def read : Place → List Char → Gap
  | .between, '/' :: '/' :: cs => (read .lineComment cs).after ['/', '/']
  | .between, '/' :: '*' :: cs => (read (.blockComment false) cs).after ['/', '*']
  | .between, c :: cs =>
    if Text.isBlank c then (read .between cs).after [c] else ⟨[], c :: cs, true⟩
  | .lineComment, c :: cs =>
    (read (if Text.endsLine c then .between else .lineComment) cs).after [c]
  | .blockComment star, c :: cs =>
    if star && c = '/' then (read .between cs).after [c]
    else (read (.blockComment (c = '*')) cs).after [c]
  | .blockComment _, [] => ⟨[], [], false⟩
  | _, [] => ⟨[], [], true⟩

def ofChars (cs : List Char) : Gap := read .between cs

theorem read_text_append_rest (place : Place) (cs : List Char) :
    (read place cs).text ++ (read place cs).rest = cs := by
  fun_induction read place cs <;> simp_all [after]

/-- The line of an interpreter at the very start of a source. It is skipped up to its end. -/
def hashbang (source : List Char) : List Char :=
  if ['#', '!'].isPrefixOf source then source.takeWhile fun c => !Text.endsLine c else []

end Gap

end Nodeless
