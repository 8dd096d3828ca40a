import Nodeless.Source.Text
import Nodeless.Source.Span

/-!
# Positions

Lines count from 1 and end at a line feed only. Columns count characters from 0.
-/

namespace Nodeless

structure Position where
  line : Nat
  column : Nat
  deriving DecidableEq, Repr, Inhabited

structure Location where
  start : Position
  stop : Position
  deriving DecidableEq, Repr, Inhabited

/-- The line of the end is left out when it is the line of the start. -/
def Location.render (l : Location) : String :=
  let start := toString l.start.line ++ ":" ++ toString l.start.column
  if l.start.line = l.stop.line then start ++ "-" ++ toString l.stop.column
  else start ++ "-" ++ toString l.stop.line ++ ":" ++ toString l.stop.column

/-- Each line of a source, as the offset of its first byte and the text from there on. -/
structure LineIndex where
  lines : List (Nat × List Char)
  deriving Repr

namespace LineIndex

open Source

/-- The lines that start after a line feed of `cs`, where `cs` itself starts at `offset`. -/
def linesAfter (offset : Nat) : List Char → List (Nat × List Char)
  | [] => []
  | c :: cs =>
    let next := offset + c.utf8Size
    if c = '\n' then (next, cs) :: linesAfter next cs else linesAfter next cs

def ofChars (source : List Char) : LineIndex := ⟨(0, source) :: linesAfter 0 source⟩

/-- The last line that starts at or before the offset holds it. An offset past the end counts as
the end. -/
def position (index : LineIndex) (offset : Nat) : Position :=
  let upTo := index.lines.takeWhile fun line => line.1 ≤ offset
  let line := upTo.getLastD (0, [])
  ⟨upTo.length, (takeBytes (offset - line.1) line.2).length⟩

def location (index : LineIndex) (span : Span) : Location :=
  ⟨index.position span.start, index.position span.stop⟩

end LineIndex

end Nodeless
