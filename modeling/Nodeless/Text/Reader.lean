/-!
# Readers

A reader takes something off the front of a text, or fails and takes nothing.
-/

namespace Nodeless.Text

abbrev Reader := StateT (List Char) Option

namespace Reader

def run {α : Type} (reader : Reader α) (text : List Char) : Option (α × List Char) :=
  StateT.run reader text

def peek : Reader (Option Char) := fun text => some (text.head?, text)

def char (p : Char → Bool) : Reader Char
  | [] => none
  | c :: cs => if p c then some (c, cs) else none

def exactly (word : String) : Reader Unit := fun text =>
  if word.toList.isPrefixOf text then some ((), text.drop word.length) else none

/-- All characters up to the first that fails `p`. -/
def span (p : Char → Bool) : Reader (List Char) := fun text =>
  some (text.takeWhile p, text.dropWhile p)

/-- The same, but at least one. -/
def span1 (p : Char → Bool) : Reader (List Char) := do
  let run ← span p
  if run.isEmpty then failure
  return run

/-- Reads at most `n` times, until the reader fails. -/
def upTo {α : Type} : Nat → Reader α → Reader (List α)
  | 0, _ => return []
  | n + 1, reader => do
    match ← optional reader with
    | none => return []
    | some a => return a :: (← upTo n reader)

def many {α : Type} (reader : Reader α) : Reader (List α) := fun text =>
  upTo text.length reader text

/-- Reads once, and again after every separator. A separator that nothing follows is left. -/
def separated {α : Type} (separator : Reader Unit) (reader : Reader α) : Reader (List α) := do
  let first ← reader
  return first :: (← many (do separator; reader))

def atEnd : Reader Unit := fun text => if text.isEmpty then some ((), []) else none

end Reader

end Nodeless.Text
