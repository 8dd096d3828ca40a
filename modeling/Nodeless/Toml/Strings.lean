import Nodeless.Text.Hex
import Nodeless.Text.Reader

/-!
# TOML strings

The four kinds of string of TOML 1.0, and what may stand between values.
-/

namespace Nodeless.Toml

open Text Text.Reader

/-! ## Blanks and comments -/

def isBlank (c : Char) : Bool := c = ' ' || c = '\t'

def blanks : Reader Unit := do
  let _ ← span isBlank

def newline : Reader Unit := exactly "\n" <|> exactly "\r\n"

/-- Text without control characters, but for tabs. -/
def isText (c : Char) : Bool := c = '\t' || (0x20 ≤ c.toNat && c.toNat ≠ 0x7f)

def comment : Reader Unit := do
  exactly "#"
  let _ ← span isText

/-- Blanks, line ends and comments with their line ends. -/
def gap : Reader Unit := do
  let _ ← many ((do let _ ← char isBlank) <|> newline <|> (do comment; newline))

/-! ## Strings -/

def charOf? (point : Nat) : Option Char :=
  if h : point.isValidChar then some (Char.ofNatAux point h) else none

def hexDigits (count : Nat) : Reader (List Char) := fun text =>
  let digits := text.take count
  if digits.length = count ∧ digits.all isHexDigit then some (digits, text.drop count)
  else none

def codePoint (count : Nat) : Reader Char := do
  let digits ← hexDigits count
  match charOf? (numberInBase 16 digits) with
  | some c => return c
  | none => failure

def escape : Reader Char := do
  match ← char fun _ => true with
  | 'b' => return '\x08'
  | 't' => return '\t'
  | 'n' => return '\n'
  | 'f' => return '\x0c'
  | 'r' => return '\r'
  | '\x22' => return '\x22'
  | '\\' => return '\\'
  | 'u' => codePoint 4
  | 'U' => codePoint 8
  | _ => failure

def basicChar : Reader Char :=
  (do exactly "\\"; escape) <|> char fun c => isText c && c ≠ '\x22' && c ≠ '\\'

def basicString : Reader (List Char) := do
  exactly "\""
  let text ← many basicChar
  exactly "\""
  return text

def literalString : Reader (List Char) := do
  exactly "'"
  let text ← span fun c => isText c && c ≠ '\x27'
  exactly "'"
  return text

/-- A backslash at the end of a line, with the blanks and line ends after it. -/
def lineContinuation : Reader Unit := do
  exactly "\\"
  blanks
  newline
  let _ ← many ((do let _ ← char isBlank) <|> newline)

/-- A run of quotes that does not close the string, before something else of it. -/
def innerQuotes (quote : Char) : Reader (List Char) := do
  let run ← span1 (· = quote)
  if 2 < run.length then failure
  return run

/-- The rest of a string of several lines after its opening quotes. The closing quotes may follow
up to two more. -/
def multiline (quote : Char) (piece : Reader (List Char)) : Reader (List Char) := do
  let _ ← optional newline
  let pieces ← many (piece <|> innerQuotes quote)
  let closing ← span (· = quote)
  if closing.length < 3 || 5 < closing.length then failure
  return pieces.flatten ++ closing.drop 3

def basicPiece : Reader (List Char) :=
  (do lineContinuation; return []) <|> (do newline; return ['\n']) <|>
    (do return [← basicChar])

def literalPiece : Reader (List Char) :=
  (do newline; return ['\n']) <|> (do return [← char fun c => isText c && c ≠ '\x27'])

def string : Reader (List Char) :=
  (do exactly "\"\"\""; multiline '\x22' basicPiece) <|> basicString <|>
  (do exactly "'''"; multiline '\x27' literalPiece) <|> literalString

end Nodeless.Toml
