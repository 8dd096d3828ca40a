import Nodeless.Options.Basic
import Nodeless.Toml.Numbers
import Nodeless.Toml.Strings

/-!
# TOML values

Reads values of TOML 1.0. A date, an array or a table is checked, and nothing is kept of it: no
setting is one.
-/

namespace Nodeless.Toml

open Text Text.Reader

inductive Value
  | setting (value : Setting)
  /-- A date or time, an array, or a table. -/
  | other
  deriving DecidableEq, Repr

def number : Reader Value :=
  (do dateTime; return .other) <|>
  (do return .setting (.number (← float))) <|>
  (do return .setting (.number (.ofInt (← integer))))

/-! ## Values -/

def isKeyChar (c : Char) : Bool := c.isAlphanum || c = '_' || c = '-'

def keyPart : Reader String := do
  blanks
  let part ← basicString <|> literalString <|> span1 isKeyChar
  blanks
  return String.ofList part

/-- The nesting that is refused, of values and of the parts of a key. -/
def nestingLimit : Nat := 80

def key : Reader (List String) := do
  let parts ← separated (exactly ".") keyPart
  if nestingLimit ≤ parts.length then failure
  return parts

/-- The names of an inline table. A dotted name opens tables that other dotted names may add
to. -/
inductive Names
  | leaf
  | table (entries : List (String × Names))

namespace Names

/-- Adds a name below dotted ones, unless it is taken. -/
def insert? (names : List (String × Names)) : List String → Option (List (String × Names))
  | [] => none
  | [name] =>
    if names.any fun entry => entry.1 = name then none else some ((name, .leaf) :: names)
  | name :: path =>
    match names.lookup name with
    | some .leaf => none
    | some (.table inner) =>
      (insert? inner path).map fun inner =>
        (name, .table inner) :: names.filter fun entry => entry.1 ≠ name
    | none => (insert? [] path).map fun inner => (name, .table inner) :: names

end Names

def assignment {α : Type} (value : Reader α) : Reader (List String × α) := do
  let path ← key
  exactly "="
  blanks
  return (path, ← value)

def arrayOf (element : Reader Value) : Reader Value := do
  exactly "["
  let _ ← optional (do
    let _ ← separated (exactly ",") (do gap; let _ ← element; gap)
    optional (exactly ","))
  gap
  exactly "]"
  return .other

/-- An inline table stands on one line. Its keys are distinct. -/
def tableOf (element : Reader Value) : Reader Value := do
  exactly "\x7b"
  let paths ← optional (separated (exactly ",") (do
    let entry ← assignment element
    blanks
    return entry.1))
  blanks
  exactly "\x7d"
  match (paths.getD []).foldlM Names.insert? [] with
  | none => failure
  | some _ => return .other

/-- A value, where `nested` reads what an array or a table may hold, if they may hold any. -/
def valueWith (nested : Option (Reader Value)) : Reader Value := do
  match ← peek with
  | some '\x22' | some '\x27' => return .setting (.text (String.ofList (← string)))
  | some 't' => exactly "true"; return .setting (.boolean true)
  | some 'f' => exactly "false"; return .setting (.boolean false)
  | some '[' => nested.elim failure arrayOf
  | some '\x7b' => nested.elim failure tableOf
  | _ => number

/-- A value that nests as many arrays and tables as `depth` at most. -/
def valueAt : Nat → Reader Value
  | 0 => valueWith none
  | depth + 1 => valueWith (some (valueAt depth))

def value : Reader Value := valueAt (nestingLimit - 1)

end Nodeless.Toml
