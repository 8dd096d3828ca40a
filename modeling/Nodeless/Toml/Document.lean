import Nodeless.Toml.Value

/-!
# TOML documents

A document is a list of statements: headers, which open tables, and assignments in the table opened
last. Each table is opened once. A table that a dotted key has opened takes no header, and one that
a header has opened takes no dotted key.
-/

namespace Nodeless.Toml

open Text Text.Reader

/-! ## Statements -/

inductive Statement
  | table (path : List String)
  /-- A new table at the end of an array of tables. -/
  | arrayTable (path : List String)
  | assign (path : List String) (value : Value)
  deriving DecidableEq, Repr

def lineEnd : Reader Unit := newline <|> atEnd

def trailing : Reader Unit := do
  blanks
  let _ ← optional comment
  lineEnd

def header : Reader Statement :=
  (do
    exactly "[["
    let path ← key
    exactly "]]"
    return .arrayTable path) <|>
  (do
    exactly "["
    let path ← key
    exactly "]"
    return .table path)

def statement : Reader Statement := do
  let statement ← header <|> (do
    let entry ← assignment value
    return .assign entry.1 entry.2)
  trailing
  return statement

def line : Reader (Option Statement) := do
  blanks
  (do newline; return none) <|> (do comment; lineEnd; return none) <|> some <$> statement

/-- The statements of a text, which a byte order mark may stand before. -/
def statements? (text : List Char) : Option (List Statement) :=
  let text := if text.head? = some '\ufeff' then text.tail else text
  let document := do
    let lines ← many line
    blanks
    atEnd
    return lines.reduceOption
  (run document text).map (·.1)

/-! ## Tables -/

inductive Opening
  | header
  /-- By the header of a table inside it. -/
  | innerHeader
  | dottedKey
  deriving DecidableEq, Repr

inductive Item
  | value (value : Value)
  | table (opening : Opening) (entries : List (String × Item))
  /-- An array of tables, as the entries of the last of them. -/
  | tables (last : List (String × Item))

abbrev Entries := List (String × Item)

namespace Entries

def set (entries : Entries) (name : String) (item : Item) : Entries :=
  (name, item) :: entries.filter fun entry => entry.1 ≠ name

/-- Changes the table at a path below the table. Tables on the way that are missing are opened as
`opening` says. A dotted key goes through no table that a header has opened. -/
def update? (entries : Entries) (opening : Opening) (change : Opening → Entries → Option Entries)
    (current : Opening) : List String → Option Entries
  | [] => change current entries
  | name :: path =>
    let enter (inner : Entries) (how : Opening) : Option Entries :=
      update? inner opening change how path
    match entries.lookup name with
    | none => (enter [] opening).map fun inner => entries.set name (.table opening inner)
    | some (.value _) => none
    | some (.tables last) =>
      (enter last .header).map fun last => entries.set name (.tables last)
    | some (.table how inner) =>
      if opening = .dottedKey ∧ how = .header then none
      else (enter inner how).map fun inner => entries.set name (.table how inner)

def splitLast? (path : List String) : Option (List String × String) :=
  path.getLast?.map fun name => (path.dropLast, name)

/-- Opens the table of a header, once. -/
def openTable? (entries : Entries) (path : List String) : Option Entries := do
  let (above, name) ← splitLast? path
  entries.update? .innerHeader (fun _ entries =>
    match entries.lookup name with
    | none => some (entries.set name (.table .header []))
    | some (.table .innerHeader inner) => some (entries.set name (.table .header inner))
    | some _ => none) .header above

def openArrayTable? (entries : Entries) (path : List String) : Option Entries := do
  let (above, name) ← splitLast? path
  entries.update? .innerHeader (fun _ entries =>
    match entries.lookup name with
    | none | some (.tables _) => some (entries.set name (.tables []))
    | some _ => none) .header above

/-- Gives a new key its value, in the table of the last header. -/
def assign? (entries : Entries) (table path : List String) (value : Value) : Option Entries := do
  let (above, name) ← splitLast? path
  entries.update? .innerHeader (fun opened entries =>
    entries.update? .dottedKey (fun how entries =>
      if decide (how = .dottedKey) == above.isEmpty then none
      else if (entries.lookup name).isSome then none
      else some (entries.set name (.value value))) opened above) .header table

end Entries

/-- The entries of the document made of the statements, in the table that `table` names. -/
def entriesOf? (entries : Entries) (table : List String) : List Statement → Option Entries
  | [] => some entries
  | .table path :: statements => do entriesOf? (← entries.openTable? path) path statements
  | .arrayTable path :: statements => do
    entriesOf? (← entries.openArrayTable? path) path statements
  | .assign path value :: statements => do
    entriesOf? (← entries.assign? table path value) table statements

def entries? (text : List Char) : Option Entries := do
  entriesOf? [] [] (← statements? text)

end Nodeless.Toml
