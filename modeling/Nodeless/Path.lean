/-!
# Paths

Arithmetic on the text of paths. Either slash separates parts, and every result is written with
`/`, so that results do not depend on the machine. Nothing here looks at a file system.
-/

namespace Nodeless.Path

abbrev Part := List Char

/-! ## Roots -/

inductive Root
  | none
  | slash
  | drive (letter : Char)
  deriving DecidableEq, Repr

namespace Root

def chars : Root → List Char
  | none => []
  | slash => ['/']
  | drive letter => [letter, ':', '/']

/-- Drive letters agree in either case. -/
def same : Root → Root → Bool
  | drive a, drive b => a.toLower = b.toLower
  | a, b => a = b

end Root

def isSeparator (c : Char) : Bool := c = '/' || c = '\\'

def splitRoot : List Char → Root × List Char
  | c :: cs =>
    if c.isAlpha && cs.head? = some ':' then (.drive c, cs.tail)
    else if isSeparator c then (.slash, c :: cs)
    else (.none, c :: cs)
  | [] => (.none, [])

def rooted (path : List Char) : Bool := (splitRoot path).1 ≠ .none

/-! ## Parts -/

def up : Part := ['.', '.']

def splitParts : List Char → List Part
  | [] => [[]]
  | c :: cs =>
    if isSeparator c then [] :: splitParts cs
    else
      match splitParts cs with
      | [] => [[c]]
      | part :: parts => (c :: part) :: parts

/-- Puts a part on a stack, the top of which is the first of the list. Steps up cancel the part
below them. Those that nothing cancels stay, unless the path has nothing above it. -/
def push (topmost : Bool) (stack : List Part) (part : Part) : List Part :=
  if part = [] ∨ part = ['.'] then stack
  else if part = up then
    match stack with
    | [] => if topmost then [] else [up]
    | top :: rest =>
      if top ≠ up then rest
      else if topmost then top :: rest else up :: top :: rest
  else part :: stack

/-- The parts of the text after a root. The text is taken on its own: it has nothing above it only
where it is rooted itself. -/
def parts (rest : List Char) : List Part :=
  ((splitParts rest).foldl (push (rooted rest)) []).reverse

def joinParts (parts : List Part) : List Char := ['/'].intercalate parts

def normalizeChars (path : List Char) : List Char :=
  let (root, rest) := splitRoot path
  let parts := parts rest
  if root = .none ∧ parts = [] then ['.'] else root.chars ++ joinParts parts

def dropCommon : List Part → List Part → List Part × List Part
  | a :: as, b :: bs => if a = b then dropCommon as bs else (a :: as, b :: bs)
  | as, bs => (as, bs)

def beforeLastSlash? (path : List Char) : Option (List Char) :=
  match path.reverse.dropWhile fun c => c ≠ '/' with
  | [] => none
  | _ :: before => some before.reverse

/-! ## Operations -/

def toSlash (path : String) : String := path.map fun c => if c = '\\' then '/' else c

def isDriveAbsolute (path : String) : Bool :=
  match (splitRoot path.toList).1 with
  | .drive _ => true
  | _ => false

def isAbsolute (path : String) : Bool := rooted path.toList

def normalize (path : String) : String := String.ofList (normalizeChars path.toList)

/-- The paths one below the other, from the last absolute one on. -/
def join (paths : List String) : String :=
  normalize (paths.foldl (fun joined path =>
    if isAbsolute path || joined.isEmpty then path
    else if path.isEmpty then joined
    else joined ++ "/" ++ path) "")

/-- The directory that holds a path. A root holds itself. -/
def dirname (path : String) : String :=
  let path := normalizeChars path.toList
  match beforeLastSlash? path with
  | none => "."
  | some before =>
    let root := (splitRoot path).1.chars
    String.ofList (if before.length < root.length then root else before)

/-- The path from the directory `source` to `target`. Between two roots there is none, and the
target is given from its root. -/
def relative (source target : String) : String :=
  let (sourceRoot, sourceRest) := splitRoot source.toList
  let (targetRoot, targetRest) := splitRoot target.toList
  if sourceRoot.same targetRoot then
    let (above, below) := dropCommon (parts sourceRest) (parts targetRest)
    String.ofList (joinParts (above.map (fun _ => up) ++ below))
  else normalize target

end Nodeless.Path
