/-!
# File paths

Paths as the file system takes them: only `/` separates parts. Empty parts and single points say
nothing, and a step up is left to the file system.
-/

namespace Nodeless.FilePath

def splitSlashes : List Char → List (List Char)
  | [] => [[]]
  | c :: cs =>
    if c = '/' then [] :: splitSlashes cs
    else
      match splitSlashes cs with
      | [] => [[c]]
      | part :: parts => (c :: part) :: parts

/-- The parts of a path that say something. -/
def parts (path : String) : List String :=
  ((splitSlashes path.toList).filter fun part => part ≠ [] ∧ part ≠ ['.']).map String.ofList

def isAbsolute (path : String) : Bool := path.toList.head? = some '/'

def endsInSlash (path : String) : Bool := path.toList.getLast? = some '/'

/-- Whether a path can name a directory only. -/
def namesDirectory (path : String) : Bool :=
  match (splitSlashes path.toList).getLast? with
  | some part => part = [] || part = ['.']
  | none => true

def join (path part : String) : String :=
  if isAbsolute part then part
  else if path.isEmpty || endsInSlash path then path ++ part
  else path ++ "/" ++ part

/-- The path from the root, for a path taken from the directory `current`. Two leading slashes are
kept, and so is a slash at the end. -/
def absolute (current path : String) : String :=
  let chars := path.toList
  let start :=
    if !isAbsolute path then current
    else if ['/', '/'].isPrefixOf chars && chars[2]? ≠ some '/' then "//"
    else "/"
  let path' := (parts path).foldl join start
  if endsInSlash path then join path' "" else path'

/-- Drops slashes and single points from the end of a path that they say nothing at, the path given
from its end. -/
def trimEnd : List Char → List Char
  | '/' :: '.' :: '/' :: rest => trimEnd ('/' :: rest)
  | ['/'] => ['/']
  | '/' :: rest => trimEnd rest
  | '.' :: '/' :: rest => trimEnd ('/' :: rest)
  | rest => rest

def parent? (path : String) : Option String :=
  match trimEnd path.toList.reverse with
  | [] | ['/'] => none
  | reversed => some (String.ofList (trimEnd (reversed.dropWhile (· ≠ '/'))).reverse)

/-- What follows the last point of the file's name, unless the name starts with it. -/
def extension? (path : String) : Option String :=
  match (parts path).getLast? with
  | none => none
  | some name =>
    let reversed := name.toList.reverse
    match reversed.dropWhile (· ≠ '.') with
    | [] | ['.'] => none
    | _ =>
      if name = ".." then none
      else some (String.ofList (reversed.takeWhile (· ≠ '.')).reverse)

end Nodeless.FilePath
