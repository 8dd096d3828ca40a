import Nodeless.FilePath

/-!
# File trees

A file system held in memory: files with their texts, and directories. The root is always a
directory.
-/

namespace Nodeless

inductive FileError
  | notFound
  | alreadyExists
  | notADirectory
  | isADirectory
  deriving DecidableEq, Repr

def FileError.message : FileError → String
  | notFound => "No such file or directory (os error 2)"
  | alreadyExists => "File exists (os error 17)"
  | notADirectory => "Not a directory (os error 20)"
  | isADirectory => "Is a directory (os error 21)"

abbrev Place := List String

inductive Node
  | file (text : String)
  | directory
  deriving DecidableEq, Repr

/-- All but the root, each place once. -/
structure FileTree where
  nodes : List (Place × Node) := []
  deriving DecidableEq, Repr

namespace FileTree

/-! ## Places -/

def node? (tree : FileTree) (place : Place) : Option Node :=
  if place = [] then some .directory else tree.nodes.lookup place

def insertNode (place : Place) (node : Node) : List (Place × Node) → List (Place × Node)
  | [] => [(place, node)]
  | entry :: entries =>
    if entry.1 = place then (place, node) :: entries else entry :: insertNode place node entries

def insert (tree : FileTree) (place : Place) (node : Node) : FileTree :=
  ⟨insertNode place node tree.nodes⟩

def files (tree : FileTree) : List (Place × String) :=
  tree.nodes.filterMap fun entry =>
    match entry.2 with
    | .file text => some (entry.1, text)
    | .directory => none

/-- One step from a place, which has to be a directory. -/
def step (tree : FileTree) (place : Place) (part : String) : Except FileError Place :=
  match tree.node? place with
  | none => .error .notFound
  | some (.file _) => .error .notADirectory
  | some .directory => .ok (if part = ".." then place.dropLast else place ++ [part])

/-- Where parts lead from the root. Only the last place may be missing. -/
def resolve (tree : FileTree) (parts : List String) : Except FileError Place :=
  parts.foldlM tree.step []

/-! ## Operations on absolute paths -/

def read (tree : FileTree) (path : String) : Except FileError String := do
  let place ← tree.resolve (FilePath.parts path)
  match tree.node? place with
  | none => .error .notFound
  | some .directory => .error .isADirectory
  | some (.file text) => if FilePath.namesDirectory path then .error .notADirectory else .ok text

def write (tree : FileTree) (path text : String) : Except FileError FileTree := do
  if FilePath.namesDirectory path then throw .isADirectory
  let place ← tree.resolve (FilePath.parts path)
  if tree.node? place = some .directory then throw .isADirectory
  return tree.insert place (.file text)

def makeDirectory (tree : FileTree) (parts : List String) : Except FileError FileTree := do
  let place ← tree.resolve parts
  if (tree.node? place).isSome then throw .alreadyExists
  return tree.insert place .directory

def isDirectory (tree : FileTree) (parts : List String) : Bool :=
  match tree.resolve parts with
  | .ok place => tree.node? place = some .directory
  | .error _ => false

def ensureDirectory (tree : FileTree) (parts : List String) : Except FileError FileTree :=
  match tree.makeDirectory parts with
  | .ok tree => .ok tree
  | .error error => if tree.isDirectory parts then .ok tree else .error error

/-- Makes a directory and those above it that are missing, the parts given from the last. -/
def makeReversed (tree : FileTree) : List String → Except FileError FileTree
  | [] => .ok tree
  | part :: above =>
    match tree.ensureDirectory (part :: above).reverse with
    | .error .notFound =>
      (tree.makeReversed above).bind fun tree => tree.ensureDirectory (part :: above).reverse
    | result => result

def makeDirectories (tree : FileTree) (path : String) : Except FileError FileTree :=
  tree.makeReversed (FilePath.parts path).reverse

def save (tree : FileTree) (path text : String) : Except FileError FileTree := do
  (← tree.makeDirectories ((FilePath.parent? path).getD "")).write path text

/-- The files that `before` does not hold with the same text. -/
def changes (before after : FileTree) : List (Place × String) :=
  after.files.filter fun entry => before.node? entry.1 ≠ some (.file entry.2)

end FileTree

end Nodeless
