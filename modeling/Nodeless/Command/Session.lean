import Nodeless.Command.Host
import Nodeless.FileTree

/-!
# Sessions

A host held in memory: a file tree, and what has been written to the outputs.
-/

namespace Nodeless

structure Session where
  tree : FileTree := {}
  output : String := ""
  reports : String := ""
  deriving DecidableEq, Repr

namespace Session

/-- The result of an operation on the tree, and the session with the tree after it. -/
def withTree (session : Session) : Except FileError FileTree → Except String Unit × Session
  | .ok tree => (.ok (), { session with tree })
  | .error error => (.error error.message, session)

def host (installed current : String) : Host (StateM Session) where
  moduleShim := installed
  read path := do
    match (← get).tree.read (FilePath.join current path) with
    | .ok text => return .ok text
    | .error error => return .error error.message
  print text := modify fun session => { session with output := session.output ++ text }
  report text := modify fun session => { session with reports := session.reports ++ text }
  makeDirectories path := modifyGet fun session =>
    session.withTree (session.tree.makeDirectories (FilePath.join current path))
  write path text := modifyGet fun session =>
    session.withTree (session.tree.write (FilePath.join current path) text)

def run (session : Session) (current : String) (words : List String)
    (installed : String := BuildContext.defaultShim) : UInt32 × Session :=
  ((host installed current).run current words).run session

end Session

end Nodeless
