import Nodeless.Command.Host

/-!
# The program

Runs a command line on the files of the machine.
-/

namespace Nodeless

def attempt {α : Type} (action : IO α) : IO (Except String α) := do
  try
    return .ok (← action)
  catch error =>
    return .error (toString error)

def machine : Host IO where
  moduleShim := BuildContext.defaultShim
  read path := attempt (IO.FS.readFile path)
  print text := IO.print text
  report text := IO.eprint text
  makeDirectories path := attempt (unless path.isEmpty do IO.FS.createDirAll path)
  write path text := attempt (IO.FS.writeFile path text)

end Nodeless

def main (words : List String) : IO UInt32 := do
  let current ← IO.currentDir
  Nodeless.machine.run current.toString words
