import Nodeless.Path

/-!
# Build context

What all modules of a build share: the directory that paths are written relative to, and the module
that stands in for the environment's module object.
-/

namespace Nodeless

structure BuildContext where
  root : String
  moduleShim : String
  deriving DecidableEq, Repr

namespace BuildContext

/-- The shim of an installation that names no other. -/
def defaultShim : String := "/spacey/buildin/module.js"

def ofPaths (root shim : String) : BuildContext := ⟨Path.normalize root, Path.normalize shim⟩

end BuildContext

end Nodeless
