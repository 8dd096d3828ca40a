import Nodeless.Number.Shortest
import Nodeless.Text.Quoted

/-!
# Literals

Values known while a module is built, and the source text that stands for them.
-/

namespace Nodeless

inductive Literal
  | text (value : String)
  | boolean (value : Bool)
  | number (value : Binary64)
  deriving DecidableEq, Repr

def Literal.source : Literal → String
  | text value => Text.quote value
  | boolean value => if value then "true" else "false"
  | number value => value.render

end Nodeless
