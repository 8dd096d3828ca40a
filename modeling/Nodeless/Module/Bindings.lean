/-!
# Bindings

Names bound to source text, one text a name, in the order of the names.
-/

namespace Nodeless

structure Bindings where
  entries : List (String × String) := []
  deriving DecidableEq, Repr

namespace Bindings

def empty : Bindings := {}

def isEmpty (bindings : Bindings) : Bool := bindings.entries.isEmpty

def insertEntry (name text : String) : List (String × String) → List (String × String)
  | [] => [(name, text)]
  | entry :: entries =>
    if name < entry.1 then (name, text) :: entry :: entries
    else if name = entry.1 then (name, text) :: entries
    else entry :: insertEntry name text entries

/-- Binds a name. The text that it was bound to is gone. -/
def insert (bindings : Bindings) (name text : String) : Bindings :=
  ⟨insertEntry name text bindings.entries⟩

def get? (bindings : Bindings) (name : String) : Option String := bindings.entries.lookup name

def names (bindings : Bindings) : List String := bindings.entries.map (·.1)

def texts (bindings : Bindings) : List String := bindings.entries.map (·.2)

end Bindings

end Nodeless
