/-!
# Scope

The names that a source has declared so far, as one list with the depth of the scope that holds
each. A declared name hides the environment's name of the same spelling for as long as its scope is
open.
-/

namespace Nodeless

structure Local where
  name : String
  depth : Nat
  deriving DecidableEq, Repr

structure Scope where
  /-- In order of declaration. -/
  locals : List Local := []
  /-- The number of open scopes. -/
  depth : Nat := 0
  /-- The depths of the open function scopes, the innermost first. -/
  functionDepths : List Nat := []
  deriving DecidableEq, Repr

namespace Scope

def begin (scope : Scope) : Scope := { scope with depth := scope.depth + 1 }

def beginFunction (scope : Scope) : Scope :=
  { scope with
    depth := scope.depth + 1
    functionDepths := (scope.depth + 1) :: scope.functionDepths }

/-- Closes the innermost scope and drops its names. Outside every scope the names of the module
itself are dropped, and the module stays. -/
def close (scope : Scope) : Scope :=
  { locals := scope.locals.filter fun l => l.depth < scope.depth
    depth := scope.depth - 1
    functionDepths :=
      if scope.functionDepths.head? = some scope.depth then scope.functionDepths.tail
      else scope.functionDepths }

def dropped (scope : Scope) : Nat := scope.locals.length - scope.close.locals.length

def declare (scope : Scope) (name : String) : Scope :=
  { scope with locals := scope.locals ++ [⟨name, scope.depth⟩] }

/-- Declares a name in the innermost function scope, or in the module outside functions. -/
def declareVar (scope : Scope) (name : String) : Scope :=
  { scope with locals := scope.locals ++ [⟨name, scope.functionDepths.headD 0⟩] }

def resolve (scope : Scope) (name : String) : Option Nat :=
  (scope.locals.reverse.findIdx? fun l => l.name = name).map fun i => scope.locals.length - 1 - i

def isLocal (scope : Scope) (name : String) : Bool := (scope.resolve name).isSome

theorem isLocal_iff (scope : Scope) (name : String) :
    scope.isLocal name = true ↔ ∃ l ∈ scope.locals, l.name = name := by
  simp [isLocal, resolve, List.findIdx?_isSome]

end Scope

end Nodeless
