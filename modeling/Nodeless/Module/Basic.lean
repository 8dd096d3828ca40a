import Nodeless.Module.Bindings
import Nodeless.Module.Error
import Nodeless.Path

/-!
# Modules

A module is known by its resource: a path, and after a question mark a query. The rest of it is the
outcome of its last build.
-/

namespace Nodeless

/-- A span of the source that a text takes the place of. -/
structure Dependency where
  kind : DependencyKind := .const
  span : Span
  text : String
  location : Option Location
  deriving DecidableEq, Repr

inductive WarningKind
  | unsupportedFeature
  deriving DecidableEq, Repr

structure Warning where
  module : String
  kind : WarningKind := .unsupportedFeature
  message : String
  location : Option Location
  deriving DecidableEq, Repr

def Warning.render (w : Warning) : String :=
  w.module ++ (w.location.elim "" fun l => " " ++ l.render) ++ "\n" ++ w.message

/-- The path of a resource and its query, which starts at the first question mark. -/
def splitQuery (resource : String) : String × Option String :=
  let path := resource.toList.takeWhile (· ≠ '?')
  let query := resource.toList.dropWhile (· ≠ '?')
  (String.ofList path, if query.isEmpty then none else some (String.ofList query))

structure Module where
  resource : String
  /-- The directory of the module, if it has one. -/
  context : Option String
  dependencies : List Dependency := []
  bindings : Bindings := {}
  warnings : List Warning := []
  deriving DecidableEq, Repr

namespace Module

/-- A module that is not built yet, in the directory of its path. -/
def ofResource (resource : String) : Module :=
  { resource, context := some (Path.dirname (splitQuery resource).1) }

def identifier (m : Module) : String := m.resource

def path (m : Module) : String := (splitQuery m.resource).1

/-- The first of the dependencies that claims bytes of the span, or the very same place. -/
def conflict? (dependencies : List Dependency) (span : Span) : Option Dependency :=
  dependencies.find? fun d => d.span.overlaps span || d.span = span

def addDependency (m : Module) (d : Dependency) : Except BuildError Module :=
  match conflict? m.dependencies d.span with
  | some taken => .error (.rangeConflict m.resource taken.span d.span)
  | none => .ok { m with dependencies := m.dependencies ++ [d] }

def warn (m : Module) (w : Warning) : Module := { m with warnings := m.warnings ++ [w] }

def reset (m : Module) : Module := { resource := m.resource, context := m.context }

/-- Drops what a failed build has left. Its warnings stay. -/
def discard (m : Module) : Module := { m with dependencies := [], bindings := {} }

end Module

end Nodeless
