import Nodeless.Build.Context
import Nodeless.Module.Basic
import Nodeless.Scope

/-!
# Hooks

A hook looks at a chain found in a module. It sees where it is called, and can change the draft: the
outcome of the parse so far. It cannot change the build or what the module is known by.
-/

namespace Nodeless

/-- What a hook sees and cannot change. Outside a module there is none. -/
structure Site where
  build : BuildContext
  /-- The module as it was when the parse began. -/
  module : Option Module
  deriving DecidableEq, Repr

structure Draft where
  scope : Scope := {}
  bindings : Bindings := {}
  dependencies : List Dependency := []
  warnings : List Warning := []
  deriving DecidableEq, Repr

/-- The draft that a parse begins with: what the module held before it. -/
def Site.draft (site : Site) : Draft :=
  { dependencies := site.module.elim [] Module.dependencies
    warnings := site.module.elim [] Module.warnings }

namespace Draft

def record (draft : Draft) (m : Module) : Module :=
  { m with dependencies := draft.dependencies, warnings := draft.warnings }

/-- The module with all that the draft holds, its bindings too. -/
def finish (draft : Draft) (m : Module) : Module :=
  { draft.record m with bindings := draft.bindings }

end Draft

inductive Flow
  | handled
  | declined
  deriving DecidableEq, Repr

/-- An action at a site. What it has put into the draft stays there when it fails. -/
abbrev Hook (α : Type) := ReaderT Site (ExceptT BuildError (StateM Draft)) α

namespace Hook

def run {α : Type} (hook : Hook α) (site : Site) (draft : Draft) : Except BuildError α × Draft :=
  (ReaderT.run hook site).run draft

/-- Puts a text in place of a span. Declined outside a module. -/
def replace (text : String) (span : Span) (location : Option Location) : Hook Flow := do
  match (← read).module with
  | none => return .declined
  | some m =>
    match Module.conflict? (← get).dependencies span with
    | some taken => throw (.rangeConflict m.resource taken.span span)
    | none =>
      modify fun draft =>
        { draft with dependencies := draft.dependencies ++ [{ span, text, location }] }
      return .handled

/-- Warns of a feature that is not supported. Nothing outside a module. -/
def warn (message : String) (location : Option Location) : Hook Unit := do
  if let some m := (← read).module then
    modify fun draft =>
      { draft with warnings := draft.warnings ++ [{ module := m.identifier, message, location }] }

def bindName (name text : String) : Hook Unit :=
  modify fun draft => { draft with bindings := draft.bindings.insert name text }

end Hook

end Nodeless
