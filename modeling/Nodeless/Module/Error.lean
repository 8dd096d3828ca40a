import Nodeless.Event.OfTokens

/-!
# Errors

Why a module cannot be built, or options cannot be read.
-/

namespace Nodeless

/-- What a dependency stands for. All are constants: text known while the module is built. -/
inductive DependencyKind
  | const
  deriving DecidableEq, Repr

namespace DependencyKind

def all : List DependencyKind := [const]

def name : DependencyKind → String
  | const => "Const"

end DependencyKind

inductive BuildError
  /-- Two replacements claim the same bytes of a module. -/
  | rangeConflict (module : String) (first second : Span)
  | source (error : SyntaxError)
  | missingTemplate (kind : DependencyKind)
  | missingFactory (kind : DependencyKind)
  | config (text : String)
  | unsupportedConfigFile (path : String)
  | unreadableFile
  | malformedJson
  | malformedToml
  deriving DecidableEq, Repr

namespace BuildError

def message : BuildError → String
  | rangeConflict module first second =>
    s!"Conflicting replacements in module '{module}': {first.render} overlaps {second.render}"
  | source error => error.render
  | missingTemplate kind => s!"No dependency template registered for {kind.name} dependencies"
  | missingFactory kind => s!"No module factory registered for {kind.name} dependencies"
  | config text => "Configuration error: " ++ text
  | unsupportedConfigFile path => "Unsupported configuration file: " ++ path
  | unreadableFile => "File system error"
  | malformedJson => "JSON parse error"
  | malformedToml => "TOML parse error"

/-- Whether the error is about one module, and not about the set-up of the build. -/
def isFatalToModule : BuildError → Bool
  | rangeConflict _ _ _ | source _ | missingTemplate _ | missingFactory _ => true
  | _ => false

end BuildError

end Nodeless
