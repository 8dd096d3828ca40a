import Nodeless.Build.Parse
import Nodeless.Module.Patch

/-!
# Compiler

Builds modules and writes their code. A compiler is set up once, and every build reads it only.
-/

namespace Nodeless

/-- Makes the module that a dependency brings in, if it brings one in. -/
abbrev Factory := Dependency → Except BuildError (Option Module)

abbrev Template := Dependency → List Patch

def Factory.null : Factory := fun _ => .ok none

def Template.const : Template := fun d => [⟨d.span, d.text⟩]

/-- What is registered for each kind of dependency. -/
structure Compilation where
  factories : DependencyKind → Option Factory := fun _ => none
  templates : DependencyKind → Option Template := fun _ => none

namespace Compilation

def setFactory (c : Compilation) (kind : DependencyKind) (factory : Factory) : Compilation :=
  { c with factories := fun k => if k = kind then some factory else c.factories k }

def setTemplate (c : Compilation) (kind : DependencyKind) (template : Template) : Compilation :=
  { c with templates := fun k => if k = kind then some template else c.templates k }

/-- The kinds that have a factory, and those that have a template. -/
def render (c : Compilation) : String :=
  let names (has : DependencyKind → Bool) : String :=
    "[" ++ ", ".intercalate ((DependencyKind.all.filter has).map DependencyKind.name) ++ "]"
  "Compilation \x7b factories: " ++ names (fun k => (c.factories k).isSome) ++
    ", templates: " ++ names (fun k => (c.templates k).isSome) ++ " \x7d"

def resolve (c : Compilation) : List Dependency → Except BuildError Unit
  | [] => .ok ()
  | d :: ds =>
    match c.factories d.kind with
    | none => .error (.missingFactory d.kind)
    | some factory =>
      match factory d with
      | .error e => .error e
      | .ok _ => c.resolve ds

def patches (c : Compilation) : List Dependency → Except BuildError (List Patch)
  | [] => .ok []
  | d :: ds =>
    match c.templates d.kind with
    | none => .error (.missingTemplate d.kind)
    | some template => (c.patches ds).map fun patches => template d ++ patches

/-- A first line that starts with `#!`, with its line feed, and the rest of the text. -/
def splitHashbang (text : List Char) : List Char × List Char :=
  if ['#', '!'].isPrefixOf text then
    match text.dropWhile (· ≠ '\n') with
    | [] => (text, [])
    | feed :: rest => (text.takeWhile (· ≠ '\n') ++ [feed], rest)
  else ([], text)

def wrap (bindings : Bindings) (text : String) : String :=
  if bindings.isEmpty then text
  else
    let (hashbang, body) := splitHashbang text.toList
    String.ofList hashbang ++ "(function(" ++ ", ".intercalate bindings.names ++ ") \x7b\n" ++
      String.ofList body ++ "\n\x7d.call(this, " ++ ", ".intercalate bindings.texts ++ "))"

end Compilation

structure Compiler where
  build : BuildContext
  recognizer : Recognizer := {}
  compilation : Compilation := {}

namespace Compiler

/-- Builds a module from its source. A failed build leaves neither dependencies nor bindings. -/
def buildModule (c : Compiler) (m : Module) (source : String) : Except BuildError Unit × Module :=
  let m := m.reset
  let site : Site := ⟨c.build, some m⟩
  let parsed := (c.recognizer.parse source).run site site.draft
  match parsed.1 with
  | .error e => (.error e, (parsed.2.record m).discard)
  | .ok () =>
    let m := parsed.2.finish m
    match c.compilation.resolve m.dependencies with
    | .error e => (.error e, m.discard)
    | .ok () => (.ok (), m)

def buildModules (c : Compiler) (modules : List (Module × String)) :
    List (Except BuildError Unit × Module) :=
  modules.map fun entry => c.buildModule entry.1 entry.2

/-- The code of a module: its source with its dependencies in place and its bindings around it. -/
def renderModule (c : Compiler) (m : Module) (source : String) : Except BuildError String :=
  (c.compilation.patches m.dependencies).map fun patches =>
    Compilation.wrap m.bindings (Patch.render source patches)

def evaluate (c : Compiler) (m : Option Module) (source : String) :
    Except BuildError (List Evaluation) :=
  match Event.ofSource source with
  | .error e => .error (.source e)
  | .ok events =>
    let site : Site := ⟨c.build, m⟩
    .ok (c.recognizer.evaluateEvents site site.draft events)

end Compiler

end Nodeless
