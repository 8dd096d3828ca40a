import Nodeless.Command.Report
import Nodeless.Command.Request
import Nodeless.Environment
import Nodeless.Options.Read

/-!
# Plans

What a request comes to: the actions to take, in order, and the exit code. All files are read and
all modules built before the first action is taken, so a request with a file that cannot be read
does nothing.
-/

namespace Nodeless

inductive Action
  /-- Writes to standard output. -/
  | print (text : String)
  /-- Writes to standard error. -/
  | report (text : String)
  /-- Writes a file. -/
  | save (target text : String)
  deriving DecidableEq, Repr

structure Plan where
  actions : List Action
  exitCode : UInt32
  deriving DecidableEq, Repr

/-- Why a run is given up as a whole. -/
inductive RunError
  | options (path : String)
  | read (path : String)
  | makeDirectory (path : String)
  | write (path : String)
  deriving DecidableEq, Repr

def RunError.message : RunError → String
  | options path => "Failed to load options from " ++ path
  | read path => "Failed to read " ++ path
  | makeDirectory path => "Failed to create " ++ path
  | write path => "Failed to write " ++ path

structure Stop where
  error : RunError
  cause : String
  deriving DecidableEq, Repr

def Stop.render (stop : Stop) : String :=
  "Error: " ++ stop.error.message ++ "\n\nCaused by:\n    " ++ stop.cause ++ "\n"

structure Outcome where
  module : Module
  code : Except BuildError String

def Compiler.pack (c : Compiler) (m : Module) (source : String) : Outcome :=
  let (result, m) := c.buildModule m source
  ⟨m, result.bind fun () => c.renderModule m source⟩

def Outcome.failed (o : Outcome) : Bool := !o.code.isOk

/-- A text read from a path, or the message of why it cannot be read. -/
abbrev Reading := String → Except String String

namespace Request

/-! ## Input -/

def inputs (r : Request) : List String := r.config.toList ++ r.files

/-- The options of the file, if one is named, and those given one by one instead of them. -/
def options (r : Request) (read : Reading) : Except Stop Options := do
  let options ←
    match r.config with
    | none => pure {}
    | some path =>
      let text := read path
      match Options.ofFile path text.toOption with
      | .ok options => pure options
      | .error error =>
        throw ⟨.options path, match error, text with
          | .unreadableFile, .error cause => cause
          | error, _ => error.message⟩
  return {
    filename := r.filename.elim options.filename fun text => .ofSetting (.ofText text)
    dirname := r.dirname.elim options.dirname fun text => .ofSetting (.ofText text) }

def absolute (current path : String) : String := Path.toSlash (FilePath.absolute current path)

/-- What all modules of a request share. `installed` is the shim where the request names none. -/
def buildContext (r : Request) (installed current : String) : BuildContext :=
  BuildContext.ofPaths (absolute current (r.context.getD ".")) (r.moduleShim.elim installed (absolute current))

def compiler (r : Request) (installed current : String) (options : Options) : Compiler :=
  Environment.apply options { build := r.buildContext installed current }

def modules (r : Request) (current : String) (read : Reading) : Except Stop (List (Module × String)) :=
  r.files.mapM fun file =>
    match read file with
    | .ok source => .ok (Module.ofResource (absolute current file), source)
    | .error cause => .error ⟨.read file, cause⟩

/-! ## Output -/

/-- Whether a path relative to the root is taken to lead out of it. -/
def leadsOut (relative : String) : Bool :=
  ['.', '.'].isPrefixOf relative.toList || Path.isAbsolute relative

/-- Where the code of the module at `path` is written below `outDir`: at the same place as the
module has below the root. Of a path that leads out of the root the last part alone is kept. -/
def target (outDir root path : String) : String :=
  let relative := Path.relative root path
  let parts := (FilePath.splitSlashes relative.toList).map String.ofList
  if leadsOut relative then FilePath.join outDir (parts.getLastD "")
  else parts.foldl FilePath.join outDir

def emit (r : Request) (root : String) (m : Module) (code : String) : Action :=
  match r.outDir with
  | none => .print ("// " ++ m.identifier ++ "\n" ++ code ++ "\n")
  | some outDir => .save (target outDir root m.path) code

def actions (r : Request) (root : String) (o : Outcome) : List Action :=
  o.module.warnings.map (fun w => .report (Report.warning w)) ++
    [match o.code with
      | .ok code => r.emit root o.module code
      | .error error => .report (Report.failure o.module error)]

def planOf (r : Request) (root : String) (outcomes : List Outcome) : Plan :=
  let failed := outcomes.countP Outcome.failed
  { actions := outcomes.flatMap (r.actions root) ++
      (if failed = 0 then [] else [.report (Report.summary failed outcomes.length)])
    exitCode := if failed = 0 then 0 else 1 }

def plan (r : Request) (installed current : String) (read : Reading) : Except Stop Plan := do
  let options ← r.options read
  let c := r.compiler installed current options
  let modules ← r.modules current read
  return r.planOf c.build.root (modules.map fun entry => c.pack entry.1 entry.2)

end Request

end Nodeless
