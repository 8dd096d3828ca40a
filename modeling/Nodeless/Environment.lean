import Nodeless.Build.Compiler
import Nodeless.Options.Basic

/-!
# The Node environment

Rewrites what a module takes from its environment, so that the bundle runs without one:

* `__filename` and `__dirname` are bound as the options say;
* `require.main` becomes the entry module;
* `require.extensions` becomes nothing, with a warning;
* `module` is bound to a shim, unless a member of it is read that the bundle provides;
* `module.hot` is known to be false.
-/

namespace Nodeless.Environment

def mockFilename : String := "/index.js"

def mockDirname : String := "/"

def entryModule : String := "__spacey_require__.c[0]"

/-- An expression without a value. -/
def neutral : String := "(void 0)"

def extensionsWarning : String :=
  "require.extensions is not supported by spacey. Use a loader instead."

/-! ## Values -/

/-- What a module in the directory `context` asks for to get the shim. -/
def shimRequest (shim : String) (context : Option String) : String :=
  match context with
  | none => Path.toSlash shim
  | some context =>
    let relative := Path.relative context shim
    if Path.isDriveAbsolute relative then relative else "./" ++ relative

def shimCall (build : BuildContext) (m : Module) : String :=
  let request := Literal.text (shimRequest build.moduleShim m.context)
  "require(" ++ request.source ++ ")(module)"

def relativeFilename (build : BuildContext) (m : Module) : Literal :=
  .text (Path.relative build.root m.path)

def relativeDirname (build : BuildContext) (m : Module) : Option Literal :=
  m.context.map fun context => .text (Path.relative build.root context)

/-- Joins the directory that the bundle runs in with the relative path. A module that has none
keeps its own name. -/
def absoluteDirname (build : BuildContext) (m : Module) : Option String :=
  m.context.bind fun context =>
    let relative := Path.relative build.root context
    if Path.isAbsolute relative then none
    else some ("require(\"path\").join(__dirname, " ++ (Literal.text relative).source ++ ")")

/-! ## Registration -/

def registerFilename (option : FilenameOption) (r : Recognizer) : Recognizer :=
  let r := match option with
    | .mock => r.bindLiteral "__filename" (.text mockFilename)
    | .relative => r.bindModuleLiteral "__filename" fun build m => some (relativeFilename build m)
    | .off => r
  r.onEvaluate "__filename" fun site _ chain =>
    site.module.map fun m => ⟨.text m.path, chain.span⟩

def registerDirname (option : DirnameOption) (r : Recognizer) : Recognizer :=
  let r := match option with
    | .mock => r.bindLiteral "__dirname" (.text mockDirname)
    | .mockAbsolute => r.bindModuleText "__dirname" absoluteDirname
    | .relative => r.bindModuleLiteral "__dirname" relativeDirname
    | .off => r
  r.onEvaluate "__dirname" fun site _ chain =>
    (site.module.bind Module.context).map fun context => ⟨.text context, chain.span⟩

def replaceMain : Handler := fun chain => Hook.replace entryModule chain.span chain.location

def replaceExtensions : Handler := fun chain => do
  let flow ← Hook.replace neutral chain.span chain.location
  if flow = .handled then Hook.warn extensionsWarning chain.location
  return flow

def registerRequire (r : Recognizer) : Recognizer :=
  (r.onChain "require.main" replaceMain).onChain "require.extensions" replaceExtensions

def keep : Handler := fun _ => return .handled

def registerModule (r : Recognizer) : Recognizer :=
  let r := ["module.exports", "module.loaded", "module.id"].foldl (fun r path => r.onChain path keep) r
  let r := r.onEvaluate "module.hot" fun _ _ chain => some ⟨.boolean false, chain.span⟩
  r.bindModuleText "module" fun build m => some (shimCall build m)

def apply (options : Options) (c : Compiler) : Compiler :=
  { c with
    compilation := (c.compilation.setFactory .const Factory.null).setTemplate .const Template.const
    recognizer := registerModule <| registerRequire <| registerDirname options.dirname <|
      registerFilename options.filename c.recognizer }

end Nodeless.Environment
