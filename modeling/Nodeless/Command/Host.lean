import Nodeless.Command.Plan

/-!
# Hosts

The outside of a run: files, and the two outputs. One run works on the host of the machine and on
one held in memory.
-/

namespace Nodeless

/-- Operations that fail give the message of why. -/
structure Host (m : Type → Type) where
  /-- The shim that the program is installed with. -/
  moduleShim : String
  read : String → m (Except String String)
  print : String → m Unit
  report : String → m Unit
  /-- Makes a directory and those above it that are missing. -/
  makeDirectories : String → m (Except String Unit)
  write : String → String → m (Except String Unit)

namespace Host

variable {m : Type → Type} [Monad m]

def save (host : Host m) (target text : String) : m (Except Stop Unit) := do
  let parent := (FilePath.parent? target).getD ""
  match ← host.makeDirectories parent with
  | .error cause => return .error ⟨.makeDirectory parent, cause⟩
  | .ok () =>
    match ← host.write target text with
    | .error cause => return .error ⟨.write target, cause⟩
    | .ok () => return .ok ()

def act (host : Host m) : Action → m (Except Stop Unit)
  | .print text => Except.ok <$> host.print text
  | .report text => Except.ok <$> host.report text
  | .save target text => host.save target text

def perform (host : Host m) : List Action → m (Except Stop Unit)
  | [] => return .ok ()
  | action :: actions => do
    match ← host.act action with
    | .error stop => return .error stop
    | .ok () => host.perform actions

def giveUp (host : Host m) (stop : Stop) : m UInt32 := do
  host.report stop.render
  return 1

def build (host : Host m) (current : String) (request : Request) : m UInt32 := do
  let texts ← request.inputs.mapM fun path => return (path, ← host.read path)
  let read (path : String) : Except String String := (texts.lookup path).getD (.error "")
  match request.plan host.moduleShim current read with
  | .error stop => host.giveUp stop
  | .ok plan =>
    match ← host.perform plan.actions with
    | .error stop => host.giveUp stop
    | .ok () => return plan.exitCode

def run (host : Host m) (current : String) (words : List String) : m UInt32 := do
  match Command.ofWords? words with
  | none =>
    host.report Command.usage
    return 2
  | some .help =>
    host.print Command.usage
    return 0
  | some .version =>
    host.print Command.versionLine
    return 0
  | some (.build request) => host.build current request

end Host

end Nodeless
