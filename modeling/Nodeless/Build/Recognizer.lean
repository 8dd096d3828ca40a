import Nodeless.Build.Hook
import Nodeless.Literal

/-!
# Recognizer

Handlers registered under the paths of chains. A chain is offered to the handlers of its own path,
and then to those of each shorter chain it starts with. The first that handles it ends the search.
-/

namespace Nodeless

inductive StaticValue
  | text (value : String)
  | boolean (value : Bool)
  | unknown
  deriving DecidableEq, Repr

structure Evaluation where
  value : StaticValue
  span : Span
  deriving DecidableEq, Repr

namespace Evaluation

def isKnown (e : Evaluation) : Bool := e.value ≠ .unknown

def text? (e : Evaluation) : Option String :=
  match e.value with
  | .text value => some value
  | _ => none

def boolean? (e : Evaluation) : Option Bool :=
  match e.value with
  | .boolean value => some value
  | _ => none

end Evaluation

abbrev Handler := Chain → Hook Flow

/-- Works out what is known of a chain. It changes nothing. -/
abbrev Evaluator := Site → Draft → Chain → Option Evaluation

inductive HookKind
  | expression
  | evaluation
  deriving DecidableEq, Repr

structure HookKey where
  kind : HookKind
  path : String
  deriving DecidableEq, Repr

def HookKey.render (key : HookKey) : String :=
  match key.kind with
  | .expression => "expression " ++ key.path
  | .evaluation => "evaluate Identifier " ++ key.path

/-- Handlers and evaluators with the paths they are registered under, in order of registration. -/
structure Recognizer where
  handlers : List (String × Handler) := []
  evaluators : List (String × Evaluator) := []

namespace Recognizer

/-! ## Registration -/

def onChain (r : Recognizer) (path : String) (handler : Handler) : Recognizer :=
  { r with handlers := r.handlers ++ [(path, handler)] }

def onEvaluate (r : Recognizer) (path : String) (evaluator : Evaluator) : Recognizer :=
  { r with evaluators := r.evaluators ++ [(path, evaluator)] }

/-- Binds a name to a text worked out for each module. Where there is no text, the name is left
alone. -/
def bindModuleText (r : Recognizer) (name : String)
    (text : BuildContext → Module → Option String) : Recognizer :=
  r.onChain name fun _ => do
    let site ← read
    match site.module.bind (text site.build) with
    | none => return .declined
    | some text =>
      Hook.bindName name text
      return .handled

def bindModuleLiteral (r : Recognizer) (name : String)
    (value : BuildContext → Module → Option Literal) : Recognizer :=
  r.bindModuleText name fun build m => (value build m).map Literal.source

def bindLiteral (r : Recognizer) (name : String) (value : Literal) : Recognizer :=
  r.bindModuleText name fun _ _ => some value.source

/-! ## Keys -/

def contains (r : Recognizer) (key : HookKey) : Bool :=
  match key.kind with
  | .expression => r.handlers.any fun h => h.1 = key.path
  | .evaluation => r.evaluators.any fun e => e.1 = key.path

/-- Each key once, those of handlers first, by path. -/
def keys (r : Recognizer) : List HookKey :=
  let sorted (kind : HookKind) (paths : List String) : List HookKey :=
    (paths.eraseDups.mergeSort fun a b => a ≤ b).map fun path => ⟨kind, path⟩
  sorted .expression (r.handlers.map (·.1)) ++ sorted .evaluation (r.evaluators.map (·.1))

def handlersFor (r : Recognizer) (path : String) : List Handler :=
  (r.handlers.filter fun h => h.1 = path).map (·.2)

def evaluatorsFor (r : Recognizer) (path : String) : List Evaluator :=
  (r.evaluators.filter fun e => e.1 = path).map (·.2)

/-! ## Offering -/

def offer (chain : Chain) : List Handler → Hook Flow
  | [] => return .declined
  | handler :: handlers => do
    match ← handler chain with
    | .handled => return .handled
    | .declined => offer chain handlers

def offerEach (r : Recognizer) : List Chain → Hook Flow
  | [] => return .declined
  | chain :: chains => do
    match ← offer chain (r.handlersFor chain.path) with
    | .handled => return .handled
    | .declined => r.offerEach chains

/-- Offers a chain and the chains it starts with, unless the module declares its root. -/
def dispatch (r : Recognizer) (chain : Chain) : Hook Flow := do
  if (← get).scope.isLocal chain.root.text then return .declined
  else r.offerEach chain.prefixes

/-- What the evaluators of the chain's own path know of it. -/
def evaluate (r : Recognizer) (site : Site) (draft : Draft) (chain : Chain) : Evaluation :=
  let known :=
    if draft.scope.isLocal chain.root.text then none
    else (r.evaluatorsFor chain.path).findSome? fun evaluator => evaluator site draft chain
  known.getD ⟨.unknown, chain.span⟩

end Recognizer

end Nodeless
