import Nodeless.Build.Recognizer

/-!
# Parsing

Runs over the events of a source, keeps the scope, and shows every chain to the recognizer.
-/

namespace Nodeless

def Scope.after (scope : Scope) : Event → Scope
  | .enter _ .block => scope.begin
  | .enter _ .function => scope.beginFunction
  | .exit _ => scope.close
  | .declare name .lexical => scope.declare name.text
  | .declare name .var => scope.declareVar name.text
  | .chain _ => scope

def Draft.after (draft : Draft) (event : Event) : Draft :=
  { draft with scope := draft.scope.after event }

namespace Recognizer

/-- Offers the chains among the events, each in the scope at its place. -/
def parseEvents (r : Recognizer) : List Event → Hook Unit
  | [] => return ()
  | .chain chain :: events => do
    let _ ← r.dispatch chain
    r.parseEvents events
  | event :: events => do
    modify fun draft => draft.after event
    r.parseEvents events

def parse (r : Recognizer) (source : String) : Hook Unit :=
  match Event.ofSource source with
  | .error error => throw (.source error)
  | .ok events => r.parseEvents events

/-- What is known of each chain among the events, in the scope at its place. -/
def evaluateEvents (r : Recognizer) (site : Site) (draft : Draft) : List Event → List Evaluation
  | [] => []
  | .chain chain :: events => r.evaluate site draft chain :: r.evaluateEvents site draft events
  | event :: events => r.evaluateEvents site (draft.after event) events

end Recognizer

end Nodeless
