import Nodeless.Build.Parse
import Nodeless.Proofs.Event.Chains

/-!
# Free chains

The chains whose roots are not declared in the scope at their place: those that a parse shows to its
handlers.
-/

namespace Nodeless.Event

def scopeAfter (events : List Event) : Scope := events.foldl Scope.after {}

theorem scopeAfter_snoc (events : List Event) (event : Event) :
    scopeAfter (events ++ [event]) = (scopeAfter events).after event := by
  simp [scopeAfter]

/-- The free chains among events that are read in a scope. -/
def freeFrom (scope : Scope) : List Event → List Chain
  | [] => []
  | .chain c :: events =>
    if scope.isLocal c.root.text then freeFrom scope events else c :: freeFrom scope events
  | event :: events => freeFrom (scope.after event) events

def freeChains (events : List Event) : List Chain := freeFrom {} events

theorem freeFrom_append (scope : Scope) (a b : List Event) :
    freeFrom scope (a ++ b) = freeFrom scope a ++ freeFrom (a.foldl Scope.after scope) b := by
  induction a generalizing scope with
  | nil => rfl
  | cons event a ih =>
    cases event with
    | chain c =>
      have hsame : scope.after (.chain c) = scope := rfl
      simp only [List.cons_append, freeFrom, List.foldl_cons, hsame, ih]
      split <;> rfl
    | enter _ _ | exit _ | declare _ _ => exact ih _

theorem freeChains_append (before events : List Event) :
    freeChains (before ++ events) = freeChains before ++ freeFrom (scopeAfter before) events :=
  freeFrom_append {} before events

theorem freeChains_of_other (events : List Event) {event : Event} (h : event.chain? = none) :
    freeChains (events ++ [event]) = freeChains events := by
  rw [freeChains_append]
  cases event with
  | chain c => cases h
  | enter _ _ | exit _ | declare _ _ => exact List.append_nil _

theorem freeChains_of_local {events : List Event} {c : Chain}
    (h : (scopeAfter events).isLocal c.root.text = true) :
    freeChains (events ++ [.chain c]) = freeChains events := by
  rw [freeChains_append, freeFrom, if_pos h]
  exact List.append_nil _

theorem freeChains_of_free {events : List Event} {c : Chain}
    (h : ¬(scopeAfter events).isLocal c.root.text = true) :
    freeChains (events ++ [.chain c]) = freeChains events ++ [c] := by
  rw [freeChains_append, freeFrom, if_neg h]
  rfl

theorem mem_chains_of_mem_freeChains {events : List Event} {c : Chain} (h : c ∈ freeChains events) :
    c ∈ chains events := by
  have hfrom (scope : Scope) : ∀ c ∈ freeFrom scope events, c ∈ chains events := by
    clear h
    induction events generalizing scope with
    | nil => exact fun c hc => hc
    | cons event events ih =>
      intro c hc
      cases event with
      | chain found =>
        have hchains : chains (.chain found :: events) = found :: chains events := rfl
        rw [hchains]
        unfold freeFrom at hc
        split at hc
        · exact List.mem_cons_of_mem _ (ih scope c hc)
        · rcases List.mem_cons.mp hc with rfl | hc
          · exact List.mem_cons_self
          · exact List.mem_cons_of_mem _ (ih scope c hc)
      | enter _ _ | exit _ | declare _ _ => exact ih _ c hc
  exact hfrom {} c h

end Nodeless.Event
