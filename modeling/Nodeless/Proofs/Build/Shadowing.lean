import Nodeless.Proofs.Environment.Handlers
import Nodeless.Proofs.Scope.Tracking

/-!
# Shadowed names

A chain whose root the module declares is shown to no handler and to no evaluator. A source is read
once, from front to back, so only declarations in front of a chain hide it. A chain that stands
before the first declaration that binds it is shown all the same.
-/

namespace Nodeless

/-! ## The scope is the parse's own -/

/-- The hook leaves the scope to the parse. -/
def Hook.KeepsScope {α : Type} (hook : Hook α) : Prop :=
  ∀ site draft, (hook.run site draft).2.scope = draft.scope

def Recognizer.KeepsScope (r : Recognizer) : Prop :=
  ∀ entry ∈ r.handlers, ∀ chain, Hook.KeepsScope (entry.2 chain)

def Draft.SameScope (a b : Draft) : Prop := b.scope = a.scope

theorem Draft.carries_sameScope : Carries SameScope where
  refl _ := rfl
  trans h h' := Eq.trans h' h

theorem Hook.keepsScope_pure {α : Type} (a : α) : KeepsScope (pure a) := fun _ _ => rfl

namespace Recognizer

variable {r : Recognizer} {site : Site}

theorem KeepsScope.offerEach (h : r.KeepsScope) (chains : List Chain) :
    Hook.KeepsScope (r.offerEach chains) :=
  fun site => leads_offerEach Draft.carries_sameScope (fun entry hentry chain => h entry hentry chain site) chains

/-! ## Parses that are told what is hidden -/

def offerUnless (r : Recognizer) (hidden : Bool) (chain : Chain) : Hook Flow :=
  if hidden then pure .declined else r.offerEach chain.prefixes

/-- What the evaluators know of a chain, if it is shown to them. -/
def askUnless (r : Recognizer) (hidden : Bool) (site : Site) (draft : Draft) (chain : Chain) : Evaluation :=
  if hidden then ⟨.unknown, chain.span⟩
  else ((r.evaluatorsFor chain.path).findSome? fun evaluator => evaluator site draft chain).getD
    ⟨.unknown, chain.span⟩

/-- A parse that asks no scope. It is told of each place, from `n` on, whether the chain there is
hidden, and shows every other chain. -/
def parseTold (r : Recognizer) (hidden : Nat → Bool) (n : Nat) : List Event → Hook Unit
  | [] => return ()
  | .chain chain :: events => do
    let _ ← r.offerUnless (hidden n) chain
    r.parseTold hidden (n + 1) events
  | event :: events => do
    modify fun draft => draft.after event
    r.parseTold hidden (n + 1) events

def evaluateTold (r : Recognizer) (hidden : Nat → Bool) (n : Nat) (site : Site) (draft : Draft) :
    List Event → List Evaluation
  | [] => []
  | .chain chain :: events =>
    r.askUnless (hidden n) site draft chain :: r.evaluateTold hidden (n + 1) site draft events
  | event :: events => r.evaluateTold hidden (n + 1) site (draft.after event) events

theorem run_parseTold_chain (hidden : Nat → Bool) (n : Nat) (c : Chain) (events : List Event) (draft : Draft) :
    (r.parseTold hidden n (.chain c :: events)).run site draft =
      match (r.offerUnless (hidden n) c).run site draft with
      | (.ok _, after) => (r.parseTold hidden (n + 1) events).run site after
      | (.error e, after) => (.error e, after) := by
  rw [parseTold, Hook.run_bind]
  rcases (r.offerUnless (hidden n) c).run site draft with ⟨_ | _, _⟩ <;> rfl

theorem run_parseTold_other (hidden : Nat → Bool) (n : Nat) {event : Event} (h : event.chain? = none)
    (events : List Event) (draft : Draft) :
    (r.parseTold hidden n (event :: events)).run site draft =
      (r.parseTold hidden (n + 1) events).run site (draft.after event) := by
  cases event with
  | chain c => cases h
  | enter _ _ | exit _ | declare _ _ => rfl

theorem KeepsScope.offerUnless (h : r.KeepsScope) (hidden : Bool) (c : Chain) :
    Hook.KeepsScope (r.offerUnless hidden c) := by
  unfold Recognizer.offerUnless
  split
  · exact Hook.keepsScope_pure _
  · exact h.offerEach c.prefixes

/-! ## What hides a chain -/

theorem run_dispatch (c : Chain) (draft : Draft) :
    (r.dispatch c).run site draft = (r.offerUnless (draft.scope.isLocal c.root.text) c).run site draft := by
  rw [dispatch, Hook.run_bind_of_ok (Hook.run_get site draft)]
  rfl

theorem evaluate_eq (site : Site) (draft : Draft) (c : Chain) :
    r.evaluate site draft c = r.askUnless (draft.scope.isLocal c.root.text) site draft c := by
  unfold evaluate askUnless
  dsimp only
  split <;> rfl

theorem run_parseEvents_eq_told (h : r.KeepsScope) (before : List Event) {rest : List Event} {draft : Draft}
    (htracks : Scope.Tracks before draft.scope) (hnested : Event.Nested (Event.openScopes before).length rest) :
    (r.parseEvents rest).run site draft =
      (r.parseTold (Event.hidden (before ++ rest)) before.length rest).run site draft := by
  induction rest generalizing before draft with
  | nil => rfl
  | cons event rest ih =>
    have hnext : before ++ event :: rest = (before ++ [event]) ++ rest := by simp
    have hlength : before.length + 1 = (before ++ [event]).length := by simp
    have hafter := htracks.after hnested
    cases hevent : event.chain? with
    | none =>
      rw [run_parseEvents_other r site hevent, run_parseTold_other _ _ hevent, hnext, hlength]
      exact ih _ hafter hnested.snoc
    | some c =>
      obtain rfl := Event.chain?_eq_some_iff.mp hevent
      rw [run_parseEvents_chain, run_parseTold_chain, run_dispatch, htracks.isLocal_eq_hidden c rest]
      -- Whatever the handlers do to the draft, the scope stays the one in front of the chain.
      have hscope := h.offerUnless (Event.hidden (before ++ .chain c :: rest) before.length) c site draft
      generalize (r.offerUnless _ c).run site draft = outcome at hscope ⊢
      rcases outcome with ⟨_ | flow, after⟩
      · rfl
      · dsimp only at hscope ⊢
        rw [hnext, hlength]
        refine ih _ ?_ hnested.snoc
        rw [hscope]
        exact hafter

theorem evaluateEvents_eq_told (site : Site) (before : List Event) {rest : List Event} {draft : Draft}
    (htracks : Scope.Tracks before draft.scope) (hnested : Event.Nested (Event.openScopes before).length rest) :
    r.evaluateEvents site draft rest =
      r.evaluateTold (Event.hidden (before ++ rest)) before.length site draft rest := by
  induction rest generalizing before draft with
  | nil => rfl
  | cons event rest ih =>
    have hnext : before ++ event :: rest = (before ++ [event]) ++ rest := by simp
    have hlength : before.length + 1 = (before ++ [event]).length := by simp
    have hrest : r.evaluateEvents site (draft.after event) rest = _ := ih _ (htracks.after hnested) hnested.snoc
    rw [← hnext, ← hlength] at hrest
    cases event with
    | chain c =>
      rw [evaluateEvents, evaluateTold, evaluate_eq, htracks.isLocal_eq_hidden c rest]
      exact congrArg _ hrest
    | enter _ _ | exit _ | declare _ _ => exact hrest

end Recognizer

/-! ## The environment's handlers -/

namespace Environment

theorem keepsScope_handlers (options : Options) :
    ∀ entry ∈ handlers options, ∀ chain, Hook.KeepsScope (entry.2 chain) :=
  fun entry hentry chain _ => (own_handlers options entry hentry).leads Draft.carries_sameScope
    (fun _ _ _ _ _ _ => rfl) (fun _ _ => rfl) (fun _ _ => rfl) chain

theorem keepsScope_apply (options : Options) (build : BuildContext) :
    (apply options { build }).recognizer.KeepsScope := by
  unfold Recognizer.KeepsScope
  rw [handlers_apply]
  exact List.forall_mem_map.mpr (keepsScope_handlers options)

end Environment

/-! ## Chains in front of their declarations -/

/-- A parse shows a chain to its handlers, and an evaluation to its evaluators, exactly when no
declaration in front of the chain binds it. -/
theorem shown_until_declared {r : Recognizer} (hkeeps : r.KeepsScope) (site : Site) {source : String}
    {events : List Event} (h : Event.ofSource source = .ok events) :
    (r.parse source).run site site.draft = (r.parseTold (Event.hidden events) 0 events).run site site.draft ∧
    r.evaluateEvents site site.draft events = r.evaluateTold (Event.hidden events) 0 site site.draft events := by
  have hnested := Event.nested_ofSource h
  constructor
  · unfold Recognizer.parse
    rw [h]
    exact Recognizer.run_parseEvents_eq_told hkeeps [] Scope.tracks_nil hnested
  · exact Recognizer.evaluateEvents_eq_told site [] Scope.tracks_nil hnested

/-- A name used, declared and used again. -/
def usedAround : List Event :=
  [.chain ⟨⟨"require", ⟨0, 7⟩, ⟨⟨1, 0⟩, ⟨1, 7⟩⟩⟩,
      [⟨"main", ⟨8, 12⟩, ⟨⟨1, 8⟩, ⟨1, 12⟩⟩⟩]⟩,
    .declare ⟨"require", ⟨17, 24⟩, ⟨⟨1, 17⟩, ⟨1, 24⟩⟩⟩ .var,
    .chain ⟨⟨"require", ⟨25, 32⟩, ⟨⟨1, 25⟩, ⟨1, 32⟩⟩⟩,
      [⟨"main", ⟨33, 37⟩, ⟨⟨1, 33⟩, ⟨1, 37⟩⟩⟩]⟩]

theorem ofSource_usedAround : Event.ofSource "require.main;var require;require.main" = .ok usedAround := by
  decide +kernel

/-- The environment as it is set up without options, and a module in it. -/
def plainBuild : BuildContext := ⟨"/", "/module.js"⟩

def plainRecognizer : Recognizer := (Environment.apply {} { build := plainBuild }).recognizer

def plainSite : Site := ⟨plainBuild, some (Module.ofResource "/a.js")⟩

theorem shown_until_declared_usedAround :
    plainRecognizer.KeepsScope ∧ Event.ofSource "require.main;var require;require.main" = .ok usedAround ∧
    (plainRecognizer.parse "require.main;var require;require.main").run plainSite plainSite.draft =
      (plainRecognizer.parseTold (Event.hidden usedAround) 0 usedAround).run plainSite plainSite.draft := by
  have hkeeps := Environment.keepsScope_apply {} plainBuild
  exact ⟨hkeeps, ofSource_usedAround, (shown_until_declared hkeeps plainSite ofSource_usedAround).1⟩

/-- The declaration binds both chains, and only the one behind it is left alone. -/
theorem used_before_declared_is_replaced :
    Event.ofSource "require.main;var require;require.main" = .ok usedAround ∧
    Event.binds usedAround 1 0 = true ∧ Event.binds usedAround 1 2 = true ∧
    ((plainRecognizer.parse "require.main;var require;require.main").run plainSite plainSite.draft).2.dependencies =
      [{ span := ⟨0, 12⟩, text := Environment.entryModule, location := some ⟨⟨1, 0⟩, ⟨1, 12⟩⟩ }] := by
  refine ⟨ofSource_usedAround, by decide, by decide, ?_⟩
  unfold Recognizer.parse
  rw [ofSource_usedAround]
  decide +kernel

end Nodeless
