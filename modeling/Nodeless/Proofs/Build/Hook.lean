import Nodeless.Build.Compiler
import Nodeless.Proofs.Event.Chains

/-!
# Runs of hooks

How a hook runs, piece by piece, and what a parse keeps if every event keeps it.
-/

namespace Nodeless

namespace Hook

variable {α β : Type} (site : Site) (draft : Draft)

@[simp]
theorem run_pure (a : α) : (pure a : Hook α).run site draft = (.ok a, draft) := rfl

@[simp]
theorem run_throw (e : BuildError) : (throw e : Hook α).run site draft = (.error e, draft) := rfl

@[simp]
theorem run_read : (read : Hook Site).run site draft = (.ok site, draft) := rfl

@[simp]
theorem run_get : (get : Hook Draft).run site draft = (.ok draft, draft) := rfl

@[simp]
theorem run_modify (f : Draft → Draft) : (modify f : Hook Unit).run site draft = (.ok (), f draft) := rfl

theorem run_bind (hook : Hook α) (next : α → Hook β) :
    (hook >>= next).run site draft =
      match hook.run site draft with
      | (.ok a, after) => (next a).run site after
      | (.error e, after) => (.error e, after) := by
  change ((hook >>= next) site draft : Except BuildError β × Draft) = _
  simp only [run, ReaderT.run, ExceptT.run, bind, ReaderT.bind, ExceptT.bind, ExceptT.mk, StateT.bind,
    ExceptT.bindCont]
  rcases hook site draft with ⟨_ | a, after⟩ <;> rfl

variable {site draft}

theorem run_bind_of_ok {hook : Hook α} {a : α} {after : Draft} (h : hook.run site draft = (.ok a, after))
    (next : α → Hook β) : (hook >>= next).run site draft = (next a).run site after := by
  rw [run_bind, h]

/-! ## Replacements -/

theorem run_replace_of_none (h : site.module = none) (text : String) (span : Span) (location : Option Location) :
    (replace text span location).run site draft = (.ok .declined, draft) := by
  simp only [replace, run_bind, run_read, h, run_pure]

theorem run_replace_of_clear {m : Module} (h : site.module = some m) {span : Span}
    (hclear : Module.conflict? draft.dependencies span = none) (text : String) (location : Option Location) :
    (replace text span location).run site draft =
      (.ok .handled, { draft with dependencies := draft.dependencies ++ [{ span, text, location }] }) := by
  simp only [replace, run_bind, run_read, h, run_get, hclear, run_modify, run_pure]

theorem run_replace_of_conflict {m : Module} (h : site.module = some m) {span : Span} {taken : Dependency}
    (hconflict : Module.conflict? draft.dependencies span = some taken) (text : String)
    (location : Option Location) :
    (replace text span location).run site draft = (.error (.rangeConflict m.resource taken.span span), draft) := by
  simp only [replace, run_bind, run_read, h, run_get, hconflict, run_throw]

theorem run_warn {m : Module} (h : site.module = some m) (message : String) (location : Option Location) :
    (warn message location).run site draft =
      (.ok (), { draft with warnings := draft.warnings ++ [{ module := m.identifier, message, location }] }) := by
  simp only [warn, run_bind, run_read, h, run_modify]

end Hook

namespace Recognizer

/-! ## Offers -/

section

variable {r : Recognizer} {site : Site} {draft after : Draft}

theorem run_offer_singleton {flow : Flow} {c : Chain} {handler : Handler}
    (h : (handler c).run site draft = (.ok flow, after)) :
    (offer c [handler]).run site draft = (.ok flow, after) := by
  rw [offer, Hook.run_bind_of_ok h]
  cases flow <;> rfl

theorem run_offerEach_cons {flow : Flow} {c : Chain}
    (h : (offer c (r.handlersFor c.path)).run site draft = (.ok flow, after)) (chains : List Chain) :
    (r.offerEach (c :: chains)).run site draft =
      match flow with
      | .handled => (.ok .handled, after)
      | .declined => (r.offerEach chains).run site after := by
  rw [offerEach, Hook.run_bind_of_ok h]
  cases flow <;> rfl

theorem run_offerEach_append {unheard : List Chain} (h : ∀ c ∈ unheard, r.handlersFor c.path = [])
    (chains : List Chain) :
    (r.offerEach (unheard ++ chains)).run site draft = (r.offerEach chains).run site draft := by
  induction unheard with
  | nil => rfl
  | cons c unheard ih =>
    have hnone : (offer c (r.handlersFor c.path)).run site draft = (.ok .declined, draft) := by
      rw [h c List.mem_cons_self]
      rfl
    rw [List.cons_append, run_offerEach_cons hnone]
    exact ih fun c' hc' => h c' (List.mem_cons_of_mem _ hc')

end

/-! ## Parses -/

variable (r : Recognizer) (site : Site)

theorem run_parseEvents_chain (c : Chain) (events : List Event) (draft : Draft) :
    (r.parseEvents (.chain c :: events)).run site draft =
      match (r.dispatch c).run site draft with
      | (.ok _, after) => (r.parseEvents events).run site after
      | (.error e, after) => (.error e, after) := by
  rw [parseEvents, Hook.run_bind]
  rcases (r.dispatch c).run site draft with ⟨_ | _, _⟩ <;> rfl

theorem run_parseEvents_other {event : Event} (h : event.chain? = none) (events : List Event) (draft : Draft) :
    (r.parseEvents (event :: events)).run site draft = (r.parseEvents events).run site (draft.after event) := by
  cases event with
  | chain c => cases h
  | enter _ _ | exit _ | declare _ _ => rfl

theorem run_parseEvents_of_invariant (Inv : List Event → Draft → Prop) (events : List Event)
    (hchain : ∀ before c after draft, events = before ++ .chain c :: after → Inv before draft →
      ∃ flow draft', (r.dispatch c).run site draft = (.ok flow, draft') ∧ Inv (before ++ [.chain c]) draft')
    (hother : ∀ before event draft, event.chain? = none → Inv before draft →
      Inv (before ++ [event]) (draft.after event))
    (draft : Draft) (hstart : Inv [] draft) :
    ∃ draft', (r.parseEvents events).run site draft = (.ok (), draft') ∧ Inv events draft' := by
  -- Events already read are kept in front, so that the invariant can speak of them.
  have hrest (rest before : List Event) (draft : Draft) (heq : events = before ++ rest)
      (hinv : Inv before draft) :
      ∃ draft', (r.parseEvents rest).run site draft = (.ok (), draft') ∧ Inv events draft' := by
    induction rest generalizing before draft with
    | nil =>
      rw [heq, List.append_nil]
      exact ⟨draft, rfl, hinv⟩
    | cons event rest ih =>
      have hnext : events = (before ++ [event]) ++ rest := by rw [heq, List.append_assoc, List.singleton_append]
      cases hevent : event.chain? with
      | none =>
        rw [run_parseEvents_other r site hevent]
        exact ih _ _ hnext (hother before event draft hevent hinv)
      | some c =>
        obtain rfl := Event.chain?_eq_some_iff.mp hevent
        obtain ⟨flow, draft', hrun, hinv'⟩ := hchain before c rest draft heq hinv
        rw [run_parseEvents_chain, hrun]
        exact ih _ _ hnext hinv'
  exact hrest events [] draft rfl hstart

end Recognizer

/-! ## Builds -/

namespace Compiler

variable {c : Compiler} {m : Module} {source : String} {draft : Draft}

theorem buildModule_of_error {e : BuildError}
    (h : (c.recognizer.parse source).run ⟨c.build, some m.reset⟩ {} = (.error e, draft)) :
    c.buildModule m source = (.error e, (draft.record m.reset).discard) := by
  have hrun : (c.recognizer.parse source).run ⟨c.build, some m.reset⟩ (Site.draft ⟨c.build, some m.reset⟩) =
      (.error e, draft) := h
  unfold buildModule
  dsimp only
  rw [hrun]

theorem buildModule_of_ok (h : (c.recognizer.parse source).run ⟨c.build, some m.reset⟩ {} = (.ok (), draft)) :
    c.buildModule m source =
      match c.compilation.resolve draft.dependencies with
      | .error e => (.error e, (draft.finish m.reset).discard)
      | .ok () => (.ok (), draft.finish m.reset) := by
  have hrun : (c.recognizer.parse source).run ⟨c.build, some m.reset⟩ (Site.draft ⟨c.build, some m.reset⟩) =
      (.ok (), draft) := h
  unfold buildModule
  dsimp only
  rw [hrun]
  rfl

end Compiler

end Nodeless
