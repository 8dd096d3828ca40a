import Nodeless.Build.Compiler
import Nodeless.Proofs.Build.Hook
import Nodeless.Proofs.Module.Registration

/-!
# Orderly handlers

A handler is orderly when the only span it asks to replace is that of the chain it is shown, once
at most, and only when it handles the chain. Whatever orderly handlers are registered, and under
whatever paths, no two replacements of a parse get in each other's way.
-/

namespace Nodeless

/-! ## What an orderly handler does -/

/-- The outcomes of one call that an orderly handler may have. It may also be refused the span, and
pass that on. Bindings, warnings and the scope are its own affair. -/
inductive KeepsTo (chain : Chain) (site : Site) (draft : Draft) : Except BuildError Flow × Draft → Prop
  | declines {after : Draft} (same : after.dependencies = draft.dependencies) :
      KeepsTo chain site draft (.ok .declined, after)
  | handles {after : Draft} (same : after.dependencies = draft.dependencies) :
      KeepsTo chain site draft (.ok .handled, after)
  | replaces {before replaced after : Draft} (text : String) (location : Option Location)
      (same : before.dependencies = draft.dependencies)
      (run : (Hook.replace text chain.span location).run site before = (.ok .handled, replaced))
      (kept : after.dependencies = replaced.dependencies) :
      KeepsTo chain site draft (.ok .handled, after)
  | refused {before replaced after : Draft} (text : String) (location : Option Location) (e : BuildError)
      (same : before.dependencies = draft.dependencies)
      (run : (Hook.replace text chain.span location).run site before = (.error e, replaced))
      (kept : after.dependencies = replaced.dependencies) :
      KeepsTo chain site draft (.error e, after)

def Handler.Orderly (handler : Handler) : Prop :=
  ∀ chain site draft, KeepsTo chain site draft ((handler chain).run site draft)

def Recognizer.Orderly (r : Recognizer) : Prop := ∀ entry ∈ r.handlers, Handler.Orderly entry.2

/-! ## One chain -/

/-- What offering a chain to orderly handlers comes to: at most one dependency more, at one of the
spans that the chain and its shorter forms have. -/
inductive Offered (spans : List Span) (draft : Draft) : Except BuildError Flow × Draft → Prop
  | declined {after : Draft} (same : after.dependencies = draft.dependencies) :
      Offered spans draft (.ok .declined, after)
  | handled {after : Draft} (same : after.dependencies = draft.dependencies) :
      Offered spans draft (.ok .handled, after)
  | replaced {after : Draft} (d : Dependency) (mem : d.span ∈ spans)
      (added : after.dependencies = draft.dependencies ++ [d]) :
      Offered spans draft (.ok .handled, after)

variable {site : Site} {m : Module}

theorem KeepsTo.offered {chain : Chain} {draft : Draft} {outcome : Except BuildError Flow × Draft}
    (h : KeepsTo chain site draft outcome) (hm : site.module = some m)
    (hclear : Module.conflict? draft.dependencies chain.span = none) :
    Offered [chain.span] draft outcome := by
  cases h with
  | declines same => exact .declined same
  | handles same => exact .handled same
  | @replaces before replaced after text location same run kept =>
    rw [← same] at hclear
    rw [Hook.run_replace_of_clear hm hclear] at run
    cases run
    exact .replaced { span := chain.span, text, location } List.mem_cons_self (by rw [kept, same])
  | refused text location e same run kept =>
    rw [← same] at hclear
    rw [Hook.run_replace_of_clear hm hclear] at run
    cases run

theorem Offered.trans {spans more : List Span} {draft after : Draft} {outcome : Except BuildError Flow × Draft}
    (same : after.dependencies = draft.dependencies) (h : Offered more after outcome)
    (hsub : ∀ s ∈ more, s ∈ spans) : Offered spans draft outcome := by
  cases h with
  | declined hsame => exact .declined (hsame.trans same)
  | handled hsame => exact .handled (hsame.trans same)
  | replaced d mem added => exact .replaced d (hsub _ mem) (by rw [added, same])

theorem offered_offer (hm : site.module = some m) (chain : Chain) (handlers : List Handler)
    (horderly : ∀ handler ∈ handlers, Handler.Orderly handler) (draft : Draft)
    (hclear : Module.conflict? draft.dependencies chain.span = none) :
    Offered [chain.span] draft ((Recognizer.offer chain handlers).run site draft) := by
  induction handlers generalizing draft with
  | nil => exact .declined rfl
  | cons handler handlers ih =>
    have hone := (horderly handler List.mem_cons_self chain site draft).offered hm hclear
    rw [Recognizer.offer, Hook.run_bind]
    generalize (handler chain).run site draft = outcome at hone ⊢
    cases hone with
    | declined same =>
      have hrest := ih (fun h hh => horderly h (List.mem_cons_of_mem _ hh)) _ (by rw [same]; exact hclear)
      exact hrest.trans same fun s hs => hs
    | handled same => exact .handled same
    | replaced d mem added => exact .replaced d mem added

namespace Recognizer

theorem Orderly.handlersFor {r : Recognizer} (h : r.Orderly) (path : String) :
    ∀ handler ∈ r.handlersFor path, Handler.Orderly handler := by
  intro handler hmem
  obtain ⟨entry, hentry, rfl⟩ := List.mem_map.mp hmem
  exact h entry (List.mem_filter.mp hentry).1

theorem offered_offerEach {r : Recognizer} (h : r.Orderly) (hm : site.module = some m) (chains : List Chain)
    (draft : Draft) (hclear : ∀ c ∈ chains, Module.conflict? draft.dependencies c.span = none) :
    Offered (chains.map Chain.span) draft ((r.offerEach chains).run site draft) := by
  induction chains generalizing draft with
  | nil => exact .declined rfl
  | cons c chains ih =>
    have hone := offered_offer hm c (r.handlersFor c.path) (h.handlersFor c.path) draft
      (hclear c List.mem_cons_self)
    rw [offerEach, Hook.run_bind]
    generalize (offer c (r.handlersFor c.path)).run site draft = outcome at hone ⊢
    cases hone with
    | declined same =>
      have hrest := ih _ fun c' hc' => by rw [same]; exact hclear c' (List.mem_cons_of_mem _ hc')
      exact hrest.trans same fun s hs => List.mem_cons_of_mem _ hs
    | handled same => exact .handled same
    | replaced d mem added =>
      exact .replaced d (List.mem_cons.mpr (.inl (List.mem_singleton.mp mem))) added

theorem offered_dispatch {r : Recognizer} (h : r.Orderly) (hm : site.module = some m) (c : Chain) (draft : Draft)
    (hclear : ∀ p ∈ c.prefixes, Module.conflict? draft.dependencies p.span = none) :
    Offered (c.prefixes.map Chain.span) draft ((r.dispatch c).run site draft) := by
  rw [dispatch, Hook.run_bind_of_ok (Hook.run_get site draft)]
  split
  · exact .declined rfl
  · exact offered_offerEach h hm c.prefixes draft hclear

end Recognizer

/-! ## All chains -/

/-- Every dependency lies within a chain that has been read. -/
def Behind (events : List Event) (draft : Draft) : Prop :=
  ∀ d ∈ draft.dependencies, ∃ c ∈ Event.chains events,
    c.span.start ≤ d.span.start ∧ d.span.stop ≤ c.span.stop

theorem conflict?_of_behind {before : List Event} {draft : Draft} (h : Behind before draft) {c : Chain}
    (hc : c.InOrder) (hbefore : ∀ a ∈ Event.chains before, a.span.stop ≤ c.span.start) :
    ∀ p ∈ c.prefixes, Module.conflict? draft.dependencies p.span = none := by
  intro p hp
  obtain ⟨hin, -, hstart, -⟩ := hc.of_mem_prefixes hp
  rw [Module.conflict?_eq_none_iff]
  intro d hd
  obtain ⟨a, ha, -, hstop⟩ := h d hd
  apply Span.not_meets_of_stop_le hin.start_lt_stop
  rw [hstart]
  exact Nat.le_trans hstop (hbefore a ha)

theorem Behind.mono {before : List Event} {draft after : Draft} (h : Behind before draft) (events : List Event)
    (same : after.dependencies = draft.dependencies) : Behind (before ++ events) after := by
  intro d hd
  rw [same] at hd
  obtain ⟨c, hc, hwithin⟩ := h d hd
  exact ⟨c, by simp [hc], hwithin⟩

theorem Behind.offered {before : List Event} {draft : Draft} (h : Behind before draft) {c : Chain}
    (hc : c.InOrder) {outcome : Except BuildError Flow × Draft}
    (hoffered : Offered (c.prefixes.map Chain.span) draft outcome) :
    ∃ flow after, outcome = (.ok flow, after) ∧ Behind (before ++ [.chain c]) after := by
  cases hoffered with
  | declined same => exact ⟨_, _, rfl, h.mono _ same⟩
  | handled same => exact ⟨_, _, rfl, h.mono _ same⟩
  | replaced d mem added =>
    refine ⟨_, _, rfl, ?_⟩
    obtain ⟨p, hp, hspan⟩ := List.mem_map.mp mem
    obtain ⟨-, -, hstart, hstop⟩ := hc.of_mem_prefixes hp
    intro d' hd'
    rw [added, List.mem_append, List.mem_singleton] at hd'
    rcases hd' with hd' | rfl
    · exact (h.mono [.chain c] rfl) d' hd'
    · refine ⟨c, by simp [Event.chains, Event.chain?], ?_⟩
      rw [← hspan]
      exact ⟨Nat.le_of_eq hstart.symm, hstop⟩

theorem Recognizer.exists_run_parseEvents_of_orderly {r : Recognizer} (h : r.Orderly) (hm : site.module = some m)
    {source : String} {events : List Event} (hevents : Event.ofSource source = .ok events) (draft : Draft)
    (hstart : draft.dependencies = []) :
    ∃ after, (r.parseEvents events).run site draft = (.ok (), after) ∧ Behind events after := by
  obtain ⟨hin, hordered⟩ := Event.chains_ofSource hevents
  refine run_parseEvents_of_invariant r site Behind events ?_ ?_ draft ?_
  · intro before c after draft heq hbehind
    have hc : c.InOrder := hin c ((Event.mem_chains_iff _ _).mpr (by simp [heq]))
    have hbefore : ∀ a ∈ Event.chains before, a.span.stop ≤ c.span.start := by
      intro a ha
      rw [heq, Event.chains_append] at hordered
      exact (List.pairwise_append.mp hordered).2.2 a ha c (by simp [Event.chains, Event.chain?])
    exact hbehind.offered hc (offered_dispatch h hm c draft (conflict?_of_behind hbehind hc hbefore))
  · exact fun before event draft _ hbehind => hbehind.mono [event] rfl
  · intro d hd
    rw [hstart] at hd
    cases hd

theorem Recognizer.run_parse_of_orderly {r : Recognizer} (h : r.Orderly) (hm : site.module = some m)
    (source : String) (draft : Draft) (hstart : draft.dependencies = []) :
    ((r.parse source).run site draft).1 =
      match Event.ofSource source with
      | .ok _ => .ok ()
      | .error e => .error (.source e) := by
  unfold parse
  cases hevents : Event.ofSource source with
  | error e => rfl
  | ok events =>
    obtain ⟨after, hrun, -⟩ := exists_run_parseEvents_of_orderly h hm hevents draft hstart
    dsimp only
    rw [hrun]

/-! ## Handlers that are orderly -/

theorem orderly_replace (text : String) (location : Chain → Option Location) :
    Handler.Orderly fun chain => Hook.replace text chain.span (location chain) := by
  intro chain site draft
  cases hm : site.module with
  | none =>
    rw [Hook.run_replace_of_none hm]
    exact .declines rfl
  | some m =>
    cases hconflict : Module.conflict? draft.dependencies chain.span with
    | none =>
      have hrun := Hook.run_replace_of_clear hm hconflict text (location chain)
      rw [hrun]
      exact .replaces text (location chain) rfl hrun rfl
    | some taken =>
      have hrun := Hook.run_replace_of_conflict hm hconflict text (location chain)
      rw [hrun]
      exact .refused text (location chain) _ rfl hrun rfl

theorem Recognizer.Orderly.onChain {r : Recognizer} (h : r.Orderly) (path : String) {handler : Handler}
    (hhandler : Handler.Orderly handler) : (r.onChain path handler).Orderly := by
  intro entry hentry
  rcases List.mem_append.mp hentry with hentry | hentry
  · exact h entry hentry
  · rw [List.mem_singleton.mp hentry]
    exact hhandler

theorem Recognizer.Orderly.onEvaluate {r : Recognizer} (h : r.Orderly) (path : String) (evaluator : Evaluator) :
    (r.onEvaluate path evaluator).Orderly := h

theorem Recognizer.Orderly.bindModuleText {r : Recognizer} (h : r.Orderly) (name : String)
    (text : BuildContext → Module → Option String) : (r.bindModuleText name text).Orderly := by
  refine h.onChain name ?_
  intro chain site draft
  rw [Hook.run_bind_of_ok (Hook.run_read site draft)]
  split
  · exact .declines rfl
  · exact .handles rfl

/-! ## No parse with orderly handlers finds a conflict -/

/-- With orderly handlers a build fails for its source or for its factories, and its parse never
finds two replacements in conflict. -/
theorem parse_never_conflicts (c : Compiler) (horderly : c.recognizer.Orderly) (m : Module) (source : String) :
    let site : Site := ⟨c.build, some m.reset⟩
    let parsed := (c.recognizer.parse source).run site site.draft
    (∀ name first second, parsed.1 ≠ .error (.rangeConflict name first second)) ∧
    ∀ e, (c.buildModule m source).1 = .error e →
      (∃ s, Event.ofSource source = .error s ∧ e = .source s) ∨
        c.compilation.resolve parsed.2.dependencies = .error e := by
  intro site parsed
  have hsite : site.module = some m.reset := rfl
  have hparsed : parsed.1 = _ := Recognizer.run_parse_of_orderly horderly hsite source site.draft rfl
  constructor
  · intro name first second herror
    rw [hparsed] at herror
    split at herror <;> cases herror
  · intro e he
    cases hevents : Event.ofSource source with
    | error s =>
      have hrun : parsed = (.error (.source s), parsed.2) := Prod.ext (by rw [hparsed, hevents]) rfl
      rw [Compiler.buildModule_of_error hrun] at he
      cases he
      exact .inl ⟨s, rfl, rfl⟩
    | ok events =>
      have hrun : parsed = (.ok (), parsed.2) := Prod.ext (by rw [hparsed, hevents]) rfl
      rw [Compiler.buildModule_of_ok hrun] at he
      split at he
      · rename_i hresolve
        cases he
        exact .inr hresolve
      · cases he

/-- Two handlers whose paths share their first name, and one that binds. -/
def sharedRoot : Recognizer :=
  Recognizer.bindModuleText
    ((({} : Recognizer).onChain "require" fun chain => Hook.replace "R" chain.span none).onChain "require.main"
      fun chain => Hook.replace "M" chain.span (some chain.location))
    "__dirname" fun _ _ => some "0"

theorem sharedRoot_never_conflicts :
    sharedRoot.Orderly ∧
    let site : Site := ⟨⟨"/", "/module.js"⟩, some (Module.ofResource "/a.js").reset⟩
    ∀ name first second,
      ((sharedRoot.parse "require.main(require, __dirname)").run site site.draft).1 ≠
        .error (.rangeConflict name first second) := by
  have horderly : sharedRoot.Orderly := by
    refine Recognizer.Orderly.bindModuleText (.onChain (.onChain ?_ _ ?_) _ ?_) _ _
    · intro entry hentry
      cases hentry
    · exact orderly_replace "R" fun _ => none
    · exact orderly_replace "M" fun chain => some chain.location
  refine ⟨horderly, ?_⟩
  exact (parse_never_conflicts { build := ⟨"/", "/module.js"⟩, recognizer := sharedRoot } horderly
    (Module.ofResource "/a.js") "require.main(require, __dirname)").1

end Nodeless
