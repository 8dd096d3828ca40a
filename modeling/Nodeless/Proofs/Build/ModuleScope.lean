import Nodeless.Proofs.Build.Shadowing
import Nodeless.Proofs.Event.BraceEvents

/-!
# The scope of a module

What a source opens it closes again, so a parse ends where it began: outside every scope, with no
names but those of the module itself.
-/

namespace Nodeless

namespace Event

/-! ## The names of a module -/

/-- Whether a name that is declared in the open scopes belongs to the module: outside every brace, or
for `var` outside the bodies of functions. -/
def ofModule (scopes : List OpenScope) : DeclarationKind → Bool
  | .lexical => scopes.isEmpty
  | .var => scopes.all fun s => s.kind = .block

def moduleName? (scopes : List OpenScope) : Event → Option String
  | .declare name kind => if ofModule scopes kind then some name.text else none
  | _ => none

/-- The names that the events declare for the module, in their order. -/
def moduleNames (events : List Event) : List String :=
  events.zipIdx.filterMap fun entry => moduleName? (openScopes (events.take entry.2)) entry.1

theorem ofModule_iff (scopes : List OpenScope) (kind : DeclarationKind) :
    ofModule scopes kind = true ↔ holder scopes kind = none := by
  cases kind with
  | lexical => simp [ofModule, holder]
  | var =>
    have hkind (s : OpenScope) : s.kind = .block ↔ ¬s.kind = .function := by
      cases s.kind <;> decide
    simp [ofModule, holder, hkind]

theorem moduleName?_eq (scopes : List OpenScope) (event : Event) :
    moduleName? scopes event =
      ((declaration? scopes event).filter fun d => isOpen [] d.held).map Declaration.name := by
  cases event with
  | declare name kind =>
    have hopen : isOpen [] (holder scopes kind) = ofModule scopes kind := by
      rw [Bool.eq_iff_iff, ofModule_iff]
      cases holder scopes kind <;> simp [isOpen]
    simp only [moduleName?, declaration?, Option.filter_some, hopen]
    split <;> rfl
  | enter _ _ | exit _ | chain _ => rfl

theorem map_inForce_eq_moduleNames {events : List Event} (h : openScopes events = []) :
    (inForce events).map Declaration.name = moduleNames events := by
  unfold inForce declarations moduleNames
  rw [h, List.filter_filterMap, List.map_filterMap]
  apply List.filterMap_congr
  intro entry _
  exact (moduleName?_eq _ _).symm

theorem openScopes_eq_nil_of_nested {before rest : List Event} (h : Nested (openScopes before).length rest) :
    openScopes (before ++ rest) = [] := by
  induction rest generalizing before with
  | nil =>
    rw [List.append_nil]
    exact List.length_eq_zero_iff.mp h
  | cons event rest ih =>
    rw [List.append_cons]
    exact ih h.snoc

end Event

/-! ## The end of a parse -/

namespace Scope

theorem Tracks.eq_of_closed {events : List Event} {scope : Scope} (h : Tracks events scope)
    (hclosed : Event.openScopes events = []) :
    scope = { locals := (Event.moduleNames events).map fun name => ⟨name, 0⟩ } := by
  have hlocals : scope.locals = (Event.moduleNames events).map fun name => ⟨name, 0⟩ := by
    rw [h.locals, ← Event.map_inForce_eq_moduleNames hclosed, List.map_map]
    apply List.map_congr_left
    intro d _
    exact congrArg (Local.mk d.name) (Nat.le_zero.mp (hclosed ▸ depthOf_le _ d.held))
  have hdepth := h.depth
  have hfunctions := h.functionDepths
  rw [hclosed] at hdepth hfunctions
  obtain ⟨locals, depth, functionDepths⟩ := scope
  cases hlocals
  cases hdepth
  cases hfunctions
  rfl

end Scope

namespace Recognizer

variable {r : Recognizer} {site : Site}

theorem KeepsScope.tracks_of_run (h : r.KeepsScope) {before rest : List Event} {draft after : Draft}
    (htracks : Scope.Tracks before draft.scope) (hnested : Event.Nested (Event.openScopes before).length rest)
    (hrun : (r.parseEvents rest).run site draft = (.ok (), after)) :
    Scope.Tracks (before ++ rest) after.scope := by
  induction rest generalizing before draft with
  | nil =>
    cases hrun
    rwa [List.append_nil]
  | cons event rest ih =>
    have hafter := htracks.after hnested
    rw [List.append_cons]
    cases hevent : event.chain? with
    | none =>
      rw [run_parseEvents_other r site hevent] at hrun
      exact ih hafter hnested.snoc hrun
    | some c =>
      obtain rfl := Event.chain?_eq_some_iff.mp hevent
      rw [run_parseEvents_chain, run_dispatch] at hrun
      have hscope := h.offerUnless (draft.scope.isLocal c.root.text) c site draft
      generalize (r.offerUnless _ c).run site draft = outcome at hrun hscope
      rcases outcome with ⟨_ | flow, reached⟩
      · cases hrun
      · refine ih ?_ hnested.snoc hrun
        rw [hscope]
        exact hafter

end Recognizer

/-- Where a source is walked, the scopes that open and close are its braces, one for one, no more are
left than have been entered, and in the end all are. The events that stand for text stand for parts of it
that lie one behind the other. So a parse whose handlers leave the scope alone ends outside every scope,
with the names of the module and no others. -/
theorem scopes_cancel_out {source : String} {events : List Event} (h : Event.ofSource source = .ok events) :
    events.filterMap Event.brace? = (Token.ofSource source).filterMap Token.brace? ∧
    (∀ n, (events.take n).countP Event.isExit ≤ (events.take n).countP Event.isEnter) ∧
    events.countP Event.isExit = events.countP Event.isEnter ∧
    (∀ s ∈ Event.spans events, s.start < s.stop) ∧
    (Event.spans events).Pairwise (fun a b => a.stop ≤ b.start) ∧
    ∀ r : Recognizer, r.KeepsScope → ∀ site after,
      (r.parse source).run site site.draft = (.ok (), after) →
        after.scope =
          { locals := (Event.moduleNames events).map fun name => ⟨name, 0⟩, depth := 0, functionDepths := [] } := by
  have hnested := Event.nested_ofSource h
  have hinOrder := Event.eventsInOrder_ofSource h
  refine ⟨Event.filterMap_brace?_ofSource h, hnested.countP_exit_le, hnested.countP_exit, hinOrder.nonempty,
    hinOrder.ordered, ?_⟩
  intro r hkeeps site after hrun
  unfold Recognizer.parse at hrun
  rw [h] at hrun
  have hwhole : Event.Nested (Event.openScopes []).length events := hnested
  have htracks := hkeeps.tracks_of_run Scope.tracks_nil hwhole hrun
  exact htracks.eq_of_closed (Event.openScopes_eq_nil_of_nested hwhole)

/-- Names of the module, of a block and of a function, with an object in a substitution. -/
def nestedSource : String := "let a;\x7bvar b;let c\x7dfunction f(d)\x7bvar e;\x60$\x7b\x7b\x7d\x7d\x60\x7d"

def nestedEvents : List Event := (Event.ofSource nestedSource).toOption.getD []

theorem ofSource_nestedSource : Event.ofSource nestedSource = .ok nestedEvents := by
  decide +kernel

/-- The name declared by `var` in the block stays, and the braces of the substitution are not those of
scopes. -/
theorem scopes_cancel_out_nested :
    Event.ofSource nestedSource = .ok nestedEvents ∧ plainRecognizer.KeepsScope ∧
    (nestedEvents.filterMap Event.brace?).map Brace.opens = [true, false, true, true, false, false] ∧
    (nestedEvents.filterMap Event.brace?) = (Token.ofSource nestedSource).filterMap Token.brace? ∧
    ((plainRecognizer.parse nestedSource).run plainSite plainSite.draft).2.scope =
      { locals := [⟨"a", 0⟩, ⟨"b", 0⟩, ⟨"f", 0⟩] } := by
  have hkeeps := Environment.keepsScope_apply {} plainBuild
  have hrun : ((plainRecognizer.parse nestedSource).run plainSite plainSite.draft).1 = .ok () := by
    unfold Recognizer.parse
    rw [ofSource_nestedSource]
    decide +kernel
  have hnames : Event.moduleNames nestedEvents = ["a", "b", "f"] := by decide +kernel
  obtain ⟨hbraces, -, -, -, -, hparse⟩ := scopes_cancel_out ofSource_nestedSource
  refine ⟨ofSource_nestedSource, hkeeps, by decide +kernel, hbraces, ?_⟩
  rw [hparse plainRecognizer hkeeps plainSite _ (Prod.ext hrun rfl), hnames]
  rfl

end Nodeless
