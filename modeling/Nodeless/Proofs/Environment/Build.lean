import Mathlib.Data.List.Basic
import Nodeless.Proofs.Build.Orderly
import Nodeless.Proofs.Environment.Handlers
import Nodeless.Proofs.Scope.Free

/-!
# Builds with the environment set up

What a build leaves in a module can be told from the free chains of its source: which of them are
replaced, what is warned of, and which names are bound to what.
-/

namespace Nodeless.Environment

/-! ## What free chains come to -/

def firstTwo (c : Chain) : Chain := { c with members := c.members.take 1 }

def replacementText (c : Chain) : Option String :=
  if c.names.take 2 = ["require", "main"] then some entryModule
  else if c.names.take 2 = ["require", "extensions"] then some neutral
  else none

def replacement (c : Chain) : Option Dependency :=
  (replacementText c).map fun text => { span := (firstTwo c).span, text, location := (firstTwo c).location }

/-- One warning for each replacement that leaves no value. -/
def warnings (m : Module) (dependencies : List Dependency) : List Warning :=
  (dependencies.filter fun d => d.text = neutral).map fun d =>
    { module := m.identifier, message := extensionsWarning, location := d.location }

/-- Whether a chain reads a member of the module object that the bundle provides. -/
def readsMember (c : Chain) : Bool :=
  [["module", "exports"], ["module", "loaded"], ["module", "id"]].contains (c.names.take 2)

/-- Whether a chain needs its root to be bound, and the root is `name`. -/
def uses (name : String) (c : Chain) : Bool := c.root.text = name && !readsMember c

/-- What the environment binds a name to, if it binds it. -/
def textOf (options : Options) (build : BuildContext) (m : Module) (name : String) : Option String :=
  if name = "__dirname" then dirnameText options.dirname build m
  else if name = "__filename" then filenameText options.filename build m
  else if name = "module" then some (shimCall build m)
  else none

def boundNames : List String := ["__dirname", "__filename", "module"]

/-- The bindings that chains ask for, in the order of their names. -/
def boundEntries (options : Options) (build : BuildContext) (m : Module) (chains : List Chain) :
    List (String × String) :=
  boundNames.filterMap fun name =>
    (if chains.any (uses name) then textOf options build m name else none).map (Prod.mk name)

/-! ## Bindings in order -/

theorem insertEntry_of_lt {name text : String} {entries : List (String × String)}
    (h : ∀ entry ∈ entries, name < entry.1) :
    Bindings.insertEntry name text entries = (name, text) :: entries := by
  cases entries with
  | nil => rfl
  | cons entry entries => rw [Bindings.insertEntry, if_pos (h entry List.mem_cons_self)]

theorem insertEntry_filterMap {names : List String} (hsorted : names.Pairwise (· < ·))
    (texts : String → Option String) {name : String} (hname : name ∈ names) (text : String) :
    Bindings.insertEntry name text (names.filterMap fun n => (texts n).map (Prod.mk n)) =
      names.filterMap fun n => (if n = name then some text else texts n).map (Prod.mk n) := by
  induction names with
  | nil => cases hname
  | cons first names ih =>
    obtain ⟨hfirst, hrest⟩ := List.pairwise_cons.mp hsorted
    have hbehind : ∀ entry ∈ names.filterMap fun n => (texts n).map (Prod.mk n), first < entry.1 := by
      intro entry hentry
      obtain ⟨n, hn, hmap⟩ := List.mem_filterMap.mp hentry
      obtain ⟨_, -, rfl⟩ := Option.map_eq_some_iff.mp hmap
      exact hfirst n hn
    by_cases heq : first = name
    · subst heq
      have hothers : (names.filterMap fun n => (if n = first then some text else texts n).map (Prod.mk n)) =
          names.filterMap fun n => (texts n).map (Prod.mk n) := by
        apply List.filterMap_congr
        intro n hn
        rw [if_neg]
        rintro rfl
        exact String.lt_irrefl _ (hfirst _ hn)
      rw [List.filterMap_cons, List.filterMap_cons, hothers, if_pos rfl]
      cases texts first with
      | none => exact insertEntry_of_lt hbehind
      | some held =>
        simp only [Option.map_some, Bindings.insertEntry, String.lt_irrefl, if_false, if_true]
    · have hmem : name ∈ names := (List.mem_cons.mp hname).resolve_left fun h => heq h.symm
      have hlt := hfirst name hmem
      rw [List.filterMap_cons, List.filterMap_cons, if_neg heq]
      cases texts first with
      | none => exact ih hrest hmem
      | some held =>
        simp only [Option.map_some, Bindings.insertEntry, if_neg (String.lt_asymm hlt), if_neg (Ne.symm heq),
          ih hrest hmem]

theorem uses_of_readsMember {c : Chain} (h : readsMember c = true) (name : String) : uses name c = false := by
  unfold uses
  rw [h, Bool.not_true, Bool.and_false]

theorem uses_iff {c : Chain} (h : readsMember c = false) (name : String) :
    uses name c = true ↔ name = c.root.text := by
  unfold uses
  rw [h, Bool.not_false, Bool.and_true, decide_eq_true_iff, eq_comm]

theorem mem_boundNames_of_textOf {options : Options} {build : BuildContext} {m : Module} {name text : String}
    (h : textOf options build m name = some text) : name ∈ boundNames := by
  unfold textOf at h
  split at h
  · subst name
    decide
  · split at h
    · subst name
      decide
    · split at h
      · subst name
        decide
      · cases h

section

variable {options : Options} {build : BuildContext} {m : Module}

theorem boundEntries_snoc (chains : List Chain) (c : Chain) :
    boundEntries options build m (chains ++ [c]) =
      match if readsMember c then none else textOf options build m c.root.text with
      | none => boundEntries options build m chains
      | some text => Bindings.insertEntry c.root.text text (boundEntries options build m chains) := by
  have hany (name : String) : (chains ++ [c]).any (uses name) = (chains.any (uses name) || uses name c) := by
    simp
  unfold boundEntries
  simp only [hany]
  cases hread : readsMember c with
  | true => simp only [uses_of_readsMember hread, Bool.or_false, if_true]
  | false =>
    simp only [Bool.false_eq_true, if_false]
    cases htext : textOf options build m c.root.text with
    | none =>
      apply List.filterMap_congr
      intro name _
      by_cases heq : name = c.root.text
      · subst heq
        simp [htext]
      · have hno : uses name c = false := Bool.eq_false_iff.mpr fun h => heq ((uses_iff hread name).mp h)
        rw [hno, Bool.or_false]
    | some text =>
      have hsorted : boundNames.Pairwise (· < ·) := by decide
      dsimp only
      rw [insertEntry_filterMap hsorted _ (mem_boundNames_of_textOf htext)]
      apply List.filterMap_congr
      intro name _
      by_cases heq : name = c.root.text
      · subst heq
        rw [(uses_iff hread _).mpr rfl, Bool.or_true, if_pos rfl, if_pos rfl, htext]
      · have hno : uses name c = false := Bool.eq_false_iff.mpr fun h => heq ((uses_iff hread name).mp h)
        rw [hno, Bool.or_false, if_neg heq]

/-! ## One chain -/

variable {draft : Draft}

def shown (options : Options) (build : BuildContext) (m : Module) (draft : Draft) (c : Chain) : Draft :=
  let found := (replacement c).toList
  bound { draft with
      dependencies := draft.dependencies ++ found
      warnings := draft.warnings ++ warnings m found }
    c.root.text (if readsMember c then none else textOf options build m c.root.text)

theorem run_offer_root (c : Chain) (name : String) :
    ∃ flow, (Recognizer.offer c (handlersAt options [name])).run ⟨build, some m⟩ draft =
      (.ok flow, bound draft name (textOf options build m name)) := by
  unfold textOf
  split
  · subst name
    exact (bindsTo_dirname options).run_offer rfl c
  · split
    · subst name
      exact (bindsTo_filename options).run_offer rfl c
    · split
      · subst name
        exact (bindsTo_module options).run_offer rfl c
      · rename_i hdirname hfilename hmodule
        have hunknown : [name] ∉ knownNames := by simp [knownNames, hdirname, hfilename, hmodule]
        rw [handlersAt_of_not_mem options hunknown]
        exact ⟨.declined, rfl⟩

theorem run_offerEach_root {root : Name} (h : Chain.InOrder ⟨root, []⟩) :
    ∃ flow, ((apply options { build }).recognizer.offerEach [⟨root, []⟩]).run ⟨build, some m⟩ draft =
      (.ok flow, bound draft root.text (textOf options build m root.text)) := by
  obtain ⟨flow, hrun⟩ : ∃ flow, (Recognizer.offer ⟨root, []⟩ (handlersAt options [root.text])).run _ _ = _ :=
    run_offer_root ⟨root, []⟩ root.text
  refine ⟨flow, ?_⟩
  rw [show [root.text] = Chain.names ⟨root, []⟩ from rfl, ← handlersFor_apply options build h] at hrun
  rw [Recognizer.run_offerEach_cons hrun]
  cases flow <;> rfl

theorem run_offerEach_handled {root second : Name} (h : Chain.InOrder ⟨root, [second]⟩) {handler : Handler}
    (hhandlers : handlersAt options [root.text, second.text] = [handler]) {after : Draft}
    (hrun : (handler ⟨root, [second]⟩).run ⟨build, some m⟩ draft = (.ok .handled, after))
    (chains : List Chain) :
    ((apply options { build }).recognizer.offerEach (⟨root, [second]⟩ :: chains)).run ⟨build, some m⟩ draft =
      (.ok .handled, after) := by
  have hoffer := Recognizer.run_offer_singleton hrun
  have hfor := handlersFor_apply options build h
  rw [show Chain.names ⟨root, [second]⟩ = [root.text, second.text] from rfl, hhandlers] at hfor
  rw [← hfor] at hoffer
  exact Recognizer.run_offerEach_cons hoffer chains

theorem shown_main {root second : Name} (rest : List Name) (hroot : root.text = "require")
    (hsecond : second.text = "main") :
    shown options build m draft ⟨root, second :: rest⟩ =
      { draft with dependencies := draft.dependencies ++
          [{ span := Chain.span ⟨root, [second]⟩, text := entryModule
             location := Chain.location ⟨root, [second]⟩ }] } := by
  have htext : ¬entryModule = neutral := by decide
  simp [shown, bound, replacement, replacementText, firstTwo, readsMember, textOf, warnings, Chain.names, hroot,
    hsecond, htext]

theorem shown_extensions {root second : Name} (rest : List Name) (hroot : root.text = "require")
    (hsecond : second.text = "extensions") :
    shown options build m draft ⟨root, second :: rest⟩ =
      { draft with
        dependencies := draft.dependencies ++
          [{ span := Chain.span ⟨root, [second]⟩, text := neutral
             location := Chain.location ⟨root, [second]⟩ }]
        warnings := draft.warnings ++
          [{ module := m.identifier, message := extensionsWarning
             location := Chain.location ⟨root, [second]⟩ }] } := by
  simp [shown, bound, replacement, replacementText, firstTwo, readsMember, textOf, warnings, Chain.names, hroot,
    hsecond]

theorem shown_kept {root second : Name} (rest : List Name) (hroot : root.text = "module")
    (hsecond : second.text ∈ ["exports", "loaded", "id"]) :
    shown options build m draft ⟨root, second :: rest⟩ = draft := by
  have hread : readsMember ⟨root, second :: rest⟩ = true := by
    simpa [readsMember, Chain.names, hroot] using hsecond
  simp [shown, bound, replacement, replacementText, warnings, Chain.names, hroot, hread]

theorem shown_of_not_mem {root second : Name} (rest : List Name) (h : [root.text, second.text] ∉ knownNames) :
    shown options build m draft ⟨root, second :: rest⟩ =
      bound draft root.text (textOf options build m root.text) := by
  simp only [knownNames, List.mem_cons, List.cons.injEq, List.not_mem_nil, not_or, and_true, reduceCtorEq,
    and_false, not_false_eq_true, true_and, or_false] at h
  obtain ⟨hmain, hextensions, hexports, hloaded, hid⟩ := h
  simp [shown, replacement, replacementText, readsMember, warnings, Chain.names, hmain, hextensions,
    hexports, hloaded, hid]

theorem run_offerEach_two {root second : Name} (rest : List Name) (h : Chain.InOrder ⟨root, [second]⟩)
    (hroot : Chain.InOrder ⟨root, []⟩)
    (hclear : Module.conflict? draft.dependencies (Chain.span ⟨root, [second]⟩) = none) :
    ∃ flow, ((apply options { build }).recognizer.offerEach [⟨root, [second]⟩, ⟨root, []⟩]).run
      ⟨build, some m⟩ draft = (.ok flow, shown options build m draft ⟨root, second :: rest⟩) := by
  by_cases hknown : [root.text, second.text] ∈ knownNames
  · simp only [knownNames, List.mem_cons, List.cons.injEq, List.not_mem_nil, and_true, reduceCtorEq, and_false,
      or_false, false_or] at hknown
    refine ⟨.handled, ?_⟩
    rcases hknown with ⟨hfirst, hsecond⟩ | ⟨hfirst, hsecond⟩ | hknown
    · rw [shown_main rest hfirst hsecond]
      refine run_offerEach_handled h ?_ (run_replaceMain rfl hclear) _
      rw [hfirst, hsecond, handlersAt_main]
    · rw [shown_extensions rest hfirst hsecond]
      refine run_offerEach_handled h ?_ (run_replaceExtensions rfl hclear) _
      rw [hfirst, hsecond, handlersAt_extensions]
    · have hfirst : root.text = "module" := by
        rcases hknown with ⟨hfirst, -⟩ | ⟨hfirst, -⟩ | ⟨hfirst, -⟩ <;> exact hfirst
      have hsecond : second.text ∈ ["exports", "loaded", "id"] := by
        rcases hknown with ⟨-, hsecond⟩ | ⟨-, hsecond⟩ | ⟨-, hsecond⟩ <;> simp [hsecond]
      rw [shown_kept rest hfirst hsecond]
      have hkeep : (keep ⟨root, [second]⟩).run ⟨build, some m⟩ draft = (.ok .handled, draft) := rfl
      refine run_offerEach_handled h ?_ hkeep _
      rw [hfirst, handlersAt_kept options hsecond]
  · rw [shown_of_not_mem rest hknown]
    have hnone : (apply options { build }).recognizer.handlersFor (Chain.path ⟨root, [second]⟩) = [] :=
      (handlersFor_apply options build h).trans (handlersAt_of_not_mem options hknown)
    rw [← List.singleton_append, Recognizer.run_offerEach_append (by simpa using hnone)]
    exact run_offerEach_root hroot

variable (options build m) in
/-- A chain and the chains it starts with leave one thing together, whatever their handlers are. -/
theorem run_offerEach_prefixes {c : Chain} (hc : c.InOrder)
    (hclear : ∀ p ∈ c.prefixes, Module.conflict? draft.dependencies p.span = none) :
    ∃ flow, ((apply options { build }).recognizer.offerEach c.prefixes).run ⟨build, some m⟩ draft =
      (.ok flow, shown options build m draft c) := by
  obtain ⟨root, members⟩ := c
  have hroot : Chain.InOrder ⟨root, []⟩ := hc.take 0
  cases members with
  | nil =>
    have hshown : shown options build m draft ⟨root, []⟩ =
        bound draft root.text (textOf options build m root.text) := by
      simp [shown, replacement, replacementText, readsMember, Chain.names, warnings]
    rw [hshown]
    exact run_offerEach_root hroot
  | cons second rest =>
    have htwo : Chain.InOrder ⟨root, [second]⟩ := hc.take 1
    have hmem : ⟨root, [second]⟩ ∈ Chain.prefixes ⟨root, second :: rest⟩ := by
      rw [Chain.prefixes_of_member]
      simp
    have hlonger : ∀ p ∈ (List.range rest.length).reverse.map
        fun n => (⟨root, second :: rest.take (n + 1)⟩ : Chain),
        (apply options { build }).recognizer.handlersFor p.path = [] := by
      intro p hp
      obtain ⟨n, hn, rfl⟩ := List.mem_map.mp hp
      have hlong : Chain.InOrder ⟨root, second :: rest.take (n + 1)⟩ := hc.take (n + 2)
      rw [handlersFor_apply options build hlong]
      apply handlersAt_of_not_mem
      -- No handler is registered under three names or more.
      intro hknown
      have hlength : ∀ names ∈ knownNames, names.length ≤ 2 := by decide
      have hle := hlength _ hknown
      rw [List.mem_reverse, List.mem_range] at hn
      simp only [Chain.names, List.length_map, List.length_cons, List.length_take] at hle
      omega
    rw [Chain.prefixes_of_member, Recognizer.run_offerEach_append hlonger]
    exact run_offerEach_two rest htwo hroot (hclear _ hmem)

/-! ## All chains -/

/-- The draft behind events, told from the free chains among them. -/
def drafted (options : Options) (build : BuildContext) (m : Module) (events : List Event) : Draft where
  scope := Event.scopeAfter events
  bindings := ⟨boundEntries options build m (Event.freeChains events)⟩
  dependencies := (Event.freeChains events).filterMap replacement
  warnings := warnings m ((Event.freeChains events).filterMap replacement)

theorem drafted_of_other (events : List Event) {event : Event} (h : event.chain? = none) :
    drafted options build m (events ++ [event]) = (drafted options build m events).after event := by
  unfold drafted
  rw [Event.scopeAfter_snoc, Event.freeChains_of_other events h]
  rfl

theorem drafted_of_local {events : List Event} {c : Chain}
    (h : (Event.scopeAfter events).isLocal c.root.text = true) :
    drafted options build m (events ++ [.chain c]) = drafted options build m events := by
  unfold drafted
  rw [Event.scopeAfter_snoc, Event.freeChains_of_local h]
  rfl

theorem drafted_of_free {events : List Event} {c : Chain}
    (h : ¬(Event.scopeAfter events).isLocal c.root.text = true) :
    drafted options build m (events ++ [.chain c]) =
      shown options build m (drafted options build m events) c := by
  have hfound : [c].filterMap replacement = (replacement c).toList := by
    cases hc : replacement c <;> simp [hc]
  unfold drafted shown
  rw [Event.scopeAfter_snoc, Event.freeChains_of_free h, List.filterMap_append, hfound, boundEntries_snoc]
  unfold bound warnings
  rw [List.filter_append, List.map_append]
  cases (if readsMember c then none else textOf options build m c.root.text) <;> rfl

theorem firstTwo_mem_prefixes (c : Chain) : firstTwo c ∈ c.prefixes := by
  rw [Chain.mem_prefixes_iff]
  refine ⟨min 1 c.members.length, Nat.min_le_right _ _, ?_⟩
  rw [firstTwo, ← List.take_eq_take_min]

variable (options build m) in
theorem behind_drafted {events : List Event} (hin : ∀ c ∈ Event.chains events, c.InOrder) :
    Behind events (drafted options build m events) := by
  intro d hd
  obtain ⟨c, hc, hfound⟩ := List.mem_filterMap.mp hd
  obtain ⟨text, -, rfl⟩ := Option.map_eq_some_iff.mp hfound
  have hmem := Event.mem_chains_of_mem_freeChains hc
  obtain ⟨-, -, hstart, hstop⟩ := (hin c hmem).of_mem_prefixes (firstTwo_mem_prefixes c)
  exact ⟨c, hmem, Nat.le_of_eq hstart.symm, hstop⟩

theorem run_parseEvents_apply {source : String} {events : List Event} (h : Event.ofSource source = .ok events) :
    ((apply options { build }).recognizer.parseEvents events).run ⟨build, some m⟩ {} =
      (.ok (), drafted options build m events) := by
  obtain ⟨hin, hordered⟩ := Event.chains_ofSource h
  obtain ⟨draft, hrun, rfl⟩ := Recognizer.run_parseEvents_of_invariant _ ⟨build, some m⟩
    (fun before draft => draft = drafted options build m before) events
    (by
      rintro before c after _ heq rfl
      rw [heq, Event.chains_append] at hin hordered
      have hc : c.InOrder := hin c (by simp [Event.chains, Event.chain?])
      have hbefore : ∀ a ∈ Event.chains before, a.span.stop ≤ c.span.start := by
        intro a ha
        exact (List.pairwise_append.mp hordered).2.2 a ha c (by simp [Event.chains, Event.chain?])
      rw [Recognizer.dispatch, Hook.run_bind_of_ok (Hook.run_get _ _)]
      split
      · rename_i hlocal
        exact ⟨.declined, _, rfl, (drafted_of_local hlocal).symm⟩
      · rename_i hfree
        have hbehind := behind_drafted options build m fun a ha => hin a (List.mem_append_left _ ha)
        obtain ⟨flow, hrun⟩ := run_offerEach_prefixes options build m hc (conflict?_of_behind hbehind hc hbefore)
        exact ⟨flow, _, hrun, (drafted_of_free hfree).symm⟩)
    (by
      rintro before event _ hevent rfl
      exact (drafted_of_other before hevent).symm)
    {} rfl
  exact hrun

theorem resolve_apply (dependencies : List Dependency) :
    (apply options { build }).compilation.resolve dependencies = .ok () := by
  induction dependencies with
  | nil => rfl
  | cons d dependencies ih =>
    obtain ⟨kind, span, text, location⟩ := d
    cases kind
    exact ih

end

/-- A build fails only for its source. Otherwise the free chains of the source say what it leaves. -/
theorem buildModule_of_free_chains (options : Options) (build : BuildContext) (m : Module) (source : String) :
    (apply options { build }).buildModule m source =
      match Event.ofSource source with
      | .error e => (.error (.source e), { resource := m.resource, context := m.context })
      | .ok events =>
        let chains := Event.freeChains events
        let dependencies := chains.filterMap replacement
        (.ok (), {
          resource := m.resource
          context := m.context
          dependencies
          bindings := ⟨boundEntries options build m chains⟩
          warnings := warnings m dependencies }) := by
  cases hevents : Event.ofSource source with
  | error e =>
    have hrun : ((apply options { build }).recognizer.parse source).run ⟨build, some m.reset⟩ {} =
        (.error (.source e), {}) := by
      rw [Recognizer.parse, hevents]
      rfl
    rw [Compiler.buildModule_of_error hrun]
    rfl
  | ok events =>
    have hrun : ((apply options { build }).recognizer.parse source).run ⟨build, some m.reset⟩ {} =
        (.ok (), drafted options build m.reset events) := by
      rw [Recognizer.parse, hevents]
      exact run_parseEvents_apply hevents
    rw [Compiler.buildModule_of_ok hrun, resolve_apply]
    rfl

end Nodeless.Environment
