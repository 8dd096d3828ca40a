import Nodeless.Environment
import Nodeless.Proofs.Build.Leads
import Nodeless.Proofs.Build.Orderly
import Nodeless.Proofs.Event.Paths

/-!
# The handlers of the environment

Which handlers the environment registers, by the names in their paths, and what each of them does to
a draft.
-/

namespace Nodeless.Environment

/-! ## Texts -/

def filenameText (option : FilenameOption) (build : BuildContext) (m : Module) : Option String :=
  match option with
  | .off => none
  | .mock => some (Literal.text mockFilename).source
  | .relative => some (relativeFilename build m).source

def dirnameText (option : DirnameOption) (build : BuildContext) (m : Module) : Option String :=
  match option with
  | .off => none
  | .mock => some (Literal.text mockDirname).source
  | .mockAbsolute => absoluteDirname build m
  | .relative => (relativeDirname build m).map Literal.source

/-! ## Handlers -/

/-- Binds a name to a text of the module, where there is one. -/
def textBinder (name : String) (text : BuildContext → Module → Option String) : Handler := fun _ => do
  let site ← read
  match site.module.bind (text site.build) with
  | none => return .declined
  | some text =>
    Hook.bindName name text
    return .handled

def filenameHandlers (option : FilenameOption) : List (List String × Handler) :=
  if option = .off then [] else [(["__filename"], textBinder "__filename" (filenameText option))]

def dirnameHandlers (option : DirnameOption) : List (List String × Handler) :=
  if option = .off then [] else [(["__dirname"], textBinder "__dirname" (dirnameText option))]

/-- The handlers of the environment with the names in their paths. -/
def handlers (options : Options) : List (List String × Handler) :=
  filenameHandlers options.filename ++ dirnameHandlers options.dirname ++
    [(["require", "main"], replaceMain), (["require", "extensions"], replaceExtensions),
      (["module", "exports"], keep), (["module", "loaded"], keep), (["module", "id"], keep),
      (["module"], textBinder "module" fun build m => some (shimCall build m))]

theorem handlers_apply_eq_append (options : Options) (c : Compiler) :
    (apply options c).recognizer.handlers =
      c.recognizer.handlers ++ (handlers options).map fun entry => (".".intercalate entry.1, entry.2) := by
  obtain ⟨filename, dirname⟩ := options
  cases filename <;> cases dirname <;>
  · simp only [apply, registerModule, registerRequire, registerDirname, registerFilename, List.foldl_cons,
      List.foldl_nil, Recognizer.bindLiteral, Recognizer.bindModuleLiteral, Recognizer.bindModuleText,
      Recognizer.onChain, Recognizer.onEvaluate, List.append_assoc]
    rfl

theorem handlers_apply (options : Options) (build : BuildContext) :
    (apply options { build }).recognizer.handlers =
      (handlers options).map fun entry => (".".intercalate entry.1, entry.2) :=
  handlers_apply_eq_append options { build }

theorem undotted_handlers (options : Options) : ∀ entry ∈ handlers options, Undotted entry.1 := by
  obtain ⟨filename, dirname⟩ := options
  cases filename <;> cases dirname <;> decide

/-! ## Handlers by names -/

def handlersAt (options : Options) (names : List String) : List Handler :=
  ((handlers options).filter fun entry => entry.1 = names).map (·.2)

theorem handlersFor_apply (options : Options) (build : BuildContext) {c : Chain} (hc : c.InOrder) :
    (apply options { build }).recognizer.handlersFor c.path = handlersAt options c.names :=
  Recognizer.handlersFor_of_names (handlers_apply options build) (undotted_handlers options) hc

def knownNames : List (List String) :=
  [["__filename"], ["__dirname"], ["require", "main"], ["require", "extensions"],
    ["module", "exports"], ["module", "loaded"], ["module", "id"], ["module"]]

theorem handlersAt_of_not_mem (options : Options) {names : List String} (h : names ∉ knownNames) :
    handlersAt options names = [] := by
  have hknown : ∀ entry ∈ handlers options, entry.1 ∈ knownNames := by
    obtain ⟨filename, dirname⟩ := options
    cases filename <;> cases dirname <;> decide
  unfold handlersAt
  rw [List.map_eq_nil_iff, List.filter_eq_nil_iff]
  intro entry hentry heq
  rw [decide_eq_true_iff] at heq
  exact h (heq ▸ hknown entry hentry)

/-- The handlers that bind a name to a text, where there may be none if there is no text. -/
def BindsTo (handlers : List Handler) (name : String) (text : BuildContext → Module → Option String) : Prop :=
  handlers = [textBinder name text] ∨ handlers = [] ∧ ∀ build m, text build m = none

theorem bindsTo_filename (options : Options) :
    BindsTo (handlersAt options ["__filename"]) "__filename" (filenameText options.filename) := by
  obtain ⟨filename, dirname⟩ := options
  cases filename with
  | off => exact .inr ⟨by cases dirname <;> rfl, fun _ _ => rfl⟩
  | mock | relative => exact .inl (by cases dirname <;> rfl)

theorem bindsTo_dirname (options : Options) :
    BindsTo (handlersAt options ["__dirname"]) "__dirname" (dirnameText options.dirname) := by
  obtain ⟨filename, dirname⟩ := options
  cases dirname with
  | off => exact .inr ⟨by cases filename <;> rfl, fun _ _ => rfl⟩
  | mock | mockAbsolute | relative => exact .inl (by cases filename <;> rfl)

theorem bindsTo_module (options : Options) :
    BindsTo (handlersAt options ["module"]) "module" fun build m => some (shimCall build m) := by
  obtain ⟨filename, dirname⟩ := options
  exact .inl (by cases filename <;> cases dirname <;> rfl)

theorem handlersAt_main (options : Options) : handlersAt options ["require", "main"] = [replaceMain] := by
  obtain ⟨filename, dirname⟩ := options
  cases filename <;> cases dirname <;> rfl

theorem handlersAt_extensions (options : Options) :
    handlersAt options ["require", "extensions"] = [replaceExtensions] := by
  obtain ⟨filename, dirname⟩ := options
  cases filename <;> cases dirname <;> rfl

theorem handlersAt_kept (options : Options) {member : String} (h : member ∈ ["exports", "loaded", "id"]) :
    handlersAt options ["module", member] = [keep] := by
  simp only [List.mem_cons, List.not_mem_nil, or_false] at h
  obtain ⟨filename, dirname⟩ := options
  rcases h with rfl | rfl | rfl <;> cases filename <;> cases dirname <;> rfl

/-! ## What the handlers do -/

section

variable {site : Site} {m : Module} {draft : Draft}

def bound (draft : Draft) (name : String) (text : Option String) : Draft :=
  text.elim draft fun text => { draft with bindings := draft.bindings.insert name text }

theorem run_textBinder (h : site.module = some m) (name : String) (text : BuildContext → Module → Option String)
    (c : Chain) :
    ∃ flow, (textBinder name text c).run site draft = (.ok flow, bound draft name (text site.build m)) := by
  unfold textBinder
  rw [Hook.run_bind_of_ok (Hook.run_read site draft), h, Option.bind_some]
  cases text site.build m with
  | none => exact ⟨.declined, rfl⟩
  | some found => exact ⟨.handled, rfl⟩

theorem BindsTo.run_offer {handlers : List Handler} {name : String}
    {text : BuildContext → Module → Option String} (hbinds : BindsTo handlers name text)
    (h : site.module = some m) (c : Chain) :
    ∃ flow, (Recognizer.offer c handlers).run site draft =
      (.ok flow, bound draft name (text site.build m)) := by
  rcases hbinds with rfl | ⟨rfl, hnone⟩
  · obtain ⟨flow, hrun⟩ := run_textBinder h name text c
    exact ⟨flow, Recognizer.run_offer_singleton hrun⟩
  · rw [hnone]
    exact ⟨.declined, rfl⟩

theorem run_replaceMain (h : site.module = some m) {c : Chain}
    (hclear : Module.conflict? draft.dependencies c.span = none) :
    (replaceMain c).run site draft =
      (.ok .handled, { draft with
        dependencies := draft.dependencies ++
          [{ span := c.span, text := entryModule, location := c.location }] }) :=
  Hook.run_replace_of_clear h hclear entryModule c.location

theorem run_replaceExtensions (h : site.module = some m) {c : Chain}
    (hclear : Module.conflict? draft.dependencies c.span = none) :
    (replaceExtensions c).run site draft =
      (.ok .handled, { draft with
        dependencies := draft.dependencies ++
          [{ span := c.span, text := neutral, location := c.location }]
        warnings := draft.warnings ++
          [{ module := m.identifier, message := extensionsWarning, location := c.location }] }) := by
  unfold replaceExtensions
  rw [Hook.run_bind_of_ok (Hook.run_replace_of_clear h hclear neutral c.location), if_pos rfl,
    Hook.run_bind_of_ok (Hook.run_warn h extensionsWarning c.location)]
  rfl

end

/-! ## Where they lead -/

/-- The names that the environment may bind, and what it binds them to. -/
inductive Binder (options : Options) : String → (BuildContext → Module → Option String) → Prop
  | filename : Binder options "__filename" (filenameText options.filename)
  | dirname : Binder options "__dirname" (dirnameText options.dirname)
  | module : Binder options "module" fun build m => some (shimCall build m)

inductive Own (options : Options) : Handler → Prop
  | binder {name : String} {text : BuildContext → Module → Option String} (h : Binder options name text) :
      Own options (textBinder name text)
  | main : Own options replaceMain
  | extensions : Own options replaceExtensions
  | keep : Own options keep

theorem own_handlers (options : Options) : ∀ entry ∈ handlers options, Own options entry.2 := by
  unfold handlers filenameHandlers dirnameHandlers
  simp only [List.forall_mem_append, List.forall_mem_cons, List.not_mem_nil, false_implies, implies_true,
    and_true]
  refine ⟨⟨?_, ?_⟩, .main, .extensions, .keep, .keep, .keep, .binder .module⟩
  · split
    · simp
    · simpa using .binder .filename
  · split
    · simp
    · simpa using .binder .dirname

section

variable {options : Options} {site : Site} {R : Draft → Draft → Prop}

theorem leads_textBinder (hR : Draft.Carries R) (name : String) (text : BuildContext → Module → Option String)
    (hbind : ∀ build m value, text build m = some value →
      ∀ draft, R draft { draft with bindings := draft.bindings.insert name value })
    (chain : Chain) : (textBinder name text chain).Leads site R := by
  intro draft
  unfold textBinder
  rw [Hook.run_bind_of_ok (Hook.run_read site draft)]
  split
  · exact hR.refl draft
  · rename_i value hvalue
    obtain ⟨m, -, hvalue⟩ := Option.bind_eq_some_iff.mp hvalue
    exact hbind site.build m value hvalue draft

theorem Own.leads (hR : Draft.Carries R)
    (hbind : ∀ {name text}, Binder options name text → ∀ build m value, text build m = some value →
      ∀ draft, R draft { draft with bindings := draft.bindings.insert name value })
    (hdependencies : ∀ draft dependencies, R draft { draft with dependencies })
    (hwarnings : ∀ draft warnings, R draft { draft with warnings }) {handler : Handler} (h : Own options handler)
    (chain : Chain) : (handler chain).Leads site R := by
  cases h with
  | binder h => exact leads_textBinder hR _ _ (hbind h) chain
  | main => exact Hook.leads_replace hR hdependencies _ _ _
  | extensions =>
    refine (Hook.leads_replace hR hdependencies _ _ _).bind hR fun flow => ?_
    split
    · exact (Hook.leads_warn hR hwarnings _ _).bind hR fun _ => Hook.leads_pure hR _
    · exact Hook.leads_pure hR _
  | keep => exact Hook.leads_pure hR _

end

/-! ## They are orderly -/

theorem orderly_replaceExtensions : Handler.Orderly replaceExtensions := by
  intro chain site draft
  unfold replaceExtensions
  cases hm : site.module with
  | none =>
    rw [Hook.run_bind_of_ok (Hook.run_replace_of_none hm neutral chain.span chain.location)]
    exact .declines rfl
  | some m =>
    cases hconflict : Module.conflict? draft.dependencies chain.span with
    | none =>
      have hrun := Hook.run_replace_of_clear hm hconflict neutral chain.location
      rw [Hook.run_bind_of_ok hrun, if_pos rfl, Hook.run_bind_of_ok (Hook.run_warn hm _ _)]
      exact .replaces neutral chain.location rfl hrun rfl
    | some taken =>
      have hrun := Hook.run_replace_of_conflict hm hconflict neutral chain.location
      rw [Hook.run_bind, hrun]
      exact .refused neutral chain.location _ rfl hrun rfl

theorem orderly_registerFilename (option : FilenameOption) {r : Recognizer} (h : r.Orderly) :
    (registerFilename option r).Orderly := by
  cases option with
  | mock | relative => exact (h.bindModuleText _ _).onEvaluate _ _
  | off => exact h.onEvaluate _ _

theorem orderly_registerDirname (option : DirnameOption) {r : Recognizer} (h : r.Orderly) :
    (registerDirname option r).Orderly := by
  cases option with
  | mock | mockAbsolute | relative => exact (h.bindModuleText _ _).onEvaluate _ _
  | off => exact h.onEvaluate _ _

theorem orderly_registerModule {r : Recognizer} (h : r.Orderly) : (registerModule r).Orderly := by
  have hkeep : Handler.Orderly keep := fun _ _ _ => .handles rfl
  have hkept := ((h.onChain "module.exports" hkeep).onChain "module.loaded" hkeep).onChain "module.id" hkeep
  exact (hkept.onEvaluate _ _).bindModuleText _ _

theorem orderly_apply (options : Options) {c : Compiler} (h : c.recognizer.Orderly) :
    (apply options c).recognizer.Orderly := by
  have hnames := orderly_registerDirname options.dirname (orderly_registerFilename options.filename h)
  have hmain := hnames.onChain "require.main" (orderly_replace entryModule fun chain => some chain.location)
  exact orderly_registerModule (hmain.onChain "require.extensions" orderly_replaceExtensions)

end Nodeless.Environment
