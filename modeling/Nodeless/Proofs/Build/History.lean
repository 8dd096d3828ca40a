import Nodeless.Environment
import Nodeless.Proofs.Build.Hook
import Nodeless.Proofs.Module.Registration

/-!
# Builds and what came before them

A module can be built, changed by hand and built again, and any of that may fail half-way. The next
build starts from what the module is known by and from nothing else, and a build that fails leaves
no dependencies and no bindings.
-/

namespace Nodeless

/-! ## Changes of a module -/

/-- Something done to a module. A build or a request that is refused counts too, with what it
leaves. -/
inductive Change
  | build (c : Compiler) (source : String)
  | request (d : Dependency)
  | warn (w : Warning)

namespace Module

def after (m : Module) : Change → Module
  | .build c source => (c.buildModule m source).2
  | .request d => m.request d
  | .warn w => m.warn w

def afterAll (m : Module) (history : List Change) : Module := history.foldl after m

/-- A module that nothing has been done to, in the place of `m`. -/
def fresh (m : Module) : Module := { ofResource m.resource with context := m.context }

theorem reset_fresh (m : Module) : m.fresh.reset = m.reset := rfl

/-! ## What no change touches -/

/-- The two modules are known by the same resource and stand in the same directory. -/
def SamePlace (a b : Module) : Prop := a.resource = b.resource ∧ a.context = b.context

theorem SamePlace.reset_eq {a b : Module} (h : SamePlace a b) : a.reset = b.reset := by
  obtain ⟨hresource, hcontext⟩ := h
  rw [reset, reset, hresource, hcontext]

theorem samePlace_request (m : Module) (d : Dependency) : SamePlace (m.request d) m := by
  unfold request
  split
  · rename_i hok
    obtain ⟨-, rfl⟩ := (addDependency_eq_ok_iff _ _ _).mp hok
    exact ⟨rfl, rfl⟩
  · exact ⟨rfl, rfl⟩

end Module

namespace Compiler

variable (c : Compiler) (m : Module) (source : String)

theorem buildModule_cases :
    (∃ e draft, c.buildModule m source = (.error e, (Draft.record draft m.reset).discard)) ∨
    (∃ e draft, c.buildModule m source = (.error e, (Draft.finish draft m.reset).discard)) ∨
    ∃ draft, c.buildModule m source = (.ok (), Draft.finish draft m.reset) := by
  rcases hrun : (c.recognizer.parse source).run ⟨c.build, some m.reset⟩ {} with ⟨_ | _, draft⟩
  · exact .inl ⟨_, draft, buildModule_of_error hrun⟩
  · rw [buildModule_of_ok hrun]
    cases c.compilation.resolve draft.dependencies with
    | error e => exact .inr (.inl ⟨e, draft, rfl⟩)
    | ok => exact .inr (.inr ⟨draft, rfl⟩)

theorem samePlace_buildModule : Module.SamePlace (c.buildModule m source).2 m := by
  rcases c.buildModule_cases m source with ⟨e, draft, h⟩ | ⟨e, draft, h⟩ | ⟨draft, h⟩ <;>
  · rw [h]
    exact ⟨rfl, rfl⟩

theorem buildModule_error_keeps_nothing {e : BuildError} (h : (c.buildModule m source).1 = .error e) :
    (c.buildModule m source).2.dependencies = [] ∧ (c.buildModule m source).2.bindings = {} := by
  rcases c.buildModule_cases m source with ⟨_, _, hend⟩ | ⟨_, _, hend⟩ | ⟨_, hend⟩
  · rw [hend]
    exact ⟨rfl, rfl⟩
  · rw [hend]
    exact ⟨rfl, rfl⟩
  · rw [hend] at h
    cases h

/-- A build begins with a reset, so it reads of the module only what a reset keeps. -/
theorem buildModule_congr {m m' : Module} (h : m.reset = m'.reset) :
    c.buildModule m source = c.buildModule m' source := by
  unfold buildModule
  rw [h]

end Compiler

namespace Module

theorem samePlace_after (m : Module) (change : Change) : SamePlace (m.after change) m := by
  cases change with
  | build c source => exact c.samePlace_buildModule m source
  | request d => exact m.samePlace_request d
  | warn w => exact ⟨rfl, rfl⟩

theorem samePlace_afterAll (m : Module) (history : List Change) : SamePlace (m.afterAll history) m := by
  induction history generalizing m with
  | nil => exact ⟨rfl, rfl⟩
  | cons change history ih =>
    obtain ⟨hresource, hcontext⟩ := ih (m.after change)
    obtain ⟨hresource', hcontext'⟩ := m.samePlace_after change
    exact ⟨hresource.trans hresource', hcontext.trans hcontext'⟩

end Module

/-! ## The next build -/

/-- Whatever has been done to a module, its next build has the result and leaves the module that the
same build of a fresh module would. If it fails, at whatever point, it leaves no dependencies and no
bindings. -/
theorem buildModule_forgets_history (c : Compiler) (m : Module) (history : List Change) (source : String) :
    let built := c.buildModule (m.afterAll history) source
    built = c.buildModule m.fresh source ∧
    ∀ e, built.1 = .error e → built.2.dependencies = [] ∧ built.2.bindings = {} := by
  intro built
  constructor
  · apply c.buildModule_congr
    rw [(m.samePlace_afterAll history).reset_eq, m.reset_fresh]
  · intro e he
    exact c.buildModule_error_keeps_nothing _ source he

/-- Finds a target for every dependency but those without a value. -/
def refusesNeutral : Factory := fun d =>
  if d.text = Environment.neutral then .error (.config "no target") else .ok none

def strictCompiler : Compiler :=
  let c := Environment.apply {} { build := ⟨"/", "/module.js"⟩ }
  { c with compilation := c.compilation.setFactory .const refusesNeutral }

/-- A build that succeeds, a request that is granted and one that is not, a warning, and a build that
fails in the middle of its source. -/
def busyHistory : List Change :=
  [.build strictCompiler "module;require.main", .request { span := ⟨0, 6⟩, text := "x", location := none },
    .request { span := ⟨3, 9⟩, text := "y", location := none },
    .warn { module := "/a.js", message := "old", location := none }, .build strictCompiler "require.main \x7d"]

/-- The factory takes the first dependency and refuses the second, when the bindings are there. -/
theorem buildModule_forgets_busyHistory :
    let built := strictCompiler.buildModule ((Module.ofResource "/a.js").afterAll busyHistory)
      "module;require.main;require.extensions"
    built.1 = .error (.config "no target") ∧ built.2.warnings.length = 1 ∧
    built = strictCompiler.buildModule (Module.ofResource "/a.js").fresh
      "module;require.main;require.extensions" ∧
    built.2.dependencies = [] ∧ built.2.bindings = {} := by
  have hforgets := buildModule_forgets_history strictCompiler (Module.ofResource "/a.js") busyHistory
    "module;require.main;require.extensions"
  have hfails : (strictCompiler.buildModule ((Module.ofResource "/a.js").afterAll busyHistory)
      "module;require.main;require.extensions").1 = .error (.config "no target") := by
    decide +kernel
  exact ⟨hfails, by decide +kernel, hforgets.1, hforgets.2 _ hfails⟩

end Nodeless
