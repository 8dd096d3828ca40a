import Nodeless.Command.Session
import Nodeless.Proofs.Build.History
import Nodeless.Proofs.Command.Request

/-!
# Runs of a build

A run in memory reads all that the request names before it writes anything. If something cannot be
read, that is all it does. Otherwise it writes, for one file after the other, a block that depends
on no other file.
-/

namespace Nodeless

/-! ## Reading one by one -/

section

variable {α β ε : Type} {f : α → Except ε β} {g : α → β} {l : List α}

theorem mapM_congr {f' : α → Except ε β} (h : ∀ a ∈ l, f a = f' a) : l.mapM f = l.mapM f' := by
  induction l with
  | nil => rfl
  | cons a l ih =>
    rw [List.mapM_cons, List.mapM_cons, h a List.mem_cons_self, ih fun b hb => h b (List.mem_cons_of_mem _ hb)]

theorem mapM_eq_ok (h : ∀ a ∈ l, f a = .ok (g a)) : l.mapM f = .ok (l.map g) := by
  induction l with
  | nil => rfl
  | cons a l ih =>
    rw [List.mapM_cons, h a List.mem_cons_self, ih fun b hb => h b (List.mem_cons_of_mem _ hb)]
    rfl

theorem mapM_eq_error {a : α} (ha : a ∈ l) {e : ε} (h : f a = .error e) : ∃ e, l.mapM f = .error e := by
  induction l with
  | nil => cases ha
  | cons b l ih =>
    rw [List.mapM_cons]
    cases hb : f b with
    | error e => exact ⟨e, rfl⟩
    | ok first =>
      rcases List.mem_cons.mp ha with rfl | ha
      · rw [h] at hb
        cases hb
      · obtain ⟨e, hrest⟩ := ih ha
        exact ⟨e, by rw [hrest]; rfl⟩

end

theorem lookup_map_pair {α : Type} (f : String → α) {paths : List String} {path : String} (h : path ∈ paths) :
    (paths.map fun p => (p, f p)).lookup path = some (f path) := by
  induction paths with
  | nil => cases h
  | cons p paths ih =>
    rw [List.map_cons, List.lookup_cons]
    by_cases heq : path = p
    · subst heq
      simp
    · rw [beq_eq_false_iff_ne.mpr heq]
      exact ih ((List.mem_cons.mp h).resolve_left heq)

/-! ## The plan -/

namespace Request

variable {r : Request} {installed current : String} {read read' : Reading}

theorem options_congr (h : ∀ path ∈ r.inputs, read path = read' path) : r.options read = r.options read' := by
  unfold options
  cases hconfig : r.config with
  | none => rfl
  | some path =>
    have hpath : read path = read' path := h path (by simp [inputs, hconfig])
    simp only [hpath]

theorem modules_congr (h : ∀ path ∈ r.inputs, read path = read' path) :
    r.modules current read = r.modules current read' := by
  unfold modules
  apply mapM_congr
  intro file hfile
  rw [h file (List.mem_append_right _ hfile)]

theorem plan_congr (h : ∀ path ∈ r.inputs, read path = read' path) :
    r.plan installed current read = r.plan installed current read' := by
  unfold plan
  rw [options_congr h, modules_congr h]

theorem modules_of_ok (current : String) {text : String → String}
    (h : ∀ file ∈ r.files, read file = .ok (text file)) :
    r.modules current read = .ok (r.files.map fun file => (Module.ofResource (absolute current file), text file)) := by
  refine mapM_eq_ok ?_
  intro file hfile
  rw [h file hfile]

theorem modules_of_error (current : String) {file cause : String} (hfile : file ∈ r.files)
    (h : read file = .error cause) :
    ∃ stop, r.modules current read = .error stop :=
  mapM_eq_error (e := ⟨.read file, cause⟩) hfile (by rw [h])

theorem plan_of_error (installed current : String)
    (h : (∃ stop, r.options read = .error stop) ∨ ∃ file ∈ r.files, ∃ cause, read file = .error cause) :
    ∃ stop, r.plan installed current read = .error stop := by
  unfold plan
  -- The files are read only behind the options, so the first of the two failures decides.
  cases hoptions : r.options read with
  | error stop => exact ⟨stop, rfl⟩
  | ok options =>
    rcases h with ⟨stop, hstop⟩ | ⟨file, hfile, cause, hcause⟩
    · rw [hstop] at hoptions
      cases hoptions
    · obtain ⟨stop, hmodules⟩ := modules_of_error current hfile hcause
      exact ⟨stop, by rw [hmodules]; rfl⟩

/-- The outcome of one file. -/
def outcome (options : Options) (build : BuildContext) (resource text : String) : Outcome :=
  (Environment.apply options { build }).pack (Module.ofResource resource) text

theorem plan_of_ok (installed current : String) {options : Options} {text : String → String}
    (hoptions : r.options read = .ok options) (htext : ∀ file ∈ r.files, read file = .ok (text file)) :
    r.plan installed current read = .ok (r.planOf (r.buildContext installed current).root (r.files.map fun file =>
      outcome options (r.buildContext installed current) (absolute current file) (text file))) := by
  unfold plan
  rw [hoptions, modules_of_ok current htext]
  simp only [bind, Except.bind, pure, Except.pure, List.map_map]
  rfl

/-! ## What a plan prints -/

/-- What is printed of a file when its build and its rendering succeed. -/
def block? (options : Options) (build : BuildContext) (resource text : String) : Option String :=
  match (outcome options build resource text).code with
  | .ok code => some ("// " ++ resource ++ "\n" ++ code ++ "\n")
  | .error _ => none

end Request

namespace Action

def isSave : Action → Bool
  | .save _ _ => true
  | _ => false

def printed : Action → String
  | .print text => text
  | _ => ""

/-- What actions print together. -/
def printedBy (actions : List Action) : String := String.join (actions.map printed)

theorem printedBy_cons (action : Action) (actions : List Action) :
    printedBy (action :: actions) = action.printed ++ printedBy actions := by
  rw [printedBy, List.map_cons, String.join_cons, printedBy]

theorem printedBy_append (actions more : List Action) :
    printedBy (actions ++ more) = printedBy actions ++ printedBy more := by
  rw [printedBy, List.map_append, String.join_append, printedBy, printedBy]

theorem printedBy_of_silent {actions : List Action} (h : ∀ a ∈ actions, a.printed = "") :
    printedBy actions = "" := by
  induction actions with
  | nil => rfl
  | cons action actions ih =>
    rw [printedBy_cons, h action List.mem_cons_self, ih fun a ha => h a (List.mem_cons_of_mem action ha)]
    rfl

end Action

namespace Request

open Nodeless.Action (printedBy)

variable {r : Request} {options : Options} {build : BuildContext}

theorem identifier_outcome (resource text : String) :
    (outcome options build resource text).module.identifier = resource :=
  (Compiler.samePlace_buildModule _ _ _).1

theorem printed_actions (h : r.outDir = none) (root resource text : String) :
    printedBy (r.actions root (outcome options build resource text)) =
      (block? options build resource text).getD "" := by
  have hwarnings (ws : List Warning) : printedBy (ws.map fun w => Action.report (Report.warning w)) = "" :=
    Action.printedBy_of_silent (List.forall_mem_map.mpr fun _ _ => rfl)
  unfold actions block?
  rw [Action.printedBy_append, hwarnings]
  cases hcode : (outcome options build resource text).code with
  | error e => simp [printedBy, Action.printed]
  | ok code => simp [printedBy, emit, h, Action.printed, identifier_outcome]

theorem isSave_of_mem_actions (h : r.outDir = none) (root : String) (o : Outcome) :
    ∀ a ∈ r.actions root o, a.isSave = false := by
  unfold actions
  intro a ha
  rcases List.mem_append.mp ha with ha | ha
  · obtain ⟨w, -, rfl⟩ := List.mem_map.mp ha
    rfl
  · rw [List.mem_singleton.mp ha]
    split
    · simp [emit, h, Action.isSave]
    · rfl

theorem printed_outcomes (h : r.outDir = none) (root : String) (resource text : String → String)
    (files : List String) :
    printedBy ((files.map fun file => outcome options build (resource file) (text file)).flatMap (r.actions root)) =
      String.join (files.filterMap fun file => block? options build (resource file) (text file)) := by
  induction files with
  | nil => rfl
  | cons file files ih =>
    rw [List.map_cons, List.flatMap_cons, Action.printedBy_append, printed_actions h, ih, List.filterMap_cons]
    cases block? options build (resource file) (text file) <;> simp

theorem failed_outcomes_iff (resource text : String → String) (files : List String) :
    (files.map fun file => outcome options build (resource file) (text file)).countP Outcome.failed = 0 ↔
      ∀ file ∈ files, (block? options build (resource file) (text file)).isSome := by
  rw [List.countP_eq_zero, List.forall_mem_map]
  apply forall₂_congr
  intro file _
  unfold Outcome.failed block?
  cases (outcome options build (resource file) (text file)).code <;> simp [Except.isOk, Except.toBool]

theorem exists_actions_planOf (r : Request) (root : String) (outcomes : List Outcome) :
    ∃ summary, (r.planOf root outcomes).actions = outcomes.flatMap (r.actions root) ++ summary ∧
      ∀ a ∈ summary, ∃ message, a = .report message := by
  refine ⟨_, rfl, ?_⟩
  intro a ha
  split at ha
  · cases ha
  · exact ⟨_, List.mem_singleton.mp ha⟩

theorem planOf_of_outDir (options : Options) (build : BuildContext) (h : r.outDir = none) (root : String)
    (resource text : String → String) (files : List String) :
    let plan := r.planOf root (files.map fun file => outcome options build (resource file) (text file))
    let block (file : String) := block? options build (resource file) (text file)
    (∀ a ∈ plan.actions, a.isSave = false) ∧
    printedBy plan.actions = String.join (files.filterMap block) ∧
    plan.exitCode = if ∀ file ∈ files, (block file).isSome then 0 else 1 := by
  intro plan block
  obtain ⟨summary, hactions, hsummary⟩ := r.exists_actions_planOf root
    (files.map fun file => outcome options build (resource file) (text file))
  refine ⟨?_, ?_, ?_⟩
  · intro a ha
    rw [hactions] at ha
    rcases List.mem_append.mp ha with ha | ha
    · obtain ⟨o, -, ha⟩ := List.mem_flatMap.mp ha
      exact isSave_of_mem_actions h root o a ha
    · obtain ⟨message, rfl⟩ := hsummary a ha
      rfl
  · have hsilent : printedBy summary = "" := by
      apply Action.printedBy_of_silent
      intro a ha
      obtain ⟨message, rfl⟩ := hsummary a ha
      rfl
    rw [hactions, Action.printedBy_append, printed_outcomes h, hsilent, String.append_empty]
  · simp only [plan, planOf, failed_outcomes_iff, block]

end Request

/-! ## In memory -/

namespace Session

variable {installed current : String}

@[simp]
theorem host_moduleShim : (host installed current).moduleShim = installed := rfl

theorem run_bind {α β : Type} (action : StateM Session α) (next : α → StateM Session β) (session : Session) :
    (action >>= next).run session = (next (action.run session).1).run (action.run session).2 := rfl

/-- What a session reads from the working directory. -/
def reading (session : Session) (current : String) : Reading := fun path =>
  (session.tree.read (FilePath.join current path)).mapError FileError.message

theorem run_read (path : String) (session : Session) :
    ((host installed current).read path).run session = (session.reading current path, session) := by
  unfold host reading
  dsimp only
  rw [run_bind]
  simp only [StateT.run_get, pure]
  cases session.tree.read (FilePath.join current path) <;> rfl

theorem run_texts (paths : List String) (session : Session) :
    (paths.mapM fun path => do return (path, ← (host installed current).read path)).run session =
      (paths.map fun path => (path, session.reading current path), session) := by
  induction paths with
  | nil => rfl
  | cons path paths ih =>
    have hone : (do return (path, ← (host installed current).read path) : StateM Session _).run session =
        ((path, session.reading current path), session) := by
      rw [run_bind, run_read]
      rfl
    rw [List.mapM_cons, run_bind, hone, run_bind, ih]
    rfl

/-- The session is what it was, but for what has been put out. -/
structure Tells (session : Session) (text : String) (after : Session) : Prop where
  output : after.output = session.output ++ text
  tree : after.tree = session.tree

theorem run_act (installed current : String) {action : Action} (h : action.isSave = false) (session : Session) :
    ∃ after, ((host installed current).act action).run session = (.ok (), after) ∧
      session.Tells action.printed after := by
  cases action with
  | print text => exact ⟨_, rfl, rfl, rfl⟩
  | report text => exact ⟨{ session with reports := session.reports ++ text }, rfl, by simp [Action.printed], rfl⟩
  | save target text => cases h

theorem run_perform (installed current : String) {actions : List Action} (h : ∀ a ∈ actions, a.isSave = false)
    (session : Session) :
    ∃ after, ((host installed current).perform actions).run session = (.ok (), after) ∧
      session.Tells (Action.printedBy actions) after := by
  induction actions generalizing session with
  | nil => exact ⟨session, rfl, by simp [Action.printedBy], rfl⟩
  | cons action actions ih =>
    obtain ⟨next, hstep, hnext⟩ := run_act installed current (h action List.mem_cons_self) session
    obtain ⟨after, hrun, hafter⟩ := ih (fun a ha => h a (List.mem_cons_of_mem _ ha)) next
    refine ⟨after, ?_, ?_, ?_⟩
    · rw [Host.perform, run_bind, hstep]
      exact hrun
    · rw [hafter.output, hnext.output, Action.printedBy_cons, String.append_assoc]
    · rw [hafter.tree, hnext.tree]

theorem run_giveUp (installed current : String) (stop : Stop) (session : Session) :
    ∃ after, ((host installed current).giveUp stop).run session = (1, after) ∧ session.Tells "" after :=
  ⟨{ session with reports := session.reports ++ stop.render }, rfl, by simp, rfl⟩

theorem plan_texts (request : Request) (session : Session) :
    request.plan installed current (fun path =>
      ((request.inputs.map fun path => (path, session.reading current path)).lookup path).getD (.error "")) =
      request.plan installed current (session.reading current) := by
  apply Request.plan_congr
  intro path hpath
  rw [lookup_map_pair _ hpath, Option.getD_some]

theorem run_build_of_error {request : Request} {session : Session} {stop : Stop}
    (h : request.plan installed current (session.reading current) = .error stop) :
    ((host installed current).build current request).run session =
      ((host installed current).giveUp stop).run session := by
  unfold Host.build
  rw [run_bind, run_texts]
  simp only [host_moduleShim, plan_texts, h]

theorem run_build_of_ok {request : Request} {session after : Session} {plan : Plan}
    (h : request.plan installed current (session.reading current) = .ok plan)
    (hperform : ((host installed current).perform plan.actions).run session = (.ok (), after)) :
    ((host installed current).build current request).run session = (plan.exitCode, after) := by
  unfold Host.build
  rw [run_bind, run_texts]
  simp only [host_moduleShim, plan_texts, h]
  rw [run_bind, hperform]
  rfl

theorem run_of_build {words : List String} {request : Request} (h : Command.ofWords? words = some (.build request))
    (session : Session) :
    session.run current words installed = ((host installed current).build current request).run session := by
  unfold run Host.run
  rw [h]

/-! ## Accepted command lines -/

/-- A build that cannot read its options or one of its files puts nothing out. Any other build, unless
it writes below a directory, puts out the blocks of its files in their order, and its exit code tells
whether all are there. The block of a file is a function of the options, of what all modules share,
and of the path and the text of that file. -/
theorem run_puts_out_blocks (session : Session) (installed current : String) {words : List String} {request : Request}
    (hwords : Command.ofWords? words = some (.build request)) :
    let read := session.reading current
    let ran := session.run current words installed
    request.NamesPaths ∧ request.files ≠ [] ∧
    ((∃ stop, request.options read = .error stop) ∨
        (∃ file ∈ request.files, ∃ cause, read file = .error cause) →
      ran.1 = 1 ∧ ran.2.output = session.output ∧ ran.2.tree = session.tree) ∧
    ∀ (options : Options) (text : String → String), request.options read = .ok options →
      (∀ file ∈ request.files, read file = .ok (text file)) → request.outDir = none →
      let block? (file : String) :=
        Request.block? options (request.buildContext installed current) (Request.absolute current file) (text file)
      ran.2.output = session.output ++ String.join (request.files.filterMap block?) ∧
      ran.2.tree = session.tree ∧
      ran.1 = if ∀ file ∈ request.files, (block? file).isSome then 0 else 1 := by
  intro read ran
  obtain ⟨hpaths, hfiles⟩ := Command.namesPaths_of_build hwords
  have hran : ran = ((host installed current).build current request).run session := run_of_build hwords session
  refine ⟨hpaths, hfiles, ?_, ?_⟩
  · intro hfails
    obtain ⟨stop, hplan⟩ := Request.plan_of_error installed current hfails
    obtain ⟨after, hgive, hafter⟩ := run_giveUp installed current stop session
    rw [hran, run_build_of_error hplan, hgive]
    exact ⟨rfl, by rw [hafter.output, String.append_empty], hafter.tree⟩
  · intro options text hoptions htext hprints block?
    have hplan := Request.plan_of_ok installed current hoptions htext
    obtain ⟨hquiet, hprinted, hexit⟩ := Request.planOf_of_outDir options
      (request.buildContext installed current) hprints (request.buildContext installed current).root
      (Request.absolute current) text request.files
    obtain ⟨after, hperform, hafter⟩ := run_perform installed current hquiet session
    rw [hran, run_build_of_ok hplan hperform]
    exact ⟨by rw [hafter.output, hprinted], hafter.tree, hexit⟩

/-- A directory with a module that is no source and one that is. -/
def twoModules : Session where
  tree := ⟨[(["app"], .directory), (["app", "bad.js"], .file "\x7d"), (["app", "good.js"], .file "require.main;")]⟩

theorem run_puts_out_blocks_twoModules :
    Command.ofWords? ["bad.js", "good.js"] = some (.build { files := ["bad.js", "good.js"] }) ∧
    (twoModules.run "/app" ["bad.js", "good.js"]).1 = 1 ∧
    (twoModules.run "/app" ["bad.js", "good.js"]).2.output = "// /app/good.js\n__spacey_require__.c[0];\n" ∧
    Command.ofWords? ["good.js", "missing.js"] = some (.build { files := ["good.js", "missing.js"] }) ∧
    (twoModules.run "/app" ["good.js", "missing.js"]).1 = 1 ∧
    (twoModules.run "/app" ["good.js", "missing.js"]).2.output = "" := by
  have hboth : Command.ofWords? ["bad.js", "good.js"] = some (.build { files := ["bad.js", "good.js"] }) := by
    decide +kernel
  have hmissing : Command.ofWords? ["good.js", "missing.js"] =
      some (.build { files := ["good.js", "missing.js"] }) := by
    decide +kernel
  obtain ⟨-, -, -, hblocks⟩ := run_puts_out_blocks twoModules BuildContext.defaultShim "/app" hboth
  obtain ⟨-, -, hfails, -⟩ := run_puts_out_blocks twoModules BuildContext.defaultShim "/app" hmissing
  obtain ⟨houtput, -, hcode⟩ := hblocks {} (fun file => if file = "bad.js" then "\x7d" else "require.main;") rfl
    (by decide +kernel) rfl
  obtain ⟨hcode', houtput', -⟩ := hfails
    (.inr ⟨"missing.js", by simp, FileError.notFound.message, by decide +kernel⟩)
  refine ⟨hboth, ?_, ?_, hmissing, hcode', houtput'⟩
  · rw [hcode]
    decide +kernel
  · rw [houtput]
    decide +kernel

end Session

end Nodeless
