import Nodeless.Proofs.Environment.Build
import Nodeless.Proofs.Path.Rooted

/-!
# Builds in another place

All paths that the environment writes lead from one place in a tree to another. So a tree can be
moved to any other directory, of another drive or of none, and its builds stay the same.
-/

namespace Nodeless.Environment

open Nodeless.Path

/-! ## What the texts read of the place -/

/-- The ways through the tree that texts are made of. -/
structure Ways where
  filename : String
  dirname : Option String
  shim : String
  deriving DecidableEq

def ways (build : BuildContext) (m : Module) : Ways where
  filename := relative build.root m.path
  dirname := m.context.map (relative build.root)
  shim := shimRequest build.moduleShim m.context

section

variable {build build' : BuildContext} {m m' : Module}

theorem relativeFilename_congr (h : ways build m = ways build' m') :
    relativeFilename build m = relativeFilename build' m' := by
  have hread (build : BuildContext) (m : Module) :
      relativeFilename build m = .text (ways build m).filename := rfl
  rw [hread, hread, h]

theorem relativeDirname_congr (h : ways build m = ways build' m') :
    relativeDirname build m = relativeDirname build' m' := by
  have hread (build : BuildContext) (m : Module) :
      relativeDirname build m = (ways build m).dirname.map Literal.text := by
    unfold relativeDirname ways
    rw [Option.map_map]
    rfl
  rw [hread, hread, h]

theorem absoluteDirname_congr (h : ways build m = ways build' m') :
    absoluteDirname build m = absoluteDirname build' m' := by
  have hread (build : BuildContext) (m : Module) :
      absoluteDirname build m = (ways build m).dirname.bind fun way =>
        if isAbsolute way then none
        else some ("require(\"path\").join(__dirname, " ++ (Literal.text way).source ++ ")") := by
    unfold absoluteDirname ways
    cases m.context <;> rfl
  rw [hread, hread, h]

theorem shimCall_congr (h : ways build m = ways build' m') : shimCall build m = shimCall build' m' := by
  have hrequest : shimRequest build.moduleShim m.context = shimRequest build'.moduleShim m'.context :=
    congrArg Ways.shim h
  unfold shimCall
  rw [hrequest]

theorem textOf_congr (h : ways build m = ways build' m') (options : Options) :
    textOf options build m = textOf options build' m' := by
  have hdirname : dirnameText options.dirname build m = dirnameText options.dirname build' m' := by
    unfold dirnameText
    rw [absoluteDirname_congr h, relativeDirname_congr h]
  have hfilename : filenameText options.filename build m = filenameText options.filename build' m' := by
    unfold filenameText
    rw [relativeFilename_congr h]
  funext name
  unfold textOf
  rw [hdirname, hfilename, shimCall_congr h]

end

/-! ## Two builds of one source -/

/-- The outcomes of two builds are the same, but for the modules that warnings name. -/
structure SameOutcome (a b : Except BuildError Unit × Module) : Prop where
  result : a.1 = b.1
  dependencies : a.2.dependencies = b.2.dependencies
  bindings : a.2.bindings = b.2.bindings
  warnings : b.2.warnings = a.2.warnings.map fun w => { w with module := b.2.identifier }

theorem SameOutcome.renderModule_eq {a b : Except BuildError Unit × Module} (h : SameOutcome a b)
    (options : Options) (build build' : BuildContext) (source : String) :
    (apply options { build }).renderModule a.2 source =
      (apply options { build := build' }).renderModule b.2 source := by
  unfold Compiler.renderModule
  rw [h.dependencies, h.bindings]
  rfl

section

variable {options : Options} {build build' : BuildContext} {m m' : Module}

theorem warnings_eq_map (m m' : Module) (dependencies : List Dependency) :
    warnings m' dependencies = (warnings m dependencies).map fun w => { w with module := m'.identifier } := by
  unfold warnings
  rw [List.map_map]
  rfl

theorem sameOutcome_finish (h : ways build m = ways build' m') (events : List Event) :
    SameOutcome (.ok (), (drafted options build m.reset events).finish m.reset)
      (.ok (), (drafted options build' m'.reset events).finish m'.reset) := by
  have htext : textOf options build m.reset = textOf options build' m'.reset := textOf_congr h options
  unfold drafted Draft.finish Draft.record
  refine ⟨rfl, rfl, ?_, ?_⟩
  · dsimp only
    unfold boundEntries
    rw [htext]
  · exact warnings_eq_map m.reset m'.reset _

theorem sameOutcome_buildModule (h : ways build m = ways build' m') (source : String) :
    SameOutcome ((apply options { build }).buildModule m source)
      ((apply options { build := build' }).buildModule m' source) := by
  cases hevents : Event.ofSource source with
  | error e =>
    have hrun (build : BuildContext) (m : Module) :
        ((apply options { build }).recognizer.parse source).run ⟨build, some m.reset⟩ {} =
          (.error (.source e), {}) := by
      rw [Recognizer.parse, hevents]
      rfl
    rw [Compiler.buildModule_of_error (hrun build m), Compiler.buildModule_of_error (hrun build' m')]
    exact ⟨rfl, rfl, rfl, rfl⟩
  | ok events =>
    have hrun (build : BuildContext) (m : Module) :
        ((apply options { build }).recognizer.parse source).run ⟨build, some m.reset⟩ {} =
          (.ok (), drafted options build m.reset events) := by
      rw [Recognizer.parse, hevents]
      exact run_parseEvents_apply hevents
    rw [Compiler.buildModule_of_ok (hrun build m), Compiler.buildModule_of_ok (hrun build' m'), resolve_apply,
      resolve_apply]
    exact sameOutcome_finish h events

end

/-! ## Trees -/

/-- The path of a file or directory in a tree. -/
def inTree (dir : String) (ps : List Part) : String := String.ofList (below dir.toList ps)

def compilerIn (options : Options) (dir : String) (shim : List Part) : Compiler :=
  apply options { build := BuildContext.ofPaths dir (inTree dir shim) }

/-- The module in the file `p` of a tree, with a query if there is one. -/
def moduleIn (dir : String) (p : List Part) (query : Option String) : Module :=
  .ofResource (inTree dir p ++ query.elim "" fun query => "?" ++ query)

/-- Names as they may stand in the path of a resource. -/
def AreResourceNames (ps : List Part) : Prop := AreNames ps ∧ ∀ part ∈ ps, '?' ∉ part

instance (ps : List Part) : Decidable (AreResourceNames ps) := inferInstanceAs (Decidable (_ ∧ _))

theorem splitQuery_append {path : String} (h : '?' ∉ path.toList) (query : Option String) :
    (splitQuery (path ++ query.elim "" fun query => "?" ++ query)).1 = path := by
  have hpath : ∀ c ∈ path.toList, decide (c ≠ '?') = true := fun c hc => decide_eq_true fun heq => h (heq ▸ hc)
  unfold splitQuery
  dsimp only
  rw [String.toList_append, List.takeWhile_append_of_pos hpath]
  cases query <;> simp

theorem path_moduleIn {dir : String} (hdir : '?' ∉ dir.toList) {p : List Part} (hp : AreResourceNames p)
    (query : Option String) : (moduleIn dir p query).path = inTree dir p := by
  apply splitQuery_append
  rw [inTree, String.toList_ofList, below, List.mem_append, List.mem_flatMap]
  rintro (hmem | ⟨part, hpart, hmem⟩)
  · exact hdir hmem
  · rcases List.mem_cons.mp hmem with heq | hmem
    · revert heq
      decide
    · exact hp.2 part hpart hmem

/-- The ways from the top of a tree to a module and to its directory, and from there to the shim. -/
def treeWays (parents : List Part) (last : Part) (shim : List Part) : Ways where
  filename := String.ofList (joinParts (parents ++ [last]))
  dirname := some (String.ofList (joinParts parents))
  shim :=
    let way := String.ofList (route parents shim)
    if isDriveAbsolute way then way else "./" ++ way

/-- The root and the shim are normalized and the resource is not, but all three lead through the same
names to the top of the tree. -/
theorem ways_in_tree {dir : String} (hanchored : Anchored dir.toList) (hdir : '?' ∉ dir.toList)
    {parents : List Part} {last : Part} (hp : AreResourceNames (parents ++ [last])) {shim : List Part}
    (hshim : AreNames shim) (query : Option String) :
    ways (BuildContext.ofPaths dir (inTree dir shim)) (moduleIn dir (parents ++ [last]) query) =
      treeWays parents last shim := by
  obtain ⟨root, base, hstands⟩ := hanchored.stands
  have hparents : AreNames parents := fun part hpart => hp.1 part (List.mem_append_left _ hpart)
  have hin (ps : List Part) (hps : AreNames ps) : Stands (inTree dir ps).toList root (base ++ ps) := by
    rw [inTree, String.toList_ofList]
    exact hstands ps hps
  have hwritten (ps : List Part) (hps : AreNames ps) :
      Stands (String.ofList (written root (base ++ ps))).toList root (base ++ ps) := by
    rw [String.toList_ofList]
    exact stands_written (hstands ps hps).real (hstands ps hps).names
  have htop : normalize dir = String.ofList (written root (base ++ [])) := by
    have hdir := hin [] (by simp [AreNames])
    rw [show inTree dir [] = dir by simp [inTree, below]] at hdir
    exact hdir.normalize_eq
  have hshimText : normalize (inTree dir shim) = String.ofList (written root (base ++ shim)) :=
    (hin shim hshim).normalize_eq
  have hpath : (moduleIn dir (parents ++ [last]) query).path = inTree dir (parents ++ [last]) :=
    path_moduleIn hdir hp query
  have hcontext : (moduleIn dir (parents ++ [last]) query).context =
      some (String.ofList (written root (base ++ parents))) := by
    have hlast := hin (parents ++ [last]) hp.1
    rw [← List.append_assoc] at hlast
    change some (dirname (moduleIn dir (parents ++ [last]) query).path) = _
    rw [hpath, hlast.dirname_eq]
  have hfile := (hwritten [] (by simp [AreNames])).relative_eq (hin (parents ++ [last]) hp.1)
  have hdirectory := (hwritten [] (by simp [AreNames])).relative_eq (hwritten parents hparents)
  have hrequest := (hwritten parents hparents).relative_eq (hwritten shim hshim)
  rw [route_nil] at hfile hdirectory
  unfold ways treeWays BuildContext.ofPaths shimRequest
  simp only [hpath, hcontext, htop, hshimText, Option.map_some, hfile, hdirectory, hrequest]

/-! ## Moving a tree -/

/-- A tree gives the same builds and the same code in any two directories, however their paths are
written. Only the module that a warning names is told by its full resource. -/
theorem build_independent_of_directory (options : Options) (source : String) {p shim : List Part}
    (hp : AreResourceNames p) (hne : p ≠ []) (hshim : AreResourceNames shim) (query : Option String)
    {dir dir' : String} (hanchored : Anchored dir.toList) (hdir : '?' ∉ dir.toList)
    (hanchored' : Anchored dir'.toList) (hdir' : '?' ∉ dir'.toList) :
    let built := (compilerIn options dir shim).buildModule (moduleIn dir p query) source
    let built' := (compilerIn options dir' shim).buildModule (moduleIn dir' p query) source
    SameOutcome built built' ∧
    (compilerIn options dir shim).renderModule built.2 source =
      (compilerIn options dir' shim).renderModule built'.2 source := by
  intro built built'
  obtain ⟨parents, last, rfl⟩ := List.eq_nil_or_concat' p |>.resolve_left hne
  have hways := ways_in_tree hanchored hdir hp hshim.1 query
  have hways' := ways_in_tree hanchored' hdir' hp hshim.1 query
  have hsame : SameOutcome built built' := sameOutcome_buildModule (hways.trans hways'.symm) source
  exact ⟨hsame, hsame.renderModule_eq options _ _ source⟩

def filePath : List Part := ["src".toList, "a.js".toList]

def shimPath : List Part := ["lib".toList, "module.js".toList]

def relativeOptions : Options := ⟨.relative, .mockAbsolute⟩

/-- A directory with steps in its path, and one on a drive. -/
theorem build_independent_of_directory_across_drives :
    AreResourceNames filePath ∧ filePath ≠ [] ∧ AreResourceNames shimPath ∧
    Anchored "/home/./me/..//you/".toList ∧ '?' ∉ "/home/./me/..//you/".toList ∧
    Anchored "C:\\work".toList ∧ '?' ∉ "C:\\work".toList ∧
    let source := "require.extensions;__filename;__dirname;module"
    let built := (compilerIn relativeOptions "/home/./me/..//you/" shimPath).buildModule
      (moduleIn "/home/./me/..//you/" filePath (some "raw")) source
    let built' := (compilerIn relativeOptions "C:\\work" shimPath).buildModule
      (moduleIn "C:\\work" filePath (some "raw")) source
    built.2.bindings.entries =
      [("__dirname", "require(\"path\").join(__dirname, \"src\")"), ("__filename", "\"src/a.js\""),
        ("module", "require(\"./../lib/module.js\")(module)")] ∧
    built.2.warnings.length = 1 ∧ SameOutcome built built' := by
  have hanchored : Anchored "/home/./me/..//you/".toList := .slash (by decide) _
  have hanchored' : Anchored "C:\\work".toList := .drive (by decide) (by decide) _
  have hfile : AreResourceNames filePath := by decide
  have hshim : AreResourceNames shimPath := by decide
  refine ⟨hfile, by decide, hshim, hanchored, by decide, hanchored', by decide, by decide +kernel,
    by decide +kernel, ?_⟩
  exact (build_independent_of_directory relativeOptions _ hfile (by decide) hshim (some "raw")
    hanchored (by decide) hanchored' (by decide)).1

end Nodeless.Environment
