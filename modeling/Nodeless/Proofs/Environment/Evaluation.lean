import Mathlib.Data.List.Basic
import Nodeless.Proofs.Build.History
import Nodeless.Proofs.Build.Shadowing

/-!
# What is known of a chain

The environment knows the values of three paths. What it answers for a source depends on the source
and on the path and the directory of the module, and on nothing that the environment is set up with
or that was built before.
-/

namespace Nodeless.Environment

/-! ## Known values -/

/-- The value is what the environment knows of the chain, in the module if there is one. -/
inductive Known (m : Option Module) (c : Chain) : StaticValue → Prop
  | hot (path : c.path = "module.hot") : Known m c (.boolean false)
  | filename {found : Module} (path : c.path = "__filename") (inModule : m = some found) :
      Known m c (.text found.path)
  | dirname {found : Module} {context : String} (path : c.path = "__dirname") (inModule : m = some found)
      (inDirectory : found.context = some context) : Known m c (.text context)

def known? (m : Option Module) (path : String) : Option StaticValue :=
  if path = "module.hot" then some (.boolean false)
  else if path = "__filename" then m.map fun m => .text m.path
  else if path = "__dirname" then (m.bind Module.context).map .text
  else none

theorem known?_eq_some_iff (m : Option Module) (c : Chain) (value : StaticValue) :
    known? m c.path = some value ↔ Known m c value := by
  constructor
  · intro h
    unfold known? at h
    split at h
    · rename_i hpath
      cases h
      exact .hot hpath
    · split at h
      · rename_i hpath
        obtain ⟨found, hm, rfl⟩ := Option.map_eq_some_iff.mp h
        exact .filename hpath hm
      · split at h
        · rename_i hpath
          obtain ⟨context, hbind, rfl⟩ := Option.map_eq_some_iff.mp h
          obtain ⟨found, hm, hcontext⟩ := Option.bind_eq_some_iff.mp hbind
          exact .dirname hpath hm hcontext
        · cases h
  · rintro (hpath | ⟨hpath, rfl⟩ | ⟨hpath, rfl, hcontext⟩)
    · simp [known?, hpath]
    · simp [known?, hpath]
    · simp [known?, hpath, hcontext]

theorem Known.ne_unknown {m : Option Module} {c : Chain} {value : StaticValue} (h : Known m c value) :
    value ≠ .unknown := by
  cases h <;> simp

theorem known?_congr {m m' : Module} (h : Module.SamePlace m m') (path : String) :
    known? (some m) path = known? (some m') path := by
  obtain ⟨hresource, hcontext⟩ := h
  have hpath : m.path = m'.path := by rw [Module.path, Module.path, hresource]
  simp [known?, hpath, hcontext]

/-! ## Answers -/

def answer (m : Option Module) (hidden : Bool) (c : Chain) : Evaluation :=
  ⟨if hidden then .unknown else (known? m c.path).getD .unknown, c.span⟩

/-- The answers for the chains among events, told of each place whether the chain there is hidden. -/
def answers (m : Option Module) (hidden : Nat → Bool) (n : Nat) (events : List Event) : List Evaluation :=
  (events.zipIdx n).filterMap fun entry => entry.1.chain?.map (answer m (hidden entry.2))

theorem value_answer {m : Option Module} {c : Chain} {value : StaticValue} (h : Known m c value) :
    (answer m false c).value = value := by
  have hknown := (known?_eq_some_iff m c value).mpr h
  simp [answer, hknown]

theorem isKnown_answer_iff (m : Option Module) (hidden : Bool) (c : Chain) :
    (answer m hidden c).isKnown = true ↔ hidden = false ∧ ∃ value, Known m c value := by
  cases hidden with
  | true => simp [answer, Evaluation.isKnown]
  | false =>
    constructor
    · intro h
      cases hknown : known? m c.path with
      | none => simp [answer, Evaluation.isKnown, hknown] at h
      | some value => exact ⟨rfl, value, (known?_eq_some_iff m c value).mp hknown⟩
    · rintro ⟨-, value, hvalue⟩
      unfold Evaluation.isKnown
      rw [value_answer hvalue]
      exact decide_eq_true hvalue.ne_unknown

theorem map_span_answers (m : Option Module) (hidden : Nat → Bool) (n : Nat) (events : List Event) :
    (answers m hidden n events).map Evaluation.span = (Event.chains events).map Chain.span := by
  induction events generalizing n with
  | nil => rfl
  | cons event events ih =>
    cases event with
    | chain c => exact congrArg (c.span :: ·) (ih (n + 1))
    | enter _ _ | exit _ | declare _ _ => exact ih (n + 1)

theorem answers_at (m : Option Module) (hidden : Nat → Bool) (before after : List Event) (c : Chain) :
    (answers m hidden 0 (before ++ .chain c :: after))[(Event.chains before).length]? =
      some (answer m (hidden before.length) c) := by
  have hlength : (Event.chains before).length = (answers m hidden 0 before).length := by
    have h := congrArg List.length (map_span_answers m hidden 0 before)
    rwa [List.length_map, List.length_map, eq_comm] at h
  have happend : answers m hidden 0 (before ++ .chain c :: after) =
      answers m hidden 0 before ++ answers m hidden before.length (.chain c :: after) := by
    rw [answers, List.zipIdx_append, List.filterMap_append, Nat.zero_add]
    rfl
  rw [hlength, happend, List.getElem?_append_right (Nat.le_refl _), Nat.sub_self]
  rfl

/-! ## Evaluators -/

/-- The evaluators know what the environment does, whatever the handlers do. -/
def KnowsValues (r : Recognizer) : Prop :=
  ∀ (site : Site) (draft : Draft) (c : Chain),
    ((r.evaluatorsFor c.path).findSome? fun evaluator => evaluator site draft c) =
      (known? site.module c.path).map fun value => ⟨value, c.span⟩

def evaluators : List (String × Evaluator) :=
  [("__filename", fun site _ c => site.module.map fun m => ⟨.text m.path, c.span⟩),
    ("__dirname", fun site _ c => (site.module.bind Module.context).map fun context => ⟨.text context, c.span⟩),
    ("module.hot", fun _ _ c => some ⟨.boolean false, c.span⟩)]

theorem knowsValues_evaluators : KnowsValues { evaluators } := by
  intro site draft c
  by_cases hhot : c.path = "module.hot"
  · simp [Recognizer.evaluatorsFor, evaluators, known?, hhot]
  · by_cases hfilename : c.path = "__filename"
    · cases hm : site.module <;> simp [Recognizer.evaluatorsFor, evaluators, known?, hfilename, hm]
    · by_cases hdirname : c.path = "__dirname"
      · cases hm : site.module with
        | none => simp [Recognizer.evaluatorsFor, evaluators, known?, hdirname, hm]
        | some m =>
          cases hcontext : m.context <;>
            simp [Recognizer.evaluatorsFor, evaluators, known?, hdirname, hm, hcontext]
      · simp [Recognizer.evaluatorsFor, evaluators, known?, hhot, hfilename, hdirname, Ne.symm hhot,
          Ne.symm hfilename, Ne.symm hdirname]

theorem evaluators_apply (options : Options) (c : Compiler) :
    (apply options c).recognizer.evaluators = c.recognizer.evaluators ++ evaluators := by
  obtain ⟨filename, dirname⟩ := options
  cases filename <;> cases dirname <;>
    simp [apply, registerModule, registerRequire, registerDirname, registerFilename,
      Recognizer.bindModuleText, Recognizer.bindModuleLiteral, Recognizer.bindLiteral,
      Recognizer.onChain, Recognizer.onEvaluate, evaluators]

theorem knowsValues_apply_new (options : Options) (build : BuildContext) :
    KnowsValues (apply options { build }).recognizer := by
  intro site draft c
  rw [Recognizer.evaluatorsFor, evaluators_apply, List.nil_append]
  exact knowsValues_evaluators site draft c

theorem KnowsValues.apply {c : Compiler} (h : KnowsValues c.recognizer) (options : Options) :
    KnowsValues (Environment.apply options c).recognizer := by
  intro site draft chain
  have hown := knowsValues_evaluators site draft chain
  unfold Recognizer.evaluatorsFor at hown ⊢
  rw [evaluators_apply, List.filter_append, List.map_append, List.findSome?_append, hown]
  have hbefore := h site draft chain
  unfold Recognizer.evaluatorsFor at hbefore
  rw [hbefore, Option.or_self]

/-- A compiler that the environment is applied to and nothing else, once or more often. -/
def setUp (build : BuildContext) (first : Options) (more : List Options) : Compiler :=
  more.foldl (fun c options => apply options c) (apply first { build })

theorem knowsValues_setUp (build : BuildContext) (first : Options) (more : List Options) :
    KnowsValues (setUp build first more).recognizer := by
  have hrun (c : Compiler) (hc : KnowsValues c.recognizer) :
      KnowsValues (more.foldl (fun c options => apply options c) c).recognizer := by
    induction more generalizing c with
    | nil => exact hc
    | cons options more ih => exact ih _ (hc.apply options)
  exact hrun _ (knowsValues_apply_new first build)

/-! ## Whole sources -/

theorem KnowsValues.evaluateTold_eq {r : Recognizer} (h : KnowsValues r) (hidden : Nat → Bool) (n : Nat)
    (site : Site) (draft : Draft) (events : List Event) :
    r.evaluateTold hidden n site draft events = answers site.module hidden n events := by
  induction events generalizing n draft with
  | nil => rfl
  | cons event events ih =>
    cases event with
    | chain c =>
      have hone : r.askUnless (hidden n) site draft c = answer site.module (hidden n) c := by
        unfold Recognizer.askUnless answer
        rw [h site draft c]
        split
        · rfl
        · cases known? site.module c.path <;> rfl
      rw [Recognizer.evaluateTold, hone, ih (n + 1) draft]
      rfl
    | enter _ _ | exit _ | declare _ _ => exact ih (n + 1) _

theorem KnowsValues.evaluate_eq {c : Compiler} (h : KnowsValues c.recognizer) (m : Option Module)
    (source : String) :
    c.evaluate m source =
      match Event.ofSource source with
      | .error e => .error (.source e)
      | .ok events => .ok (answers m (Event.hidden events) 0 events) := by
  unfold Compiler.evaluate
  cases hevents : Event.ofSource source with
  | error e => rfl
  | ok events =>
    have htracks : Scope.Tracks [] (Site.draft ⟨c.build, m⟩).scope := Scope.tracks_nil
    have htold := c.recognizer.evaluateEvents_eq_told ⟨c.build, m⟩ [] htracks (Event.nested_ofSource hevents)
    dsimp only
    rw [htold, h.evaluateTold_eq]
    rfl

theorem answers_congr {m m' : Option Module} (h : ∀ path, known? m path = known? m' path)
    (hidden : Nat → Bool) (n : Nat) (events : List Event) :
    answers m hidden n events = answers m' hidden n events := by
  unfold answers answer
  simp only [h]

/-- The answers are the same for all compilers with the environment, and whatever was done to the
module before. There is one for each chain of the source, at its span. It is a value if no declaration
in force binds the root of the chain and the environment knows the whole path, and then it is what the
environment knows. -/
theorem evaluate_independent_of_substitution (build build' : BuildContext) (first first' : Options)
    (more more' : List Options) (m : Option Module) (history history' : List Change) (source : String) :
    let found := (setUp build first more).evaluate (m.map (·.afterAll history)) source
    found = (setUp build' first' more').evaluate (m.map (·.afterAll history')) source ∧
    match Event.ofSource source with
    | .error e => found = .error (.source e)
    | .ok events => ∃ values, found = .ok values ∧
        values.map Evaluation.span = (Event.chains events).map Chain.span ∧
        (values.Pairwise fun a b => a.span.start < b.span.start ∧ a.span.stop ≤ b.span.start) ∧
        ∀ before c after, events = before ++ .chain c :: after →
          ∃ v, values[(Event.chains before).length]? = some v ∧ v.span = c.span ∧
            (v.isKnown = true ↔
              (¬∃ d ∈ Event.inForce before, d.name = c.root.text) ∧ ∃ value, Known m c value) ∧
            ∀ value, v.isKnown = true → Known m c value → v.value = value := by
  have hplace (history : List Change) (path : String) :
      known? (m.map (·.afterAll history)) path = known? m path := by
    cases m with
    | none => rfl
    | some m => exact known?_congr (m.samePlace_afterAll history) path
  have hevaluate (build : BuildContext) (first : Options) (more : List Options) (history : List Change) :
      (setUp build first more).evaluate (m.map (·.afterAll history)) source =
        match Event.ofSource source with
        | .error e => .error (.source e)
        | .ok events => .ok (answers m (Event.hidden events) 0 events) := by
    rw [(knowsValues_setUp build first more).evaluate_eq]
    cases Event.ofSource source with
    | error e => rfl
    | ok events => exact congrArg Except.ok (answers_congr (hplace history) _ 0 events)
  intro found
  refine ⟨(hevaluate build first more history).trans (hevaluate build' first' more' history').symm, ?_⟩
  have hfound : found = _ := hevaluate build first more history
  cases hevents : Event.ofSource source with
  | error e => rw [hfound, hevents]
  | ok events =>
    have hspans := map_span_answers m (Event.hidden events) 0 events
    refine ⟨answers m (Event.hidden events) 0 events, by rw [hfound, hevents], hspans, ?_, ?_⟩
    · obtain ⟨hin, hordered⟩ := Event.chains_ofSource hevents
      have hchains : (Event.chains events).Pairwise fun a b =>
          a.span.start < b.span.start ∧ a.span.stop ≤ b.span.start := by
        refine hordered.imp_of_mem fun ha hb hle => ⟨?_, hle⟩
        have := (hin _ ha).start_lt_stop
        omega
      have hmapped : ((answers m (Event.hidden events) 0 events).map Evaluation.span).Pairwise fun a b =>
          a.start < b.start ∧ a.stop ≤ b.start := by
        rw [hspans]
        exact List.pairwise_map.mpr hchains
      exact List.pairwise_map.mp hmapped
    · rintro before c after rfl
      have hhidden : Event.hidden (before ++ .chain c :: after) before.length = false ↔
          ¬∃ d ∈ Event.inForce before, d.name = c.root.text := by
        rw [← Event.hidden_iff before after c, Bool.not_eq_true]
      refine ⟨_, answers_at m _ before after c, rfl, ?_, ?_⟩
      · rw [isKnown_answer_iff, hhidden]
      · intro value hknown hvalue
        rw [((isKnown_answer_iff _ _ _).mp hknown).1]
        exact value_answer hvalue

/-- A chain longer than a known path is not known, and neither is one that a block declares. -/
example : (setUp ⟨"/", "/shim.js"⟩ {} []).evaluate (some (Module.ofResource "/a/b.js?raw"))
    "module.hot;{let __filename;__filename}__filename.x;__filename" = .ok
      [⟨.boolean false, ⟨0, 10⟩⟩, ⟨.unknown, ⟨27, 37⟩⟩, ⟨.unknown, ⟨38, 50⟩⟩,
        ⟨.text "/a/b.js", ⟨51, 61⟩⟩] := by
  decide +kernel

end Nodeless.Environment
