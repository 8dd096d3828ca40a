import Mathlib.Data.List.Nodup
import Nodeless.Event.Basic
import Nodeless.Scope

/-!
# Frames

What the scope stands for: a stack of frames, one for each open block or function, above the names
of the module itself. The scope keeps one list in place of the stack, in which a `var` stands behind
names of deeper frames, and the depths of the open functions beside it.
-/

namespace Nodeless

namespace Scope

/-! ## Depths -/

/-- The numbers of the functions among open scopes, which count from the outermost one, 1. -/
def depthsOfFunctions {α : Type} (kind : α → ScopeKind) : List α → List Nat
  | [] => []
  | s :: scopes =>
    if kind s = .function then (scopes.length + 1) :: depthsOfFunctions kind scopes
    else depthsOfFunctions kind scopes

theorem le_of_mem_depthsOfFunctions {α : Type} (kind : α → ScopeKind) (scopes : List α) :
    ∀ depth ∈ depthsOfFunctions kind scopes, depth ≤ scopes.length := by
  induction scopes with
  | nil => simp [depthsOfFunctions]
  | cons s scopes ih =>
    intro depth hdepth
    rw [List.length_cons]
    unfold depthsOfFunctions at hdepth
    split at hdepth
    · rcases List.mem_cons.mp hdepth with rfl | hdepth
      · exact Nat.le_refl _
      · exact Nat.le_succ_of_le (ih depth hdepth)
    · exact Nat.le_succ_of_le (ih depth hdepth)

/-! ## Calls -/

/-- A call that changes a scope. -/
inductive Call
  | begin
  | beginFunction
  | close
  | declare (name : String)
  | declareVar (name : String)
  deriving DecidableEq, Repr

def call (scope : Scope) : Call → Scope
  | .begin => scope.begin
  | .beginFunction => scope.beginFunction
  | .close => scope.close
  | .declare name => scope.declare name
  | .declareVar name => scope.declareVar name

def calls (scope : Scope) (cs : List Call) : Scope := cs.foldl call scope

/-- Calls that close every scope they open, and no other. -/
inductive Call.Balanced : List Call → Prop
  | nil : Balanced []
  | declare (name : String) {cs : List Call} : Balanced cs → Balanced (.declare name :: cs)
  | declareVar (name : String) {cs : List Call} : Balanced cs → Balanced (.declareVar name :: cs)
  | nest {opening : Call} {inner cs : List Call} : opening = .begin ∨ opening = .beginFunction → Balanced inner →
      Balanced cs → Balanced (opening :: (inner ++ .close :: cs))

end Scope

/-! ## The stack -/

/-- A declared name. Its turn is the number of names declared before it, in whatever frame. -/
structure Held where
  turn : Nat
  name : String
  deriving DecidableEq, Repr

structure Frame where
  kind : ScopeKind
  held : List Held := []
  deriving DecidableEq, Repr

structure Frames where
  /-- The innermost first. -/
  inner : List Frame := []
  /-- The names of the module, whose frame is never removed. -/
  module : List Held := []
  /-- The number of names declared so far. -/
  turns : Nat := 0
  deriving DecidableEq, Repr

namespace Frame

def isFunction (f : Frame) : Bool := f.kind = .function

/-- Adds a name to the innermost frame that may hold it, or to the module where none may. -/
def hold (may : Frame → Bool) (new : Held) : List Frame → List Held → List Frame × List Held
  | [], module => ([], module ++ [new])
  | f :: fs, module =>
    if may f then ({ f with held := f.held ++ [new] } :: fs, module)
    else
      let rest := hold may new fs module
      (f :: rest.1, rest.2)

/-- All names, each with the number of its frame. The module has the number 0. -/
def entries : List Frame → List Held → List (Held × Nat)
  | [], module => module.map fun h => (h, 0)
  | f :: fs, module => f.held.map (fun h => (h, fs.length + 1)) ++ entries fs module

end Frame

namespace Frames

def push (fs : Frames) (kind : ScopeKind) : Frames := { fs with inner := { kind } :: fs.inner }

/-- Removes the innermost frame. Where there is none, the module's names go and the module stays. -/
def pop (fs : Frames) : Frames :=
  match fs.inner with
  | [] => { fs with module := [] }
  | _ :: inner => { fs with inner }

def declareIn (fs : Frames) (may : Frame → Bool) (name : String) : Frames :=
  let frames := Frame.hold may ⟨fs.turns, name⟩ fs.inner fs.module
  { inner := frames.1, module := frames.2, turns := fs.turns + 1 }

def call (fs : Frames) : Scope.Call → Frames
  | .begin => fs.push .block
  | .beginFunction => fs.push .function
  | .close => fs.pop
  | .declare name => fs.declareIn (fun _ => true) name
  | .declareVar name => fs.declareIn Frame.isFunction name

def calls (fs : Frames) (cs : List Scope.Call) : Frames := cs.foldl call fs

/-- The names that go when the innermost frame does. -/
def top (fs : Frames) : List Held :=
  match fs.inner with
  | [] => fs.module
  | f :: _ => f.held

def holds (fs : Frames) (name : String) : Bool :=
  (fs.inner.any fun f => f.held.any fun h => h.name = name) || fs.module.any fun h => h.name = name

def entries (fs : Frames) : List (Held × Nat) := Frame.entries fs.inner fs.module

/-- All names in the order of their declarations, with the numbers of their frames for depths. -/
def locals (fs : Frames) : List Local :=
  (fs.entries.mergeSort fun a b => a.1.turn ≤ b.1.turn).map fun e => ⟨e.1.name, e.2⟩

end Frames

/-! ## Depths of frames -/

namespace Frame

/-- The number of the innermost frame that may hold a name. -/
def depthWhere (may : Frame → Bool) : List Frame → Nat
  | [] => 0
  | f :: fs => if may f then fs.length + 1 else depthWhere may fs

theorem depthWhere_true (fs : List Frame) : depthWhere (fun _ => true) fs = fs.length := by
  cases fs <;> rfl

theorem depthWhere_isFunction (fs : List Frame) :
    depthWhere isFunction fs = (Scope.depthsOfFunctions kind fs).headD 0 := by
  induction fs with
  | nil => rfl
  | cons f fs ih =>
    unfold depthWhere Scope.depthsOfFunctions
    by_cases hkind : f.kind = .function
    · rw [if_pos (show f.isFunction = true from decide_eq_true hkind), if_pos hkind]
      rfl
    · rw [if_neg (by simp [isFunction, hkind]), if_neg hkind]
      exact ih

/-! ## What a declaration changes -/

theorem length_hold (may : Frame → Bool) (new : Held) (fs : List Frame) (module : List Held) :
    (hold may new fs module).1.length = fs.length := by
  induction fs with
  | nil => rfl
  | cons f fs ih =>
    unfold hold
    split
    · rfl
    · exact congrArg (· + 1) ih

theorem depthsOfFunctions_hold (may : Frame → Bool) (new : Held) (fs : List Frame) (module : List Held) :
    Scope.depthsOfFunctions kind (hold may new fs module).1 = Scope.depthsOfFunctions kind fs := by
  induction fs with
  | nil => rfl
  | cons f fs ih =>
    unfold hold
    split
    · rfl
    · simp only [Scope.depthsOfFunctions, length_hold, ih]

theorem entries_hold (may : Frame → Bool) (new : Held) (fs : List Frame) (module : List Held) :
    (entries (hold may new fs module).1 (hold may new fs module).2).Perm
      (entries fs module ++ [(new, depthWhere may fs)]) := by
  induction fs with
  | nil =>
    rw [hold, entries, entries, depthWhere, List.map_append]
    exact .refl _
  | cons f fs ih =>
    unfold hold depthWhere
    split
    · -- The new name stands in front of the names of the frames below.
      simp only [entries, List.map_append, List.append_assoc]
      exact List.perm_append_comm.append_left _
    · simp only [entries, length_hold, List.append_assoc]
      exact ih.append_left _

theorem entries_depth_le (fs : List Frame) (module : List Held) : ∀ e ∈ entries fs module, e.2 ≤ fs.length := by
  induction fs with
  | nil => simp [entries]
  | cons f fs ih =>
    intro e he
    rw [List.length_cons]
    rcases List.mem_append.mp he with he | he
    · obtain ⟨h, -, rfl⟩ := List.mem_map.mp he
      exact Nat.le_refl _
    · exact Nat.le_succ_of_le (ih e he)

end Frame

/-! ## The scope and the stack -/

namespace Frames

theorem pop_of_nil {fs : Frames} (h : fs.inner = []) : fs.pop = { fs with module := [] } := by
  rw [pop, h]

theorem pop_of_cons {fs : Frames} {f : Frame} {inner : List Frame} (h : fs.inner = f :: inner) :
    fs.pop = { fs with inner } := by
  rw [pop, h]

theorem turns_pop (fs : Frames) : fs.pop.turns = fs.turns := by
  unfold pop
  split <;> rfl

theorem length_inner_pop (fs : Frames) : fs.pop.inner.length = fs.inner.length - 1 := by
  cases hinner : fs.inner with
  | nil => simp [pop_of_nil hinner, hinner]
  | cons f inner => rw [pop_of_cons hinner, List.length_cons, Nat.add_sub_cancel]

theorem entries_pop (fs : Frames) : fs.pop.entries = fs.entries.filter fun e => e.2 < fs.inner.length := by
  cases hinner : fs.inner with
  | nil => simp [pop_of_nil hinner, entries, hinner, Frame.entries]
  | cons f inner =>
    have hgone : (f.held.map fun h => (h, inner.length + 1)).filter (fun e => e.2 < inner.length + 1) = [] :=
      List.filter_eq_nil_iff.mpr (by simp)
    have hstay : (Frame.entries inner fs.module).filter (fun e => e.2 < inner.length + 1) =
        Frame.entries inner fs.module :=
      List.filter_eq_self.mpr fun e he =>
        decide_eq_true (Nat.lt_succ_of_le (Frame.entries_depth_le inner fs.module e he))
    rw [pop_of_cons hinner, entries, entries, hinner, Frame.entries, List.filter_append, List.length_cons, hgone,
      hstay, List.nil_append]

theorem length_entries (fs : Frames) : fs.entries.length = fs.top.length + fs.pop.entries.length := by
  cases hinner : fs.inner with
  | nil => simp [pop_of_nil hinner, top, entries, hinner, Frame.entries]
  | cons f inner => simp [pop_of_cons hinner, top, entries, hinner, Frame.entries]

theorem mem_entries_iff (fs : Frames) (name : String) :
    (∃ e ∈ fs.entries, e.1.name = name) ↔ fs.holds name = true := by
  have hframes (inner : List Frame) : (∃ e ∈ Frame.entries inner fs.module, e.1.name = name) ↔
      ((inner.any fun f => f.held.any fun h => h.name = name) || fs.module.any fun h => h.name = name) = true := by
    induction inner with
    | nil => simp [Frame.entries]
    | cons f inner ih =>
      simp only [Frame.entries, List.mem_append, or_and_right, exists_or, ih, List.any_cons, Bool.or_assoc,
        Bool.or_eq_true]
      simp
  exact hframes fs.inner

/-- The scope keeps the names of the frames in the order of their turns, and numbers in place of the
frames. -/
structure Kept (fs : Frames) (scope : Scope) : Prop where
  depth : scope.depth = fs.inner.length
  functionDepths : scope.functionDepths = Scope.depthsOfFunctions Frame.kind fs.inner
  locals : ∃ es : List (Held × Nat), es.Perm fs.entries ∧ (es.Pairwise fun a b => a.1.turn < b.1.turn) ∧
    (∀ e ∈ es, e.1.turn < fs.turns) ∧ scope.locals = es.map fun e => ⟨e.1.name, e.2⟩

section

variable {fs : Frames} {scope : Scope}

theorem Kept.locals_eq (h : Kept fs scope) : scope.locals = fs.locals := by
  obtain ⟨es, hperm, hturns, -, hlocals⟩ := h.locals
  have hle : es.Pairwise fun a b => decide (a.1.turn ≤ b.1.turn) = true :=
    hturns.imp fun hlt => decide_eq_true (Nat.le_of_lt hlt)
  have hsorted : fs.entries.mergeSort (fun a b => a.1.turn ≤ b.1.turn) = es := by
    have hsort : (fs.entries.mergeSort fun a b => a.1.turn ≤ b.1.turn).Pairwise
        fun a b => decide (a.1.turn ≤ b.1.turn) = true :=
      List.pairwise_mergeSort (by simp only [decide_eq_true_eq]; omega)
        (by simp only [Bool.or_eq_true, decide_eq_true_eq]; omega) fs.entries
    have hperms := (List.mergeSort_perm fs.entries fun a b => a.1.turn ≤ b.1.turn).trans hperm.symm
    refine hperms.eq_of_pairwise ?_ hsort hle
    -- No two names have one turn, so entries of one turn are one entry.
    intro a b ha hb hab hba
    have hnodup : (es.map fun e => e.1.turn).Nodup := List.pairwise_map.mpr (hturns.imp Nat.ne_of_lt)
    simp only [decide_eq_true_eq] at hab hba
    exact List.inj_on_of_nodup_map hnodup (hperms.mem_iff.mp ha) hb (Nat.le_antisymm hab hba)
  rw [hlocals, Frames.locals, hsorted]

theorem Kept.length_locals (h : Kept fs scope) : scope.locals.length = fs.entries.length := by
  obtain ⟨es, hperm, -, -, hlocals⟩ := h.locals
  rw [hlocals, List.length_map, hperm.length_eq]

theorem Kept.isLocal_eq (h : Kept fs scope) (name : String) : scope.isLocal name = fs.holds name := by
  obtain ⟨es, hperm, -, -, hlocals⟩ := h.locals
  rw [Bool.eq_iff_iff, Scope.isLocal_iff, ← mem_entries_iff, hlocals]
  simp only [List.mem_map, exists_exists_and_eq_and, hperm.mem_iff]

theorem Kept.eq_of_frames {fs' : Frames} {scope' : Scope} (h : Kept fs scope) (h' : Kept fs' scope')
    (hinner : fs'.inner = fs.inner) (hmodule : fs'.module = fs.module) : scope' = scope := by
  have hlocals : scope'.locals = scope.locals := by
    rw [h.locals_eq, h'.locals_eq, Frames.locals, Frames.locals, entries, entries, hinner, hmodule]
  have hdepth : scope'.depth = scope.depth := by rw [h.depth, h'.depth, hinner]
  have hfunctions : scope'.functionDepths = scope.functionDepths := by
    rw [h.functionDepths, h'.functionDepths, hinner]
  cases scope
  cases scope'
  simp_all

/-! ## Steps -/

theorem kept_start : Kept {} {} := ⟨rfl, rfl, [], .refl _, .nil, by simp, rfl⟩

theorem Kept.begin (h : Kept fs scope) : Kept (fs.push .block) scope.begin :=
  ⟨congrArg (· + 1) h.depth, h.functionDepths, h.locals⟩

theorem Kept.beginFunction (h : Kept fs scope) : Kept (fs.push .function) scope.beginFunction := by
  refine ⟨congrArg (· + 1) h.depth, ?_, h.locals⟩
  rw [Scope.beginFunction, h.depth, h.functionDepths]
  rfl

theorem Kept.close (h : Kept fs scope) : Kept fs.pop scope.close := by
  refine ⟨?_, ?_, ?_⟩
  · rw [length_inner_pop, ← h.depth]
    rfl
  · simp only [Scope.close, h.depth, h.functionDepths]
    cases hinner : fs.inner with
    | nil => simp [pop_of_nil hinner, hinner, Scope.depthsOfFunctions]
    | cons f inner =>
      rw [pop_of_cons hinner, List.length_cons, Scope.depthsOfFunctions]
      by_cases hkind : f.kind = .function
      · simp [hkind]
      · -- No function is as deep as the block that goes.
        rw [if_neg hkind, if_neg]
        intro hhead
        have := Scope.le_of_mem_depthsOfFunctions Frame.kind inner _ (List.mem_of_mem_head? hhead)
        omega
  · obtain ⟨es, hperm, hturns, hbound, hlocals⟩ := h.locals
    refine ⟨es.filter fun e => e.2 < fs.inner.length, ?_, hturns.filter _, ?_, ?_⟩
    · rw [entries_pop]
      exact hperm.filter _
    · intro e he
      rw [turns_pop]
      exact hbound e (List.mem_filter.mp he).1
    · rw [Scope.close, hlocals, h.depth, List.filter_map]
      rfl

theorem Kept.declareIn (h : Kept fs scope) (may : Frame → Bool) (name : String) {after : Scope}
    (hdepth : after.depth = scope.depth) (hfunctions : after.functionDepths = scope.functionDepths)
    (hlocals : after.locals = scope.locals ++ [⟨name, Frame.depthWhere may fs.inner⟩]) :
    Kept (fs.declareIn may name) after := by
  obtain ⟨es, hperm, hturns, hbound, hheld⟩ := h.locals
  refine ⟨?_, ?_, es ++ [(⟨fs.turns, name⟩, Frame.depthWhere may fs.inner)], ?_, ?_, ?_, ?_⟩
  · rw [hdepth, h.depth, Frames.declareIn, Frame.length_hold]
  · rw [hfunctions, h.functionDepths, Frames.declareIn, Frame.depthsOfFunctions_hold]
  · exact (hperm.append_right _).trans (Frame.entries_hold may _ fs.inner fs.module).symm
  · refine List.pairwise_append.mpr ⟨hturns, List.pairwise_singleton _ _, ?_⟩
    intro e he new hnew
    rw [List.mem_singleton.mp hnew]
    exact hbound e he
  · intro e he
    rcases List.mem_append.mp he with he | he
    · exact Nat.lt_succ_of_lt (hbound e he)
    · rw [List.mem_singleton.mp he]
      exact Nat.lt_succ_self _
  · rw [hlocals, hheld, List.map_append]
    rfl

theorem Kept.call (h : Kept fs scope) (c : Scope.Call) : Kept (fs.call c) (scope.call c) := by
  cases c with
  | begin => exact h.begin
  | beginFunction => exact h.beginFunction
  | close => exact h.close
  | declare name =>
    refine h.declareIn _ name rfl rfl ?_
    rw [Frame.depthWhere_true, ← h.depth]
    rfl
  | declareVar name =>
    refine h.declareIn _ name rfl rfl ?_
    rw [Frame.depthWhere_isFunction, ← h.functionDepths]
    rfl

theorem Kept.calls (h : Kept fs scope) (cs : List Scope.Call) : Kept (fs.calls cs) (scope.calls cs) := by
  induction cs generalizing fs scope with
  | nil => exact h
  | cons c cs ih => exact ih (h.call c)

end

/-! ## Inside a function -/

/-- Above `below` there are the frame of a function and `n` more frames. -/
structure Above (below : List Frame) (module : List Held) (n : Nat) (fs : Frames) : Prop where
  inner : ∃ above f, fs.inner = above ++ f :: below ∧ above.length = n ∧ f.kind = .function
  module : fs.module = module

section

variable {below : List Frame} {module : List Held} {n : Nat} {fs : Frames}

theorem Above.push (h : Above below module n fs) (kind : ScopeKind) : Above below module (n + 1) (fs.push kind) := by
  obtain ⟨above, f, hinner, hlength, hkind⟩ := h.inner
  exact ⟨⟨{ kind } :: above, f, congrArg (_ :: ·) hinner, congrArg (· + 1) hlength, hkind⟩, h.module⟩

theorem Above.pop (h : Above below module (n + 1) fs) : Above below module n fs.pop := by
  obtain ⟨above, f, hinner, hlength, hkind⟩ := h.inner
  obtain ⟨g, above, rfl⟩ := List.exists_cons_of_length_eq_add_one hlength
  rw [pop_of_cons hinner]
  exact ⟨⟨above, f, rfl, Nat.succ.inj hlength, hkind⟩, h.module⟩

/-- The function may hold every name, so none gets past it. -/
theorem Above.declareIn (h : Above below module n fs) {may : Frame → Bool}
    (hmay : ∀ f : Frame, f.kind = .function → may f = true) (name : String) :
    Above below module n (fs.declareIn may name) := by
  obtain ⟨above, f, hinner, hlength, hkind⟩ := h.inner
  have hhold (above : List Frame) (new : Held) (module : List Held) :
      ∃ above' f', Frame.hold may new (above ++ f :: below) module = (above' ++ f' :: below, module) ∧
        above'.length = above.length ∧ f'.kind = .function := by
    induction above with
    | nil =>
      refine ⟨[], { f with held := f.held ++ [new] }, ?_, rfl, hkind⟩
      rw [List.nil_append, Frame.hold, if_pos (hmay f hkind), List.nil_append]
    | cons g above ih =>
      rw [List.cons_append, Frame.hold]
      split
      · exact ⟨{ g with held := g.held ++ [new] } :: above, f, rfl, rfl, hkind⟩
      · obtain ⟨above', f', heq, hlength', hkind'⟩ := ih
        rw [heq]
        exact ⟨g :: above', f', rfl, congrArg (· + 1) hlength', hkind'⟩
  obtain ⟨above', f', heq, hlength', hkind'⟩ := hhold above ⟨fs.turns, name⟩ fs.module
  unfold Frames.declareIn
  rw [hinner, heq]
  exact ⟨⟨above', f', rfl, hlength'.trans hlength, hkind'⟩, h.module⟩

theorem Above.calls {cs : List Scope.Call} (hcs : Scope.Call.Balanced cs) (h : Above below module n fs) :
    Above below module n (fs.calls cs) := by
  induction hcs generalizing n fs with
  | nil => exact h
  | declare name _ ih => exact ih (h.declareIn (fun _ _ => rfl) name)
  | declareVar name _ ih => exact ih (h.declareIn (fun f hf => decide_eq_true hf) name)
  | @nest opening inner cs hopening _ _ ihinner ih =>
    have hopen : Above below module (n + 1) (fs.call opening) := by
      rcases hopening with rfl | rfl
      · exact h.push .block
      · exact h.push .function
    have hcalls : fs.calls (opening :: (inner ++ .close :: cs)) = (((fs.call opening).calls inner).pop).calls cs := by
      simp only [Frames.calls, List.foldl_cons, List.foldl_append]
      rfl
    rw [hcalls]
    exact ih (ihinner hopen).pop

end

/-! ## Any calls -/

/-- After any calls, the scope is what it keeps of the stack of frames: its depth is the number of
frames, its names are those of the frames, each at the depth of its frame, and closing it drops as
many names as the innermost frame holds. A function opened and closed around balanced calls leaves
no trace. -/
theorem scope_keeps_frames (cs : List Scope.Call) :
    let scope := ({} : Scope).calls cs
    let frames := ({} : Frames).calls cs
    scope.depth = frames.inner.length ∧
    scope.locals = frames.locals ∧
    (∀ name, scope.isLocal name = frames.holds name) ∧
    scope.dropped = frames.top.length ∧
    ∀ body, Scope.Call.Balanced body → scope.calls (.beginFunction :: (body ++ [.close])) = scope := by
  intro scope frames
  have h : Kept frames scope := kept_start.calls cs
  refine ⟨h.depth, h.locals_eq, h.isLocal_eq, ?_, ?_⟩
  · rw [Scope.dropped, h.length_locals, h.close.length_locals, length_entries, Nat.add_sub_cancel]
  · intro body hbody
    have hopen : Above frames.inner frames.module 0 (frames.push .function) := ⟨⟨[], _, rfl, rfl, rfl⟩, rfl⟩
    obtain ⟨⟨above, f, hinner, hlength, -⟩, hmodule⟩ := hopen.calls hbody
    rw [List.length_eq_zero_iff.mp hlength, List.nil_append] at hinner
    have hcalls : frames.calls (.beginFunction :: (body ++ [.close])) = ((frames.push .function).calls body).pop := by
      simp only [Frames.calls, List.foldl_cons, List.foldl_append]
      rfl
    have hafter := h.calls (.beginFunction :: (body ++ [.close]))
    rw [hcalls, pop_of_cons hinner] at hafter
    exact h.eq_of_frames hafter rfl hmodule

/-- A close too many, and then a function within a block. Its names go, those of its blocks too. -/
def hoistedBody : List Scope.Call :=
  [.begin, .declare "exports", .declareVar "require", .close, .declare "module"]

theorem scope_keeps_frames_hoisted :
    let scope := ({} : Scope).calls [.declare "id", .close, .declare "module", .begin, .declareVar "require"]
    Scope.Call.Balanced hoistedBody ∧
    scope.locals = [⟨"module", 0⟩, ⟨"require", 0⟩] ∧ scope.depth = 1 ∧
    (scope.calls (.beginFunction :: hoistedBody)).locals =
      [⟨"module", 0⟩, ⟨"require", 0⟩, ⟨"require", 2⟩, ⟨"module", 2⟩] ∧
    scope.calls (.beginFunction :: (hoistedBody ++ [.close])) = scope := by
  intro scope
  have hbody : Scope.Call.Balanced hoistedBody :=
    .nest (.inl rfl) (.declare _ (.declareVar _ .nil)) (.declare _ .nil)
  obtain ⟨-, -, -, -, hfunction⟩ :=
    scope_keeps_frames [.declare "id", .close, .declare "module", .begin, .declareVar "require"]
  exact ⟨hbody, by decide, by decide, by decide, hfunction hoistedBody hbody⟩

end Frames

end Nodeless
