import Nodeless.Build.Parse
import Nodeless.Proofs.Event.Scopes
import Nodeless.Proofs.Scope.Frames

/-!
# What the scope knows

The scope keeps names with depths and not the scopes that hold them. Behind any events of a source
its names are still those in force, each at the depth of its holder.
-/

namespace Nodeless.Scope

open Event

/-! ## Depths -/

/-- The number of open scopes from the outermost one to a holder. The module is at depth 0. -/
def depthOf (scopes : List OpenScope) (held : Option OpenScope) : Nat :=
  held.elim 0 fun s => (scopes.dropWhile fun t => t ≠ s).length

theorem depthOf_le (scopes : List OpenScope) (held : Option OpenScope) :
    depthOf scopes held ≤ scopes.length := by
  cases held with
  | none => exact Nat.zero_le _
  | some s => exact (List.dropWhile_sublist _).length_le

theorem depthOf_cons_self (s : OpenScope) (scopes : List OpenScope) :
    depthOf (s :: scopes) (some s) = scopes.length + 1 := by
  simp [depthOf, List.dropWhile_cons]

theorem depthOf_cons_of_ne {s : OpenScope} {scopes : List OpenScope} {held : Option OpenScope}
    (h : ∀ t ∈ held, t ≠ s) : depthOf (s :: scopes) held = depthOf scopes held := by
  cases held with
  | none => rfl
  | some t =>
    have hne : s ≠ t := fun heq => h t rfl heq.symm
    simp [depthOf, List.dropWhile_cons, hne]

theorem depthOf_holder (scopes : List OpenScope) (kind : DeclarationKind) :
    depthOf scopes (holder scopes kind) =
      match kind with
      | .lexical => scopes.length
      | .var => (depthsOfFunctions OpenScope.kind scopes).headD 0 := by
  cases kind with
  | lexical =>
    cases scopes with
    | nil => rfl
    | cons s scopes => exact depthOf_cons_self s scopes
  | var =>
    induction scopes with
    | nil => rfl
    | cons s scopes ih =>
      unfold holder depthsOfFunctions
      by_cases hkind : s.kind = .function
      · rw [List.find?_cons_of_pos (by simp [hkind]), if_pos hkind]
        exact depthOf_cons_self s scopes
      · rw [List.find?_cons_of_neg (by simp [hkind]), if_neg hkind, depthOf_cons_of_ne]
        · exact ih
        · rintro t ht rfl
          have := List.find?_some ht
          exact hkind (of_decide_eq_true this)

theorem depthOf_lt_iff {s : OpenScope} {scopes : List OpenScope} (hnodup : (s :: scopes).Nodup)
    {held : Option OpenScope} (hopen : isOpen (s :: scopes) held = true) :
    depthOf (s :: scopes) held < scopes.length + 1 ↔ isOpen scopes held = true := by
  rw [isOpen_iff] at hopen ⊢
  constructor
  · intro hlt t ht
    rcases List.mem_cons.mp (hopen t ht) with rfl | hmem
    · rw [Option.mem_def.mp ht, depthOf_cons_self] at hlt
      exact absurd hlt (Nat.lt_irrefl _)
    · exact hmem
  · intro hmem
    rw [depthOf_cons_of_ne]
    · exact Nat.lt_succ_of_le (depthOf_le scopes held)
    · rintro t ht rfl
      exact (List.nodup_cons.mp hnodup).1 (hmem t ht)

/-! ## Keeping track -/

/-- The scope agrees with the events read so far. -/
structure Tracks (events : List Event) (scope : Scope) : Prop where
  depth : scope.depth = (openScopes events).length
  functionDepths : scope.functionDepths = depthsOfFunctions OpenScope.kind (openScopes events)
  locals : scope.locals = (inForce events).map fun d => ⟨d.name, depthOf (openScopes events) d.held⟩

theorem tracks_nil : Tracks [] {} := ⟨rfl, rfl, rfl⟩

section

variable {before : List Event} {scope : Scope}

theorem Tracks.enter (h : Tracks before scope) (span : Span) (kind : ScopeKind) :
    Tracks (before ++ [.enter span kind]) (scope.after (.enter span kind)) := by
  have hopen : openScopes (before ++ [.enter span kind]) = ⟨before.length, kind⟩ :: openScopes before :=
    openScopes_snoc before _
  have hdepth : ∀ d ∈ inForce before,
      depthOf (⟨before.length, kind⟩ :: openScopes before) d.held = depthOf (openScopes before) d.held := by
    intro d hd
    apply depthOf_cons_of_ne
    rintro s hs rfl
    exact fresh_not_mem before kind ((isOpen_iff _ _).mp (List.mem_filter.mp hd).2 _ hs)
  have hlocals : scope.locals =
      (inForce before).map fun d => ⟨d.name, depthOf (⟨before.length, kind⟩ :: openScopes before) d.held⟩ := by
    rw [h.locals]
    apply List.map_congr_left
    intro d hd
    rw [hdepth d hd]
  cases kind with
  | block =>
    refine ⟨?_, ?_, ?_⟩ <;> rw [hopen]
    · exact congrArg (· + 1) h.depth
    · exact h.functionDepths
    · rw [inForce_enter]
      exact hlocals
  | function =>
    refine ⟨?_, ?_, ?_⟩ <;> rw [hopen]
    · exact congrArg (· + 1) h.depth
    · simp only [Scope.after, beginFunction, depthsOfFunctions, h.depth, h.functionDepths, if_true]
    · rw [inForce_enter]
      exact hlocals

theorem Tracks.exit (h : Tracks before scope) (span : Span) (hopen : openScopes before ≠ []) :
    Tracks (before ++ [.exit span]) (scope.after (.exit span)) := by
  obtain ⟨s, scopes, hscopes⟩ := List.exists_cons_of_ne_nil hopen
  have hnodup : (s :: scopes).Nodup := hscopes ▸ nodup_openScopes before
  have hafter : openScopes (before ++ [.exit span]) = scopes := by
    rw [openScopes_snoc, hscopes]
    rfl
  have hdepth : scope.depth = scopes.length + 1 := by rw [h.depth, hscopes, List.length_cons]
  refine ⟨?_, ?_, ?_⟩ <;> rw [hafter]
  · simp only [Scope.after, close, hdepth, Nat.add_sub_cancel]
  · simp only [Scope.after, close, hdepth, h.functionDepths, hscopes, depthsOfFunctions]
    by_cases hkind : s.kind = .function
    · simp [hkind]
    · -- No function is as deep as the block that closes.
      rw [if_neg hkind, if_neg]
      intro hhead
      have := le_of_mem_depthsOfFunctions OpenScope.kind scopes _ (List.mem_of_mem_head? hhead)
      omega
  · rw [inForce_exit, hscopes, List.tail_cons]
    simp only [Scope.after, close, h.locals, hscopes, hdepth, List.filter_map]
    have hmem : ∀ d ∈ inForce before, isOpen (s :: scopes) d.held = true := by
      intro d hd
      rw [← hscopes]
      exact (List.mem_filter.mp hd).2
    have hfilter : (inForce before).filter (fun d => decide (depthOf (s :: scopes) d.held < scopes.length + 1)) =
        (inForce before).filter fun d => isOpen scopes d.held := by
      apply List.filter_congr
      intro d hd
      rw [Bool.eq_iff_iff, decide_eq_true_iff]
      exact depthOf_lt_iff hnodup (hmem d hd)
    simp only [Function.comp_def, hfilter]
    apply List.map_congr_left
    intro d hd
    rw [depthOf_cons_of_ne]
    rintro t ht rfl
    exact (List.nodup_cons.mp hnodup).1 ((isOpen_iff _ _).mp (List.mem_filter.mp hd).2 t ht)

theorem Tracks.declare (h : Tracks before scope) (name : Name) (kind : DeclarationKind) :
    Tracks (before ++ [.declare name kind]) (scope.after (.declare name kind)) := by
  have hopen : openScopes (before ++ [.declare name kind]) = openScopes before := openScopes_snoc before _
  have hafter : (scope.after (.declare name kind)).locals =
      scope.locals ++ [⟨name.text, depthOf (openScopes before) (holder (openScopes before) kind)⟩] := by
    rw [depthOf_holder, ← h.depth, ← h.functionDepths]
    cases kind <;> rfl
  refine ⟨?_, ?_, ?_⟩ <;> rw [hopen]
  · cases kind <;> exact h.depth
  · cases kind <;> exact h.functionDepths
  · rw [hafter, inForce_declare, List.map_append, h.locals]
    rfl

theorem Tracks.chain (h : Tracks before scope) (c : Chain) : Tracks (before ++ [.chain c]) scope := by
  have hopen : openScopes (before ++ [.chain c]) = openScopes before := openScopes_snoc before _
  refine ⟨?_, ?_, ?_⟩ <;> rw [hopen]
  · exact h.depth
  · exact h.functionDepths
  · rw [inForce_chain]
    exact h.locals

theorem Tracks.after (h : Tracks before scope) {event : Event} {rest : List Event}
    (hnested : Nested (openScopes before).length (event :: rest)) :
    Tracks (before ++ [event]) (scope.after event) := by
  cases event with
  | enter span kind => exact h.enter span kind
  | exit span => exact h.exit span hnested.open_of_exit
  | declare name kind => exact h.declare name kind
  | chain c => exact h.chain c

theorem Tracks.isLocal_iff (h : Tracks before scope) (name : String) :
    scope.isLocal name = true ↔ ∃ d ∈ inForce before, d.name = name := by
  rw [Scope.isLocal_iff, h.locals]
  simp only [List.mem_map, exists_exists_and_eq_and]

theorem Tracks.isLocal_eq_hidden (h : Tracks before scope) (c : Chain) (rest : List Event) :
    scope.isLocal c.root.text = hidden (before ++ .chain c :: rest) before.length := by
  rw [Bool.eq_iff_iff, h.isLocal_iff, hidden_iff]

end

end Nodeless.Scope
