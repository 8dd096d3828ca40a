import Mathlib.Tactic.IntervalCases
import Nodeless.Build.Compiler
import Nodeless.Proofs.Module.Splice

/-!
# Registration of dependencies

A module takes a dependency unless its span meets one that is taken. So the spans of a module keep
clear of each other, and its code does not depend on the order in which they were taken.
-/

namespace Nodeless

open Source

def Dependency.patch (d : Dependency) : Patch := ⟨d.span, d.text⟩

namespace Module

/-! ## One request -/

theorem conflict?_eq_none_iff (ds : List Dependency) (s : Span) :
    conflict? ds s = none ↔ ∀ a ∈ ds, a.span.meets s = false := by
  simp only [conflict?, List.find?_eq_none, Bool.not_eq_true]
  rfl

theorem conflict?_eq_some_iff (ds : List Dependency) (s : Span) (first : Dependency) :
    conflict? ds s = some first ↔
      first.span.meets s = true ∧
        ∃ earlier later, ds = earlier ++ first :: later ∧ ∀ a ∈ earlier, a.span.meets s = false := by
  simp only [conflict?, List.find?_eq_some_iff_append, Bool.not_eq_true']
  rfl

theorem addDependency_eq_ok_iff (m m' : Module) (d : Dependency) :
    m.addDependency d = .ok m' ↔
      (∀ a ∈ m.dependencies, a.span.meets d.span = false) ∧
        m' = { m with dependencies := m.dependencies ++ [d] } := by
  rw [← conflict?_eq_none_iff, addDependency]
  cases conflict? m.dependencies d.span with
  | none => simp [eq_comm]
  | some taken => simp

theorem addDependency_eq_error_iff (m : Module) (d : Dependency) (e : BuildError) :
    m.addDependency d = .error e ↔
      ∃ earlier first later, m.dependencies = earlier ++ first :: later ∧
        (∀ a ∈ earlier, a.span.meets d.span = false) ∧ first.span.meets d.span = true ∧
        e = .rangeConflict m.resource first.span d.span := by
  rw [addDependency]
  cases h : conflict? m.dependencies d.span with
  | none =>
    simp only [reduceCtorEq, false_iff, not_exists, not_and]
    intro earlier first later hds _ hmeets
    rw [conflict?_eq_none_iff] at h
    rw [h first (by simp [hds])] at hmeets
    cases hmeets
  | some taken =>
    simp only [Except.error.injEq]
    constructor
    · rintro rfl
      obtain ⟨hmeets, earlier, later, hds, hearlier⟩ := (conflict?_eq_some_iff _ _ _).mp h
      exact ⟨earlier, taken, later, hds, hearlier, hmeets, rfl⟩
    · rintro ⟨earlier, first, later, hds, hearlier, hmeets, rfl⟩
      have hfirst := (conflict?_eq_some_iff _ _ _).mpr ⟨hmeets, earlier, later, hds, hearlier⟩
      rw [h, Option.some.injEq] at hfirst
      rw [hfirst]

/-! ## A series of requests -/

/-- The module after a request. One that is refused changes nothing. -/
def request (m : Module) (d : Dependency) : Module :=
  match m.addDependency d with
  | .ok m' => m'
  | .error _ => m

def requests (m : Module) (ds : List Dependency) : Module := ds.foldl request m

/-- What a series of requests to a new module leaves: spans that keep clear, and nothing built. -/
structure Registered (resource : String) (m : Module) : Prop where
  resource_eq : m.resource = resource
  bindings_eq : m.bindings = {}
  forward : ∀ d ∈ m.dependencies, d.span.Forward
  clear : m.dependencies.Pairwise fun a b => a.span.meets b.span = false

theorem Registered.request {resource : String} {m : Module} (h : Registered resource m) {d : Dependency}
    (hd : d.span.Forward) : Registered resource (m.request d) := by
  unfold Module.request
  split
  · rename_i m' hok
    obtain ⟨hclear, rfl⟩ := (addDependency_eq_ok_iff _ _ _).mp hok
    refine ⟨h.resource_eq, h.bindings_eq, ?_, ?_⟩
    · intro a ha
      rcases List.mem_append.mp ha with ha | ha
      · exact h.forward a ha
      · rw [List.mem_singleton.mp ha]
        exact hd
    · refine List.pairwise_append.mpr ⟨h.clear, List.pairwise_singleton _ _, ?_⟩
      intro a ha b hb
      rw [List.mem_singleton.mp hb]
      exact hclear a ha
  · exact h

theorem registered_requests (resource : String) (ds : List Dependency) (hforward : ∀ d ∈ ds, d.span.Forward) :
    Registered resource ((ofResource resource).requests ds) := by
  have hrun (m : Module) (hm : Registered resource m) : Registered resource (m.requests ds) := by
    induction ds generalizing m with
    | nil => exact hm
    | cons d ds ih =>
      exact ih (fun a ha => hforward a (List.mem_cons_of_mem _ ha)) _
        (hm.request (hforward d List.mem_cons_self))
  exact hrun _ ⟨rfl, rfl, by simp [ofResource], by simp [ofResource]⟩

theorem requests_of_clear (m : Module) (ds : List Dependency)
    (h : (m.dependencies ++ ds).Pairwise fun a b => a.span.meets b.span = false) :
    m.requests ds = { m with dependencies := m.dependencies ++ ds } := by
  induction ds generalizing m with
  | nil => simp [requests]
  | cons d ds ih =>
    have hd : ∀ a ∈ m.dependencies, a.span.meets d.span = false := by
      intro a ha
      exact (List.pairwise_append.mp h).2.2 a ha d List.mem_cons_self
    have hok := (addDependency_eq_ok_iff m _ d).mpr ⟨hd, rfl⟩
    have hstep : m.request d = { m with dependencies := m.dependencies ++ [d] } := by
      rw [request, hok]
    rw [requests, List.foldl_cons, hstep]
    have hrest := ih { m with dependencies := m.dependencies ++ [d] } (by simpa using h)
    rw [requests] at hrest
    rw [hrest]
    simp

/-! ## The code of a module -/

theorem patches_const (c : Compilation) (hc : c.templates .const = some Template.const)
    (ds : List Dependency) : c.patches ds = .ok (ds.map Dependency.patch) := by
  induction ds with
  | nil => rfl
  | cons d ds ih =>
    have hkind : c.templates d.kind = some Template.const := by
      cases d.kind
      exact hc
    rw [Compilation.patches, hkind, ih]
    rfl

theorem renderModule_of_const (c : Compiler) (hc : c.compilation.templates .const = some Template.const)
    (m : Module) (hm : m.bindings = {}) (source : String) :
    c.renderModule m source = .ok (Patch.render source (m.dependencies.map Dependency.patch)) := by
  rw [Compiler.renderModule, patches_const _ hc, hm]
  rfl

theorem clear_patches {ds : List Dependency} (h : ds.Pairwise fun a b => a.span.meets b.span = false) :
    Patch.Clear (ds.map Dependency.patch) :=
  List.pairwise_map.mpr h

theorem Registered.splice_render {resource : String} {m : Module} (h : Registered resource m) (source : String)
    (hbounds : ∀ d ∈ m.dependencies,
      Boundary source.toList d.span.start ∧ Boundary source.toList d.span.stop) :
    ∃ patches : List Patch, patches.Perm (m.dependencies.map Dependency.patch) ∧
      Splice 0 source.toList patches (Patch.render source (m.dependencies.map Dependency.patch)).toList :=
  ⟨_, Patch.sort_perm _, Patch.splice_render source _ (clear_patches h.clear)
    (List.forall_mem_map.mpr h.forward) (List.forall_mem_map.mpr hbounds)⟩

theorem Registered.render_eq {resource : String} {m m' : Module} (h : Registered resource m)
    (hperm : m'.dependencies.Perm m.dependencies) (source : String) :
    Patch.render source (m'.dependencies.map Dependency.patch) =
      Patch.render source (m.dependencies.map Dependency.patch) :=
  (Patch.render_eq_of_perm source (clear_patches h.clear).nodup_spans (hperm.symm.map _)).symm

/-! ## Requests and the code that comes of them -/

/-- A module grants a request unless the span equals or overlaps one that it has granted. Then it
names the first of those and stays as it is. Its code has every text that was granted in place of
exactly the bytes of its span, all other pieces where they were, and does not depend on the order
of the requests. -/
theorem requests_disjoint_and_spliced (resource : String) (ds : List Dependency)
    (hforward : ∀ d ∈ ds, d.span.Forward) :
    let m := (ofResource resource).requests ds
    (m.dependencies.Pairwise fun a b => a.span ≠ b.span ∧ a.span.overlaps b.span = false) ∧
    (∀ d, d.span.Forward →
      ((∃ e, m.addDependency d = .error e) ↔
        ∃ a ∈ m.dependencies, a.span = d.span ∨ a.span.overlaps d.span = true) ∧
      (∀ e, m.addDependency d = .error e →
        m.request d = m ∧
        ∃ earlier first later, m.dependencies = earlier ++ first :: later ∧
          (first.span = d.span ∨ first.span.overlaps d.span = true) ∧
          (∀ a ∈ earlier, a.span ≠ d.span ∧ a.span.overlaps d.span = false) ∧
          e = .rangeConflict resource first.span d.span) ∧
      (∀ m', m.addDependency d = .ok m' → m' = { m with dependencies := m.dependencies ++ [d] })) ∧
    ∀ (c : Compiler) (source : String), c.compilation.templates .const = some Template.const →
      (∀ d ∈ m.dependencies, Boundary source.toList d.span.start ∧ Boundary source.toList d.span.stop) →
      ∃ code, c.renderModule m source = .ok code ∧
        (∃ patches : List Patch, patches.Perm (m.dependencies.map Dependency.patch) ∧
          Splice 0 source.toList patches code.toList) ∧
        (∀ order : List Dependency, order.Perm m.dependencies →
          ((ofResource resource).requests order).dependencies = order) ∧
        ∀ others : List Dependency, (∀ d ∈ others, d.span.Forward) →
          ((ofResource resource).requests others).dependencies.Perm m.dependencies →
          c.renderModule ((ofResource resource).requests others) source = .ok code := by
  intro m
  have hm : Registered resource m := registered_requests resource ds hforward
  refine ⟨?_, ?_, ?_⟩
  · exact hm.clear.imp fun h => (Span.meets_eq_false_iff _ _).mp h
  · intro d _
    refine ⟨?_, ?_, ?_⟩
    · constructor
      · rintro ⟨e, he⟩
        obtain ⟨earlier, first, later, hds, -, hmeets, -⟩ := (addDependency_eq_error_iff _ _ _).mp he
        exact ⟨first, by simp [hds], (Span.meets_eq_true_iff _ _).mp hmeets⟩
      · rintro ⟨a, ha, hmeets⟩
        cases hadd : m.addDependency d with
        | error e => exact ⟨e, rfl⟩
        | ok m' =>
          have hclear := ((addDependency_eq_ok_iff _ _ _).mp hadd).1 a ha
          rw [(Span.meets_eq_true_iff _ _).mpr hmeets] at hclear
          cases hclear
    · intro e he
      obtain ⟨earlier, first, later, hds, hearlier, hmeets, herror⟩ := (addDependency_eq_error_iff _ _ _).mp he
      rw [hm.resource_eq] at herror
      refine ⟨by rw [request, he], earlier, first, later, hds, ?_, ?_, herror⟩
      · exact (Span.meets_eq_true_iff _ _).mp hmeets
      · intro a ha
        exact (Span.meets_eq_false_iff _ _).mp (hearlier a ha)
    · intro m' hok
      exact ((addDependency_eq_ok_iff _ _ _).mp hok).2
  · intro c source hc hbounds
    refine ⟨_, renderModule_of_const c hc m hm.bindings_eq source, hm.splice_render source hbounds, ?_, ?_⟩
    · intro order horder
      have hclear := hm.clear.perm horder.symm fun h => by rw [Span.meets_comm]; exact h
      rw [requests_of_clear _ _ (by simpa [ofResource] using hclear)]
      simp [ofResource]
    · intro others hothers hperm
      have ho := registered_requests resource others hothers
      rw [renderModule_of_const c hc _ ho.bindings_eq, hm.render_eq hperm]

/-- Two ranges side by side, a place at either edge of the first, and one inside it that is refused. -/
def edgeRequests : List Dependency :=
  [{ span := ⟨2, 4⟩, text := "X", location := none }, { span := ⟨4, 6⟩, text := "Y", location := none },
   { span := ⟨4, 4⟩, text := ">", location := none }, { span := ⟨2, 2⟩, text := "<", location := none },
   { span := ⟨3, 3⟩, text := "!", location := none }]

theorem requests_at_edges :
    (∀ d ∈ edgeRequests, d.span.Forward) ∧
    let m := (ofResource "/a.js").requests edgeRequests
    m.dependencies = edgeRequests.take 4 ∧
    (m.dependencies.Pairwise fun a b => a.span ≠ b.span ∧ a.span.overlaps b.span = false) ∧
    ∀ c : Compiler, c.compilation.templates .const = some Template.const →
      ∃ code, c.renderModule m "abcdefg" = .ok code ∧
        ∃ patches : List Patch, patches.Perm (m.dependencies.map Dependency.patch) ∧
          Splice 0 "abcdefg".toList patches code.toList := by
  have hrun : ((ofResource "/a.js").requests edgeRequests).dependencies = edgeRequests.take 4 := rfl
  obtain ⟨hpairs, -, hcode⟩ := requests_disjoint_and_spliced "/a.js" edgeRequests (by decide)
  refine ⟨by decide, hrun, hpairs, ?_⟩
  intro c hc
  obtain ⟨code, hrender, hsplice, -⟩ := hcode c "abcdefg" hc (by
    rw [hrun]
    intro d hd
    have hcut (n : Nat) (hn : n ≤ 7) : Boundary "abcdefg".toList n := by
      refine ⟨"abcdefg".toList.take n, "abcdefg".toList.drop n, (List.take_append_drop _ _).symm, ?_⟩
      interval_cases n <;> rfl
    have hends : ∀ d ∈ edgeRequests.take 4, d.span.start ≤ 7 ∧ d.span.stop ≤ 7 := by decide
    exact ⟨hcut _ (hends d hd).1, hcut _ (hends d hd).2⟩)
  exact ⟨code, hrender, hsplice⟩

end Module

end Nodeless
