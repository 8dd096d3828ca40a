import Nodeless.Proofs.Build.Hook

/-!
# Dispatch

The two searches of a dispatch, over the chains that a chain starts with and over the handlers of
each, are one run of a list of calls. What stops the run is all that decides its outcome, so a handler
registered behind it, or for no chain of the list, changes nothing.
-/

namespace Nodeless

namespace Chain

/-- The chain as far as its first `n` members. -/
def upTo (chain : Chain) (n : Nat) : Chain := { chain with members := chain.members.take n }

theorem length_members_upTo_le (chain : Chain) (n : Nat) : (chain.upTo n).members.length ≤ n :=
  List.length_take_le n chain.members

theorem path_upTo_succ {chain : Chain} {n : Nat} (h : n < chain.members.length) :
    (chain.upTo (n + 1)).path = (chain.upTo n).path ++ "." ++ chain.members[n].text := by
  rw [upTo, List.take_succ_eq_append_getElem h, path_snoc]
  rfl

/-- Names may hold points, so it is the length of the path that tells the chains apart. -/
theorem length_path_upTo_lt {chain : Chain} {m n : Nat} (hmn : m < n) (hn : n ≤ chain.members.length) :
    (chain.upTo m).path.length < (chain.upTo n).path.length := by
  have hstep {n : Nat} (hn : n < chain.members.length) :
      (chain.upTo n).path.length < (chain.upTo (n + 1)).path.length := by
    have hpoint : ".".length = 1 := rfl
    rw [path_upTo_succ hn, String.length_append, String.length_append]
    omega
  induction n with
  | zero => exact absurd hmn (Nat.not_lt_zero m)
  | succ n ih =>
    rcases Nat.lt_succ_iff_lt_or_eq.mp hmn with hlt | rfl
    · exact Nat.lt_trans (ih hlt (Nat.le_of_succ_le hn)) (hstep hn)
    · exact hstep hn

theorem path_upTo_ne {chain : Chain} {m n : Nat} (hmn : m < n) (hn : n ≤ chain.members.length) :
    (chain.upTo m).path ≠ (chain.upTo n).path := by
  intro heq
  have hlt := length_path_upTo_lt hmn hn
  rw [heq] at hlt
  exact Nat.lt_irrefl _ hlt

end Chain

namespace Recognizer

/-! ## Calls -/

/-- A handler and the chain it is shown. -/
structure Call where
  handler : Handler
  chain : Chain

def Call.run (call : Call) (site : Site) (draft : Draft) : Except BuildError Flow × Draft :=
  (call.handler call.chain).run site draft

/-- The calls of the handlers registered under the path of a chain, in order of registration. -/
def callsOn (r : Recognizer) (chain : Chain) : List Call :=
  r.handlers.filterMap fun entry => if entry.1 = chain.path then some ⟨entry.2, chain⟩ else none

/-- The calls for a chain as far as its first `n` members, and for all that it starts with, the longest
first. -/
def callsUpTo (r : Recognizer) (chain : Chain) : Nat → List Call
  | 0 => r.callsOn (chain.upTo 0)
  | n + 1 => r.callsOn (chain.upTo (n + 1)) ++ r.callsUpTo chain n

def calls (r : Recognizer) (chain : Chain) : List Call := r.callsUpTo chain chain.members.length

/-- Makes the calls one after another, each on the draft that the last one left, until one handles its
chain or fails. -/
def runCalls (site : Site) : List Call → Draft → Except BuildError Flow × Draft
  | [], draft => (.ok .declined, draft)
  | call :: calls, draft =>
    match call.run site draft with
    | (.ok .declined, after) => runCalls site calls after
    | outcome => outcome

/-- The run reaches the call, and the call handles its chain or fails. -/
def StopsAt (site : Site) (draft : Draft) (calls : List Call) (call : Call) : Prop :=
  ∃ before after reached, calls = before ++ call :: after ∧
    runCalls site before draft = (.ok .declined, reached) ∧ (call.run site reached).1 ≠ .ok .declined

variable {r : Recognizer} {site : Site} {chain : Chain}

theorem runCalls_append (calls rest : List Call) (draft : Draft) :
    runCalls site (calls ++ rest) draft =
      match runCalls site calls draft with
      | (.ok .declined, after) => runCalls site rest after
      | outcome => outcome := by
  induction calls generalizing draft with
  | nil => rfl
  | cons call calls ih =>
    simp only [List.cons_append, runCalls]
    rcases call.run site draft with ⟨_ | _ | _, after⟩
    · rfl
    · rfl
    · exact ih after

theorem runCalls_eq_of_stops {draft reached : Draft} {before : List Call} {call : Call}
    (hreached : runCalls site before draft = (.ok .declined, reached))
    (hstop : (call.run site reached).1 ≠ .ok .declined) (after : List Call) :
    runCalls site (before ++ call :: after) draft = call.run site reached := by
  rw [runCalls_append, hreached]
  simp only [runCalls]
  generalize call.run site reached = outcome at hstop ⊢
  rcases outcome with ⟨_ | _ | _, after⟩
  · rfl
  · rfl
  · exact absurd rfl hstop

/-! ## A dispatch is a run of calls -/

theorem run_offer (handlers : List Handler) (draft : Draft) :
    (offer chain handlers).run site draft =
      runCalls site (handlers.map fun handler => ⟨handler, chain⟩) draft := by
  induction handlers generalizing draft with
  | nil => rfl
  | cons handler handlers ih =>
    rw [offer, Hook.run_bind, List.map_cons, runCalls, Call.run]
    rcases (handler chain).run site draft with ⟨_ | _ | _, after⟩
    · rfl
    · rfl
    · exact ih after

theorem callsOn_eq (r : Recognizer) (chain : Chain) :
    r.callsOn chain = (r.handlersFor chain.path).map fun handler => ⟨handler, chain⟩ := by
  unfold callsOn handlersFor
  induction r.handlers with
  | nil => rfl
  | cons entry entries ih =>
    by_cases hpath : entry.1 = chain.path
    · simp only [List.filterMap_cons, ih, List.filter_cons, hpath, decide_true, if_true, List.map_cons]
    · simp only [List.filterMap_cons, ih, List.filter_cons, hpath, decide_false, Bool.false_eq_true, if_false]

theorem run_offerEach (chains : List Chain) (draft : Draft) :
    (r.offerEach chains).run site draft = runCalls site (chains.flatMap r.callsOn) draft := by
  induction chains generalizing draft with
  | nil => rfl
  | cons chain chains ih =>
    rw [offerEach, Hook.run_bind, run_offer, ← callsOn_eq, List.flatMap_cons, runCalls_append]
    rcases runCalls site (r.callsOn chain) draft with ⟨_ | _ | _, after⟩
    · rfl
    · rfl
    · exact ih after

theorem calls_eq (r : Recognizer) (chain : Chain) : r.calls chain = chain.prefixes.flatMap r.callsOn := by
  have hupTo (n : Nat) :
      r.callsUpTo chain n = ((List.range (n + 1)).reverse.map chain.upTo).flatMap r.callsOn := by
    induction n with
    | zero => exact (List.append_nil _).symm
    | succ n ih =>
      rw [callsUpTo, ih, List.range_succ (n := n + 1), List.reverse_append, List.reverse_singleton,
        List.singleton_append, List.map_cons, List.flatMap_cons]
  exact hupTo chain.members.length

theorem run_dispatch_eq_calls (r : Recognizer) (site : Site) (draft : Draft) (chain : Chain) :
    (r.dispatch chain).run site draft =
      if draft.scope.isLocal chain.root.text then (.ok .declined, draft)
      else runCalls site (r.calls chain) draft := by
  rw [dispatch, Hook.run_bind_of_ok (Hook.run_get site draft)]
  split
  · rfl
  · rw [run_offerEach, calls_eq]

/-! ## One more handler -/

variable {path : String}

theorem callsOn_onChain_of_ne (handler : Handler) (h : chain.path ≠ path) :
    (r.onChain path handler).callsOn chain = r.callsOn chain := by
  simp only [callsOn, onChain, List.filterMap_append, List.filterMap_cons, List.filterMap_nil, if_neg h.symm,
    List.append_nil]

theorem callsOn_onChain_self (handler : Handler) (h : chain.path = path) :
    (r.onChain path handler).callsOn chain = r.callsOn chain ++ [⟨handler, chain⟩] := by
  simp only [callsOn, onChain, List.filterMap_append, List.filterMap_cons, List.filterMap_nil, if_pos h.symm]

theorem callsUpTo_onChain_of_ne (handler : Handler) {n : Nat} (h : ∀ m ≤ n, (chain.upTo m).path ≠ path) :
    (r.onChain path handler).callsUpTo chain n = r.callsUpTo chain n := by
  induction n with
  | zero => exact callsOn_onChain_of_ne handler (h 0 (Nat.le_refl _))
  | succ n ih =>
    rw [callsUpTo, callsUpTo, callsOn_onChain_of_ne handler (h (n + 1) (Nat.le_refl _)),
      ih fun m hm => h m (Nat.le_succ_of_le hm)]

theorem length_members_le_of_mem_callsUpTo {call : Call} {n : Nat} (h : call ∈ r.callsUpTo chain n) :
    call.chain.members.length ≤ n := by
  have hon {n : Nat} (h : call ∈ r.callsOn (chain.upTo n)) : call.chain.members.length ≤ n := by
    rw [callsOn_eq] at h
    obtain ⟨handler, -, rfl⟩ := List.mem_map.mp h
    exact chain.length_members_upTo_le n
  induction n with
  | zero => exact hon h
  | succ n ih =>
    rcases List.mem_append.mp h with h | h
    · exact hon h
    · exact Nat.le_succ_of_le (ih h)

theorem exists_callsUpTo_onChain (r : Recognizer) (handler : Handler) {n k : Nat} (hn : n ≤ k)
    (hk : k ≤ chain.members.length) (hpath : (chain.upTo n).path = path) :
    ∃ early late, r.callsUpTo chain k = early ++ late ∧
      (r.onChain path handler).callsUpTo chain k = early ++ ⟨handler, chain.upTo n⟩ :: late ∧
      ∀ call ∈ late, call.chain.members.length < n := by
  induction k with
  | zero =>
    obtain rfl := Nat.le_zero.mp hn
    exact ⟨_, [], (List.append_nil _).symm, callsOn_onChain_self handler hpath, fun _ h => nomatch h⟩
  | succ k ih =>
    simp only [callsUpTo]
    rcases Nat.le_succ_iff.mp hn with hle | rfl
    · obtain ⟨early, late, hold, hnew, hlate⟩ := ih hle (Nat.le_of_succ_le hk)
      have hne : (chain.upTo (k + 1)).path ≠ path := by
        rw [← hpath]
        exact (Chain.path_upTo_ne (Nat.lt_succ_of_le hle) hk).symm
      refine ⟨r.callsOn (chain.upTo (k + 1)) ++ early, late, ?_, ?_, hlate⟩
      · rw [hold, List.append_assoc]
      · rw [callsOn_onChain_of_ne handler hne, hnew, List.append_assoc]
    · have hshorter : ∀ m ≤ k, (chain.upTo m).path ≠ path := by
        intro m hm
        rw [← hpath]
        exact Chain.path_upTo_ne (Nat.lt_succ_of_le hm) hk
      refine ⟨_, r.callsUpTo chain k, rfl, ?_, ?_⟩
      · rw [callsOn_onChain_self handler hpath, callsUpTo_onChain_of_ne handler hshorter, List.append_assoc,
          List.singleton_append]
      · intro call hcall
        exact Nat.lt_succ_of_le (length_members_le_of_mem_callsUpTo hcall)

theorem runCalls_onChain_of_stops {draft : Draft} {call : Call} {n : Nat} (handler : Handler)
    (hn : n ≤ chain.members.length) (hpath : (chain.upTo n).path = path)
    (hstops : StopsAt site draft (r.calls chain) call) (hcall : n ≤ call.chain.members.length) :
    runCalls site ((r.onChain path handler).calls chain) draft = runCalls site (r.calls chain) draft := by
  obtain ⟨before, after, reached, hcalls, hreached, hstop⟩ := hstops
  obtain ⟨early, late, hold, hnew, hlate⟩ := exists_callsUpTo_onChain r handler hn (Nat.le_refl _) hpath
  have hearly : ∃ rest, early = before ++ call :: rest := by
    have hnot : call ∉ late := fun hmem => absurd (hlate call hmem) (Nat.not_lt.mpr hcall)
    rcases List.append_eq_append_iff.mp (hcalls.symm.trans hold) with ⟨rest, heq, hrest⟩ | ⟨rest, -, hrest⟩
    · cases rest with
      | nil => exact absurd (hrest ▸ List.mem_cons_self : call ∈ [] ++ late) hnot
      | cons head rest =>
        obtain ⟨rfl, -⟩ := List.cons.inj hrest
        exact ⟨rest, heq⟩
    · exact absurd (hrest ▸ List.mem_append_right rest List.mem_cons_self) hnot
  obtain ⟨rest, rfl⟩ := hearly
  have hrun (late : List Call) :
      runCalls site ((before ++ call :: rest) ++ late) draft = call.run site reached := by
    rw [List.append_assoc, List.cons_append, runCalls_eq_of_stops hreached hstop]
  unfold calls
  rw [hold, hnew, hrun, hrun]

/-! ## The outcome of a dispatch -/

/-- A dispatch calls the handlers of a chain and of all it starts with, each with the chain it is
registered for, until one handles it or fails. One handler more changes nothing if it is registered for
none of these chains, or behind what already stops the dispatch. -/
theorem dispatch_runs_calls (r : Recognizer) (site : Site) (draft : Draft) (chain : Chain) :
    (r.dispatch chain).run site draft =
      (if draft.scope.isLocal chain.root.text then (.ok .declined, draft)
        else runCalls site (r.calls chain) draft) ∧
    ∀ (path : String) (handler : Handler),
      (∀ n ≤ chain.members.length, (chain.upTo n).path ≠ path) ∨
        (∃ n ≤ chain.members.length, (chain.upTo n).path = path ∧
          ∃ call, StopsAt site draft (r.calls chain) call ∧ n ≤ call.chain.members.length) →
      ((r.onChain path handler).dispatch chain).run site draft = (r.dispatch chain).run site draft := by
  refine ⟨run_dispatch_eq_calls r site draft chain, ?_⟩
  intro path handler hbehind
  have hcalls :
      runCalls site ((r.onChain path handler).calls chain) draft = runCalls site (r.calls chain) draft := by
    rcases hbehind with hnone | ⟨n, hn, hpath, call, hstops, hcall⟩
    · rw [calls, callsUpTo_onChain_of_ne handler hnone, calls]
    · exact runCalls_onChain_of_stops handler hn hpath hstops hcall
  rw [run_dispatch_eq_calls, run_dispatch_eq_calls, hcalls]

/-- Fails on every chain. -/
def refuse : Handler := fun c => throw (.rangeConflict "/a.js" c.span c.span)

/-- Two handlers of `require.main`, one that warns and declines and one that replaces, and a handler of
`require` in front of them that fails. -/
def contested : Recognizer where
  handlers :=
    [("require", refuse),
      ("require.main", fun _ => do
        Hook.warn "main is not supported" none
        return .declined),
      ("require.main", fun c => Hook.replace "main" c.span none)]

def contestedSite : Site := ⟨⟨"/", "/module.js"⟩, some (Module.ofResource "/a.js")⟩

/-- The chain of `require.main.filename`. -/
def mainFilename : Chain :=
  ⟨⟨"require", ⟨0, 7⟩, ⟨⟨1, 0⟩, ⟨1, 7⟩⟩⟩,
    [⟨"main", ⟨8, 12⟩, ⟨⟨1, 8⟩, ⟨1, 12⟩⟩⟩,
      ⟨"filename", ⟨13, 21⟩, ⟨⟨1, 13⟩, ⟨1, 21⟩⟩⟩]⟩

/-- The second handler of `require.main` stops the dispatch, and the warning of the first is kept. A third
would not be called, nor would a handler of a chain that this one does not start with. -/
theorem dispatch_runs_calls_contested :
    (contested.dispatch mainFilename).run contestedSite {} =
      (.ok .handled,
        { dependencies := [{ span := ⟨0, 12⟩, text := "main", location := none }]
          warnings := [{ module := "/a.js", message := "main is not supported", location := none }] }) ∧
    ((contested.onChain "require.main" refuse).dispatch mainFilename).run contestedSite {} =
      (contested.dispatch mainFilename).run contestedSite {} ∧
    ((contested.onChain "require.main.paths" refuse).dispatch mainFilename).run contestedSite {} =
      (contested.dispatch mainFilename).run contestedSite {} := by
  obtain ⟨hrun, hmore⟩ := dispatch_runs_calls contested contestedSite {} mainFilename
  refine ⟨?_, ?_, ?_⟩
  · rw [hrun]
    decide +kernel
  · refine hmore _ _ (.inr ⟨1, by decide, by decide +kernel, ?_⟩)
    exact ⟨⟨_, mainFilename.upTo 1⟩, ⟨[_], [_], _, rfl, rfl, by decide +kernel⟩, Nat.le_refl 1⟩
  · exact hmore _ _ (.inl (by decide +kernel))

end Recognizer

end Nodeless
