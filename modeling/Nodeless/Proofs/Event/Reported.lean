import Mathlib.Data.List.Perm.Basic
import Nodeless.Proofs.Event.Announced

/-!
# What becomes of every name

No bare name of a source is lost and none is reported twice. A walk settles each of them once: a
declaration reports it, at once or at the brace of the body that it is a parameter of, or it is the
root of one chain, or it is a name that stands for no value. Points are never looked behind: a
property is neither declared nor the root of a chain.
-/

namespace Nodeless

namespace Event

def declared? : Event → Option Name
  | .declare name _ => some name
  | _ => none

def declaredNames (events : List Event) : List Name := events.filterMap declared?

@[simp]
theorem declaredNames_append (a b : List Event) : declaredNames (a ++ b) = declaredNames a ++ declaredNames b := by
  simp [declaredNames]

end Event

namespace Walker

/-! ## Bare names, step by step -/

section

variable {walker : Walker} {lines : LineIndex} {prev : Option Token} {t : Token} {rest : List Token}

theorem undeclared_bare_of_other (h : t.isIdentifier = true → t.span.start ∈ walker.declared) :
    walker.undeclared (bareNames prev (t :: rest)) = walker.undeclared (bareNames (some t) rest) := by
  rw [bareNames]
  split
  · rename_i hbare
    rw [Bool.and_eq_true] at hbare
    exact List.filter_cons_of_neg (by simp [h hbare.1])
  · rfl

theorem undeclared_bare_of_free (name : t.isIdentifier = true) (free : t.span.start ∉ walker.declared)
    (hproperty : prev.any Token.isPoint = true → t.isName = false) :
    walker.undeclared (bareNames prev (t :: rest)) = t :: walker.undeclared (bareNames (some t) rest) := by
  have hprev : prev.any Token.isPoint = false := by
    by_contra hpoint
    have := hproperty (Bool.not_eq_false _ ▸ hpoint)
    rw [isName_of_isIdentifier name] at this
    cases this
  rw [bareNames_cons_of_name name hprev]
  exact List.filter_cons_of_pos (by simp [free])

theorem parameters_bare {opening : Token} {inside behind after : List Token}
    (close : splitAtClose 0 behind = some (inside, after)) :
    (parameters opening 0 inside).Sublist (bareNames (some opening) behind) := by
  obtain ⟨mark, rfl, -⟩ := splitAtClose_eq_append close
  rw [bareNames_append]
  exact (parameters_sublist opening 0 inside).trans (List.sublist_append_left _ _)

theorem settlesList_fst (opening : Token) (inside after : List Token) (fate : Fate) :
    (walker.settlesList opening inside after fate).map Prod.fst = walker.undeclared (parameters opening 0 inside) := by
  simp [settlesList, Function.comp_def]

theorem reported_fst (ts : List Token) : (reported ts).map Prod.fst = ts := by
  simp [reported, Function.comp_def]

theorem list_perm (kind : ScopeKind) (after : List Token) (fate : Fate) {opening : Token} {inside names : List Token}
    (hsub : (parameters opening 0 inside).Sublist names) (hnames : Token.InOrder names) :
    (walker.undeclared names).Perm ((walker.settlesList opening inside after fate).map Prod.fst ++
      (walker.list lines kind opening inside after).undeclared names) := by
  have hdeclared : (walker.list lines kind opening inside after).undeclared names =
      (walker.mark (parameters opening 0 inside)).undeclared names := by
    simp only [undeclared, list, declared_announce]
  rw [settlesList_fst, hdeclared]
  exact undeclared_perm hsub hnames

theorem Turn.bareNames_next {step : Step} {settled : List (Token × Option Fate)}
    (h : Turn walker lines prev t rest step settled) :
    bareNames (step.place t rest).prev (step.place t rest).ahead = bareNames (some t) rest := by
  cases h with
  | skipsProperty point property =>
    rw [bareNames_of_point point property, List.head?_eq_getElem?]
    rfl
  | reads => exact (bareNames_drop_members t rest).symm
  | _ => rfl

theorem Turn.names {step : Step} {settled : List (Token × Option Fate)}
    (h : Turn walker lines prev t rest step settled) (hts : Token.InOrder (t :: rest))
    (hproperty : prev.any Token.isPoint = true → t.isName = false) :
    (walker.undeclared (bareNames prev (t :: rest))).Perm (settled.map Prod.fst ++
      (step.place t rest).walker.undeclared (bareNames (step.place t rest).prev (step.place t rest).ahead)) := by
  have hnames : Token.InOrder (bareNames (some t) rest) :=
    hts.sublist ((bareNames_sublist _ _).trans (List.sublist_cons_self t rest))
  rw [h.bareNames_next]
  cases h with
  | opens brace | closes brace =>
    rw [undeclared_bare_of_other (by simp [brace, Token.isIdentifier, Kind.isIdentifier])]
    exact .refl _
  | skipsProperty point =>
    have hname : t.isIdentifier ≠ true := by
      intro hname
      obtain ⟨text, hkind⟩ := exists_identifier hname
      simp [Token.isPoint, hkind] at point
    rw [undeclared_bare_of_other fun h => absurd h hname]
    exact .refl _
  | passes brace point name =>
    rw [undeclared_bare_of_other name]
    exact .refl _
  | declares kind word bare =>
    rw [undeclared_bare_of_other fun hname => absurd hname (not_isIdentifier_of_isKeyword word), reported_fst]
    exact undeclared_perm bare hnames
  | @heads name before listed inside after opening kind head _ split paren close bare only =>
    have word := isKeyword_of_head head
    have hname : name.Sublist (bareNames (some t) rest) := by
      rw [split, bareNames_append]
      exact bare.trans (List.sublist_append_left _ _)
    have hparameters : (parameters opening 0 inside).Sublist (bareNames (some t) rest) := by
      rw [split, bareNames_append]
      exact ((parameters_bare close).trans (bareNames_cons _ _ _)).trans (List.sublist_append_right _ _)
    rw [undeclared_bare_of_other fun hname => absurd hname (not_isIdentifier_of_isKeyword word), List.map_append,
      reported_fst, List.append_assoc]
    exact (undeclared_perm hname hnames).trans ((list_perm kind after .headParameter hparameters hnames).append_left _)
  | @method listed inside after opening name free split paren close head =>
    have hparameters : (parameters opening 0 inside).Sublist (bareNames (some t) rest) := by
      rw [split]
      exact (parameters_bare close).trans (bareNames_cons _ _ _)
    rw [undeclared_bare_of_free name free hproperty, List.map_cons, List.cons_append]
    exact (list_perm .function _ .headParameter hparameters hnames).cons t
  | arrow paren close isArrow =>
    rw [undeclared_bare_of_other (by simp [paren, Token.isIdentifier, Kind.isIdentifier])]
    exact list_perm .function _ .arrowParameter (parameters_bare close) hnames
  | lone name free split isArrow =>
    rw [undeclared_bare_of_free name free hproperty]
    simp only [Step.place, undeclared, declared_announce]
    exact .refl _
  | key name free | reads name free =>
    rw [undeclared_bare_of_free name free hproperty]
    exact .refl _

theorem isPoint_of_isName (h : t.isName = true) : t.isPoint = false := by
  unfold Token.isName at h
  unfold Token.isPoint
  split at h <;> simp_all

theorem isName_of_isKeyword (h : t.kind.isKeyword = true) : t.isName = true := by
  unfold Kind.isKeyword at h
  unfold Token.isName
  split at h <;> simp_all

theorem isPoint_behind_members (h : t.isName = true) :
    (t :: rest)[2 * (members rest).length]?.any Token.isPoint = false := by
  fun_induction members rest generalizing t with
  | case1 point u ts hmember ih =>
    rw [Bool.and_eq_true] at hmember
    exact ih hmember.2
  | case2 => exact isPoint_of_isName h
  | case3 => exact isPoint_of_isName h

theorem Turn.property {step : Step} {settled : List (Token × Option Fate)}
    (h : Turn walker lines prev t rest step settled) :
    (step.place t rest).prev.any Token.isPoint = true →
      (step.place t rest).ahead.head?.any Token.isName = false := by
  have hzero {walker : Walker} {events : List Event} (ht : t.isPoint = false) :
      (Step.place ⟨walker, events, 0⟩ t rest).prev.any Token.isPoint = true →
        (Step.place ⟨walker, events, 0⟩ t rest).ahead.head?.any Token.isName = false := by
    intro hpoint
    rw [show (Step.place ⟨walker, events, 0⟩ t rest).prev = some t from rfl, Option.any_some, ht] at hpoint
    cases hpoint
  cases h with
  | opens brace | closes brace => exact hzero (by simp [Token.isPoint, brace])
  | skipsProperty _ property =>
    cases rest with
    | nil => cases property
    | cons u rest =>
      intro hpoint
      rw [show (Step.place ⟨walker, [], 1⟩ t (u :: rest)).prev = some u from rfl, Option.any_some,
        isPoint_of_isName property] at hpoint
      cases hpoint
  | passes brace point name => exact point
  | declares kind word => exact hzero (isPoint_of_isName (isName_of_isKeyword word))
  | heads kind head => exact hzero (isPoint_of_isName (isName_of_isKeyword (isKeyword_of_head head)))
  | arrow paren => exact hzero (by simp [Token.isPoint, paren])
  | method name | lone name | key name => exact hzero (isPoint_of_isName (isName_of_isIdentifier name))
  | reads name =>
    intro hpoint
    have hname := @isPoint_behind_members t rest (isName_of_isIdentifier name)
    rw [Step.place] at hpoint
    rw [hname] at hpoint
    cases hpoint

end

/-! ## Reports -/

def pending (walker : Walker) : List Name := walker.bodies.flatMap fun b => b.2.parameters

/-- The names with a fate among those that a walk settles, or those that a declaration reports. -/
def namesWith (lines : LineIndex) (fate : Option Fate) (settled : List (Token × Option Fate)) : List Name :=
  (settled.filter fun entry => entry.2 = fate).map fun entry => nameOf lines entry.1

theorem namesWith_append (lines : LineIndex) (fate : Option Fate) (settled more : List (Token × Option Fate)) :
    namesWith lines fate (settled ++ more) = namesWith lines fate settled ++ namesWith lines fate more := by
  simp [namesWith]

theorem namesWith_reported (lines : LineIndex) (ts : List Token) :
    namesWith lines none (reported ts) = ts.map (nameOf lines) := by
  simp [namesWith, reported, List.filter_map, Function.comp_def]

theorem declared_declares (lines : LineIndex) (kind : DeclarationKind) (ts : List Token) :
    Event.declaredNames (declares lines kind ts) = ts.map (nameOf lines) := by
  simp [Event.declaredNames, declares, List.filterMap_map, Function.comp_def, Event.declared?]

theorem pending_announce (lines : LineIndex) (walker : Walker) (kind : ScopeKind) (ts after : List Token)
    (fate : Fate) :
    (walker.announce ⟨kind, ts.map (nameOf lines)⟩ after).pending =
      namesWith lines none (ts.map fun t => (t, fateOf after fate)) ++ walker.pending := by
  cases h : startsWith .leftBrace after with
  | false =>
    rw [announce_other _ _ h]
    simp [namesWith, fateOf, h]
  | true =>
    obtain ⟨brace, more, rfl, hkind⟩ := startsWith_eq_true h
    rw [announce_brace _ _ hkind]
    simp [namesWith, fateOf, h, pending, List.filter_map, Function.comp_def]

theorem pending_list (lines : LineIndex) (walker : Walker) (kind : ScopeKind) (opening : Token)
    (inside after : List Token) (fate : Fate) :
    (walker.list lines kind opening inside after).pending =
      namesWith lines none (walker.settlesList opening inside after fate) ++ walker.pending :=
  pending_announce lines (walker.mark (parameters opening 0 inside)) kind _ after fate

theorem pending_filter {bodies : List (Nat × Body)} (h : (bodies.map Prod.fst).Nodup) (key : Nat) :
    (((bodies.lookup key).elim [] Body.parameters) ++
      (bodies.filter fun b => b.1 ≠ key).flatMap fun b => b.2.parameters).Perm
        (bodies.flatMap fun b => b.2.parameters) := by
  induction bodies with
  | nil => exact .refl _
  | cons b bodies ih =>
    obtain ⟨hfresh, hnodup⟩ := List.nodup_cons.mp h
    by_cases hkey : b.1 = key
    · -- No other body has the key, so the filter drops this one alone.
      have hfilter : bodies.filter (fun b => b.1 ≠ key) = bodies := by
        refine List.filter_eq_self.mpr fun c hc => ?_
        have hne : c.1 ≠ key := fun heq => hfresh (List.mem_map.mpr ⟨c, hc, heq.trans hkey.symm⟩)
        simpa using hne
      rw [List.filter_cons_of_neg (by simp [hkey]), hfilter, ← hkey, List.lookup_cons_self]
      exact .refl _
    · have hlookup : (b :: bodies).lookup key = bodies.lookup key := by
        rw [List.lookup_cons, beq_eq_false_iff_ne.mpr (Ne.symm hkey)]
      rw [List.filter_cons_of_pos (by simpa using hkey), hlookup, List.flatMap_cons, List.flatMap_cons]
      refine (List.perm_append_comm_assoc _ _ _).trans ?_
      exact (ih hnodup).append_left _

theorem declared_openBrace (walker : Walker) (t : Token) :
    Event.declaredNames (walker.openBrace t).events =
      (walker.bodies.lookup t.span.start).elim [] Body.parameters := by
  simp [openBrace, Event.declaredNames, List.filterMap_cons, Event.declared?, List.filterMap_map, Function.comp_def]

/-- Whatever a step settles as reported is declared at once or waited for, and what is waited for no
more is declared. -/
theorem Turn.reports {walker : Walker} {lines : LineIndex} {prev : Option Token} {t : Token} {rest : List Token}
    {step : Step} {settled : List (Token × Option Fate)} (h : Turn walker lines prev t rest step settled)
    (hkeys : walker.keys.Nodup) :
    (Event.declaredNames step.events ++ step.walker.pending).Perm
      (walker.pending ++ namesWith lines none settled) := by
  cases h with
  | opens =>
    rw [declared_openBrace]
    exact (pending_filter hkeys t.span.start).trans (.of_eq (List.append_nil _).symm)
  | closes | skipsProperty | passes => exact .of_eq (List.append_nil _).symm
  | declares kind =>
    rw [declared_declares, namesWith_reported]
    exact List.perm_append_comm
  | @heads name _ _ inside after opening kind =>
    rw [declared_declares, namesWith_append, namesWith_reported,
      pending_list lines (walker.mark name) kind opening inside after .headParameter, ← List.append_assoc]
    exact List.perm_append_comm
  | @method _ inside after opening =>
    have hlist := pending_list lines walker .function opening inside after .headParameter
    exact (List.Perm.of_eq hlist).trans List.perm_append_comm
  | @arrow inside after =>
    have hlist := pending_list lines walker .function t inside after .arrowParameter
    exact (List.Perm.of_eq hlist).trans List.perm_append_comm
  | @lone after =>
    have hlone := pending_announce lines walker .function [t] after .arrowParameter
    exact (List.Perm.of_eq hlone).trans List.perm_append_comm
  | key => exact .of_eq (List.append_nil _).symm
  | reads => exact .of_eq (List.append_nil _).symm

theorem namesWith_root_reported (lines : LineIndex) (ts : List Token) :
    namesWith lines (some .root) (reported ts) = [] := by
  simp [namesWith, reported]

theorem namesWith_root_settlesList (lines : LineIndex) (walker : Walker) (opening : Token) (inside after : List Token)
    {fate : Fate} (h : fate ≠ .root) :
    namesWith lines (some .root) (walker.settlesList opening inside after fate) = [] := by
  cases hbrace : startsWith .leftBrace after <;> simp [namesWith, settlesList, fateOf, hbrace, h]

theorem chains_declares (lines : LineIndex) (kind : DeclarationKind) (ts : List Token) :
    Event.chains (declares lines kind ts) = [] := by
  have hmap : declares lines kind ts = (ts.map (nameOf lines)).map (Event.declare · kind) := by simp [declares]
  rw [hmap, Event.chains_declares]

theorem chains_openBrace (walker : Walker) (t : Token) : Event.chains (walker.openBrace t).events = [] :=
  Event.chains_declares _ .lexical

theorem Turn.roots {walker : Walker} {lines : LineIndex} {prev : Option Token} {t : Token} {rest : List Token}
    {step : Step} {settled : List (Token × Option Fate)} (h : Turn walker lines prev t rest step settled) :
    (Event.chains step.events).map (·.root) = namesWith lines (some .root) settled := by
  cases h with
  | opens =>
    rw [chains_openBrace]
    rfl
  | declares =>
    rw [chains_declares, namesWith_root_reported]
    rfl
  | heads =>
    rw [chains_declares, namesWith_append, namesWith_root_reported, namesWith_root_settlesList _ _ _ _ _ (by decide)]
    rfl
  | method =>
    exact (namesWith_root_settlesList _ _ _ _ _ (by decide)).symm
  | arrow =>
    exact (namesWith_root_settlesList _ _ _ _ _ (by decide)).symm
  | @lone after =>
    cases hbrace : startsWith .leftBrace after <;> simp [namesWith, fateOf, hbrace, Event.chains]
  | _ => rfl

/-! ## Whole walks -/

/-- At a place where no property is next. -/
structure Place.Sound (place : Place) : Prop where
  inOrder : Token.InOrder place.ahead
  ready : place.Ready
  property : place.prev.any Token.isPoint = true → place.ahead.head?.any Token.isName = false

theorem Turn.sound {walker : Walker} {lines : LineIndex} {prev : Option Token} {t : Token} {rest : List Token}
    {step : Step} {settled : List (Token × Option Fate)} (h : Turn walker lines prev t rest step settled)
    (hsound : Place.Sound ⟨walker, prev, t :: rest⟩) : (step.place t rest).Sound where
  inOrder := hsound.inOrder.sublist ((List.drop_sublist _ _).trans (List.sublist_cons_self t rest))
  ready := h.ready hsound.inOrder hsound.ready
  property := h.property

theorem Place.sound_start {ts : List Token} (hts : Token.InOrder ts) : Place.Sound ⟨{}, none, ts⟩ where
  inOrder := hts
  ready := ⟨List.nodup_nil, by simp [keys], by simp [keys]⟩
  property := by simp

theorem Place.Ready.pending_nil {walker : Walker} {prev : Option Token} (h : Ready ⟨walker, prev, []⟩) :
    walker.pending = [] := by
  have hkeys : walker.keys = [] := by
    refine List.eq_nil_iff_forall_not_mem.mpr fun key hkey => ?_
    obtain ⟨brace, hmem, -⟩ := h.ahead key hkey
    cases hmem
  rw [pending, List.map_eq_nil_iff.mp hkeys]
  rfl

/-- The account of a walk from a place on: every bare name that no declaration holds is settled once,
the declarations report what is waited for and what is settled as reported, and the chains have the
roots that are settled. -/
structure Accounts (lines : LineIndex) (place : Place) (settled : List (Token × Option Fate)) (events : List Event) :
    Prop where
  names : (place.walker.undeclared (bareNames place.prev place.ahead)).Perm (settled.map Prod.fst)
  reports : (Event.declaredNames events).Perm (place.walker.pending ++ namesWith lines none settled)
  roots : (Event.chains events).map (·.root) = namesWith lines (some .root) settled

theorem Run.accounts {lines : LineIndex} {place : Place} {settled : List (Token × Option Fate)} {events : List Event}
    (h : Run lines place settled events) (hsound : place.Sound) : Accounts lines place settled events := by
  induction h with
  | done =>
    -- Every announced brace is ahead, so nothing is waited for at the end.
    refine ⟨.refl _, ?_, rfl⟩
    rw [hsound.ready.pending_nil]
    exact .refl _
  | @turn walker prev t rest step settled events hstep _ ih =>
    have hturn := turn_of_step hstep
    have hmore := ih (hturn.sound hsound)
    refine ⟨?_, ?_, ?_⟩
    · have hnames := hturn.names hsound.inOrder fun hpoint => by simpa using hsound.property hpoint
      rw [List.map_append]
      exact hnames.trans (hmore.names.append_left _)
    · have hreports := hturn.reports hsound.ready.nodup
      rw [Event.declaredNames_append, namesWith_append, ← List.append_assoc]
      exact ((hmore.reports.append_left _).trans (.of_eq (List.append_assoc _ _ _).symm)).trans
        (hreports.append_right _)
    · rw [Event.chains_append, List.map_append, namesWith_append, hturn.roots, hmore.roots]

theorem Run.events_eq {lines : LineIndex} {place : Place} {settled : List (Token × Option Fate)}
    {events : List Event} (h : Run lines place settled events) :
    Walker.events lines place.walker place.prev place.ahead = .ok events := by
  induction h with
  | done hdepth => exact events_nil_eq_ok_iff.mpr ⟨hdepth, rfl⟩
  | turn hstep _ ih => exact events_cons_eq_ok_iff.mpr ⟨_, _, hstep, ih, rfl⟩

theorem Turn.chain {walker : Walker} {lines : LineIndex} {prev : Option Token} {t : Token} {rest : List Token}
    {step : Step} {settled : List (Token × Option Fate)} (h : Turn walker lines prev t rest step settled) :
    ∀ c ∈ Event.chains step.events,
      t.isIdentifier = true ∧ c = chainAt lines t rest ∧ step.skip = 2 * (members rest).length := by
  intro c hc
  cases h with
  | reads name => exact ⟨name, List.mem_singleton.mp hc, rfl⟩
  | opens =>
    rw [chains_openBrace] at hc
    cases hc
  | declares | heads =>
    rw [chains_declares] at hc
    cases hc
  | _ => cases hc

theorem Run.root_of_within {lines : LineIndex} {place : Place} {settled : List (Token × Option Fate)}
    {events : List Event} (h : Run lines place settled events) (hts : Token.InOrder place.ahead) :
    ∀ c ∈ Event.chains events, ∀ u ∈ bareNames place.prev place.ahead,
      c.span.start ≤ u.span.start → u.span.stop ≤ c.span.stop → c.root.span = u.span := by
  induction h with
  | done =>
    intro c hc
    cases hc
  | @turn walker prev t rest step settled events hstep hrun ih =>
    have hturn := turn_of_step hstep
    have hbehind := hts.sublist ((List.drop_sublist step.skip rest).trans (List.sublist_cons_self t rest))
    have hevents := eventsInOrder hrun.events_eq hbehind
    intro c hc u hu hstart hstop
    have hnonempty := hts.nonempty u ((bareNames_sublist _ _).subset hu)
    -- The name is the token of the step, or it is left to the steps behind it.
    have hu : u = t ∨ u ∈ bareNames (step.place t rest).prev (step.place t rest).ahead := by
      rw [hturn.bareNames_next]
      rw [bareNames] at hu
      split at hu
      · exact List.mem_cons.mp hu
      · exact .inr hu
    rw [Event.chains_append] at hc
    rcases List.mem_append.mp hc with hc | hc
    · obtain ⟨hname, rfl, hskip⟩ := hturn.chain c hc
      rcases hu with rfl | hu
      · rfl
      · have hmem := (bareNames_sublist _ _).subset hu
        simp only [Step.place, hskip] at hmem
        have hle := @stop_chainAt_le lines t rest hts hname u hmem
        omega
    · rcases hu with rfl | hu
      · obtain ⟨v, hv, hfirst⟩ := hevents.start_of_chain hc
        have hlt := (List.pairwise_cons.mp hts.starts_lt).1 v (List.mem_of_mem_drop hv)
        omega
      · exact ih hbehind c hc u hu hstart hstop

end Walker

end Nodeless
