import Nodeless.Proofs.Event.Reached

/-!
# Walks over renamed tokens

The lines of a source enter a walk by the locations of names only. A walk by other lines takes the same
steps and reports the same events but for these, and so does one over other tokens if these do not
change what each step does.
-/

namespace Nodeless

def Name.relocate (lines : LineIndex) (name : Name) : Name := { name with location := lines.location name.span }

def Chain.relocate (lines : LineIndex) (chain : Chain) : Chain :=
  ⟨chain.root.relocate lines, chain.members.map (Name.relocate lines)⟩

/-- The event of another source, whose lines these are. -/
def Event.relocate (lines : LineIndex) : Event → Event
  | .declare name kind => .declare (name.relocate lines) kind
  | .chain c => .chain (c.relocate lines)
  | event => event

def Body.relocate (lines : LineIndex) (body : Body) : Body :=
  { body with parameters := body.parameters.map (Name.relocate lines) }

namespace Walker

def relocate (lines : LineIndex) (walker : Walker) : Walker :=
  { walker with bodies := walker.bodies.map fun b => (b.1, b.2.relocate lines) }

def Step.relocate (lines : LineIndex) (step : Step) : Step :=
  { step with walker := step.walker.relocate lines, events := step.events.map (Event.relocate lines) }

section

variable {walker : Walker} {lines other : LineIndex} {prev : Option Token} {t : Token} {rest ts : List Token}

/-! ## Steps by other lines -/

theorem map_nameOf_relocate (lines other : LineIndex) (ts : List Token) :
    (ts.map (nameOf lines)).map (Name.relocate other) = ts.map (nameOf other) := by
  rw [List.map_map]
  rfl

theorem map_declares_relocate (lines other : LineIndex) (kind : DeclarationKind) (ts : List Token) :
    (declares lines kind ts).map (Event.relocate other) = declares other kind ts := by
  rw [declares, List.map_map]
  rfl

theorem openBrace_relocate (other : LineIndex) (walker : Walker) (t : Token) :
    (walker.relocate other).openBrace t = (walker.openBrace t).relocate other := by
  have hlookup : (walker.relocate other).bodies.lookup t.span.start =
      (walker.bodies.lookup t.span.start).map (Body.relocate other) := by
    rw [relocate]
    dsimp only
    induction walker.bodies with
    | nil => rfl
    | cons b bodies ih =>
      rw [List.map_cons, List.lookup_cons, List.lookup_cons]
      split
      · rfl
      · exact ih
  unfold openBrace
  rw [hlookup]
  cases walker.bodies.lookup t.span.start <;>
    simp [Step.relocate, relocate, Body.relocate, Event.relocate, List.filter_map, Function.comp_def]

theorem announce_relocate (other : LineIndex) (walker : Walker) (body : Body) (after : List Token) :
    (walker.relocate other).announce (body.relocate other) after = (walker.announce body after).relocate other := by
  cases after with
  | nil => rfl
  | cons brace after =>
    unfold announce
    dsimp only
    split <;> rfl

theorem list_relocate (lines other : LineIndex) (kind : ScopeKind) (opening : Token) (inside after : List Token) :
    (walker.relocate other).list other kind opening inside after =
      (walker.list lines kind opening inside after).relocate other := by
  rw [list, list, ← announce_relocate, Body.relocate]
  simp only [map_nameOf_relocate]
  rfl

theorem takeHead_relocate (lines other : LineIndex) (kind : ScopeKind) (ts : List Token) :
    (walker.relocate other).takeHead other kind ts = (walker.takeHead lines kind ts).relocate other := by
  cases hhead : parenthesised ts with
  | none => rw [takeHead_of_none hhead, takeHead_of_none hhead]
  | some split =>
    obtain ⟨opening, behind, rfl, -, -⟩ := parenthesised_eq_some hhead
    rw [takeHead_of_some hhead, takeHead_of_some hhead, list_relocate]

theorem openParen_relocate (lines other : LineIndex) (t : Token) (rest : List Token) :
    (walker.relocate other).openParen other t rest = (walker.openParen lines t rest).relocate other := by
  unfold openParen
  rcases splitAtClose 0 rest with _ | ⟨inside, _ | ⟨arrow, after⟩⟩
  · rfl
  · rfl
  · dsimp only
    split
    · rw [takeParameters_eq, takeParameters_eq, list_relocate lines]
      rfl
    · rfl

theorem value_relocate (lines other : LineIndex) (prev : Option Token) (t : Token) (rest : List Token) :
    (walker.relocate other).value other prev t rest = (walker.value lines prev t rest).relocate other := by
  cases hlone : startsWith .arrow rest with
  | true =>
    rw [value_of_arrow hlone, value_of_arrow hlone, Step.relocate, ← announce_relocate]
    rfl
  | false =>
    rw [value_of_not_arrow hlone, value_of_not_arrow hlone]
    split
    · rfl
    · rw [Step.relocate, chainAt, ← map_nameOf_relocate lines]
      rfl

/-- A step reads the lines for locations only, unless it is an error. -/
theorem step_relocate {step : Step} (other : LineIndex) (h : walker.step lines prev t rest = .ok step) :
    (walker.relocate other).step other prev t rest = .ok (step.relocate other) := by
  have hdeclare (kind : DeclarationKind) (found : List Token) :
      (⟨(walker.relocate other).mark found, declares other kind (walker.undeclared found), 0⟩ : Step) =
        Step.relocate other ⟨walker.mark found, declares lines kind (walker.undeclared found), 0⟩ := by
    rw [Step.relocate, map_declares_relocate]
    rfl
  unfold Walker.step at h ⊢
  split at h
  case h_1 =>
    cases h
    rw [← openBrace_relocate]
  case h_2 =>
    split at h
    · cases h
    · rename_i hdepth
      cases h
      exact if_neg hdepth
  case h_3 | h_4 | h_5 | h_6 =>
    cases h
    exact congrArg Except.ok (hdeclare _ _)
  case h_7 hkind =>
    cases h
    rw [function_eq hkind, function_eq hkind, Step.relocate, ← takeHead_relocate, map_declares_relocate]
    rfl
  case h_8 =>
    cases h
    rw [Step.relocate, ← takeHead_relocate]
    rfl
  case h_9 =>
    cases h
    rw [← openParen_relocate]
  case h_12 =>
    split at h
    · rename_i hdeclared
      cases h
      exact if_pos hdeclared
    · rename_i hfree
      refine (if_neg hfree).trans ?_
      split at h
      · rename_i hmethod
        cases h
        rw [if_pos hmethod, Step.relocate, ← takeHead_relocate]
        rfl
      · rename_i hvalue
        cases h
        rw [if_neg hvalue, ← value_relocate]
  all_goals
    cases h
    rfl

/-! ## Walks -/

theorem Run.events_map {a : Place} {settled : List (Token × Option Fate)} {events : List Event}
    (h : Run lines a settled events) (other : LineIndex) (f : Token → Token)
    (hsteps : ∀ walker prev t rest step, a.Reaches lines ⟨walker, prev, t :: rest⟩ →
      walker.step lines prev t rest = .ok step →
        (walker.relocate other).step other (prev.map f) (f t) (rest.map f) = .ok (step.relocate other)) :
    Walker.events other (a.walker.relocate other) (a.prev.map f) (a.ahead.map f) =
      .ok (events.map (Event.relocate other)) := by
  induction h with
  | done hdepth => exact events_nil_eq_ok_iff.mpr ⟨hdepth, rfl⟩
  | @turn walker prev t rest step settled events hstep _ ih =>
    refine events_cons_eq_ok_iff.mpr ⟨step.relocate other, events.map (Event.relocate other),
      hsteps walker prev t rest step .refl hstep, ?_, List.map_append⟩
    have hmore := ih fun walker' prev' u us step' hreach =>
      hsteps walker' prev' u us step' (hreach.head ⟨t, rest, step, rfl, hstep, rfl⟩)
    rw [Step.place, List.map_drop, ← List.getElem?_map] at hmore
    exact hmore

end

end Walker

namespace Event

theorem relocate_congr {lines other : LineIndex} (h : ∀ span, lines.location span = other.location span) :
    relocate lines = relocate other := by
  have hname : Name.relocate lines = Name.relocate other := funext fun name => by rw [Name.relocate, h, Name.relocate]
  funext event
  cases event <;> simp [relocate, Chain.relocate, hname]

theorem map_relocate_self {source : String} {events : List Event} (h : ofSource source = .ok events) :
    events.map (relocate (LineIndex.ofChars source.toList)) = events := by
  obtain ⟨-, settled, hrun⟩ := exists_run h
  have hmoved := hrun.events_map (LineIndex.ofChars source.toList) id fun walker prev t rest step _ hstep => by
    simpa using Walker.step_relocate _ hstep
  rw [Option.map_none, List.map_id] at hmoved
  exact Except.ok.inj (hmoved.symm.trans (ofSource_eq_ok_iff.mp h).2)

end Event

end Nodeless
