import Nodeless.Proofs.Event.Braces
import Nodeless.Proofs.Event.Scopes

/-!
# The braces of scopes

Scopes open and close at the braces of a source. The walk jumps over tokens and announces bodies ahead
of their braces, but it meets each brace once.
-/

namespace Nodeless

/-! ## Braces -/

structure Brace where
  opens : Bool
  span : Span
  deriving DecidableEq, Repr

def Token.brace? (t : Token) : Option Brace :=
  match t.kind with
  | .leftBrace => some ⟨true, t.span⟩
  | .rightBrace => some ⟨false, t.span⟩
  | _ => none

/-- The brace where a scope opens or closes. -/
def Event.brace? : Event → Option Brace
  | .enter span _ => some ⟨true, span⟩
  | .exit span => some ⟨false, span⟩
  | .declare _ _ => none
  | .chain _ => none

theorem Token.brace?_eq_none {t : Token} (h : t.isBrace = false) : t.brace? = none := by
  simp only [Token.isBrace, Bool.or_eq_false_iff, decide_eq_false_iff_not] at h
  unfold Token.brace?
  split
  · exact absurd (by assumption) h.1
  · exact absurd (by assumption) h.2
  · rfl

theorem Event.filterMap_brace?_declares (names : List Name) (kind : DeclarationKind) :
    (names.map (Event.declare · kind)).filterMap Event.brace? = [] := by
  simp [List.filterMap_map, Function.comp_def, Event.brace?]

namespace Walker

variable {walker : Walker} {lines : LineIndex} {prev : Option Token} {t : Token} {rest : List Token} {step : Step}

theorem Turn.filterMap_brace?_events {settled : List (Token × Option Fate)}
    (h : Turn walker lines prev t rest step settled) (hplain : t.isBrace = false) :
    step.events.filterMap Event.brace? = [] := by
  cases h with
  | opens brace | closes brace => simp [Token.isBrace, brace] at hplain
  | declares | heads => simp [Walker.declares, List.filterMap_map, Function.comp_def, Event.brace?]
  | _ => rfl

theorem filterMap_brace?_of_step (h : walker.step lines prev t rest = .ok step) :
    step.events.filterMap Event.brace? = (t :: rest.take step.skip).filterMap Token.brace? := by
  have hskipped : (rest.take step.skip).filterMap Token.brace? = [] :=
    List.filterMap_eq_nil_iff.mpr fun u hu => Token.brace?_eq_none ((turn_of_step h).isBrace_of_mem_skipped u hu)
  rw [List.filterMap_cons, hskipped]
  rcases brace_cases t with hopen | hclose | hplain
  · have hstep : step = walker.openBrace t := by simpa [Walker.step, hopen] using h.symm
    simp only [hstep, openBrace, List.filterMap_cons, Event.brace?, Event.filterMap_brace?_declares, Token.brace?,
      hopen]
  · have hevents : step.events = [.exit t.span] := by
      unfold Walker.step at h
      rw [hclose] at h
      dsimp only at h
      split at h
      · cases h
      · cases h
        rfl
    simp only [hevents, List.filterMap_cons, List.filterMap_nil, Event.brace?, Token.brace?, hclose]
  · rw [Token.brace?_eq_none hplain]
    exact (turn_of_step h).filterMap_brace?_events hplain

theorem Run.filterMap_brace? {settled : List (Token × Option Fate)} {place : Place} {events : List Event}
    (h : Run lines place settled events) :
    events.filterMap Event.brace? = place.ahead.filterMap Token.brace? := by
  induction h with
  | done => rfl
  | @turn walker prev t rest step settled events hstep hrun ih =>
    have hahead : t :: rest = (t :: rest.take step.skip) ++ (step.place t rest).ahead := by
      rw [List.cons_append, Step.place, List.take_append_drop]
    dsimp only
    rw [hahead, List.filterMap_append, List.filterMap_append, ih, filterMap_brace?_of_step hstep]

end Walker

namespace Event

theorem filterMap_brace?_ofSource {source : String} {events : List Event} (h : ofSource source = .ok events) :
    events.filterMap Event.brace? = (Token.ofSource source).filterMap Token.brace? := by
  have hend : ((Token.ofSource source).filter fun t => t.kind ≠ .eof).filterMap Token.brace? =
      (Token.ofSource source).filterMap Token.brace? := by
    rw [List.filterMap_filter]
    apply List.filterMap_congr
    intro t _
    split
    · rfl
    · rename_i heof
      have hkind : t.kind = .eof := by simpa using heof
      simp [Token.brace?, hkind]
  unfold ofSource at h
  dsimp only at h
  split at h
  · cases h
  · obtain ⟨settled, hrun⟩ := Walker.exists_run h
    rw [hrun.filterMap_brace?, hend]

/-! ## Entered and left -/

def isEnter : Event → Bool
  | .enter _ _ => true
  | _ => false

def isExit : Event → Bool
  | .exit _ => true
  | _ => false

theorem Nested.exists_open {depth : Nat} {before rest : List Event} (h : Nested depth (before ++ rest)) :
    ∃ left, Nested left rest ∧ depth + before.countP isEnter = left + before.countP isExit := by
  induction before generalizing depth with
  | nil => exact ⟨depth, h, rfl⟩
  | cons event before ih =>
    cases event with
    | enter span kind =>
      obtain ⟨left, hrest, hcount⟩ := ih (show Nested (depth + 1) (before ++ rest) from h)
      refine ⟨left, hrest, ?_⟩
      simp only [List.countP_cons, isExit, isEnter, Bool.false_eq_true, if_false, if_true]
      omega
    | exit span =>
      obtain ⟨hpos, hnested⟩ := h
      obtain ⟨left, hrest, hcount⟩ := ih hnested
      refine ⟨left, hrest, ?_⟩
      simp only [List.countP_cons, isExit, isEnter, Bool.false_eq_true, if_false, if_true]
      omega
    | declare name kind => exact ih (show Nested depth (before ++ rest) from h)
    | chain c => exact ih (show Nested depth (before ++ rest) from h)

theorem Nested.countP_exit_le {events : List Event} (h : Nested 0 events) (n : Nat) :
    (events.take n).countP isExit ≤ (events.take n).countP isEnter := by
  rw [← List.take_append_drop n events] at h
  obtain ⟨left, -, hcount⟩ := h.exists_open
  omega

theorem Nested.countP_exit {events : List Event} (h : Nested 0 events) :
    events.countP isExit = events.countP isEnter := by
  rw [← List.append_nil events] at h
  obtain ⟨left, hleft, hcount⟩ := h.exists_open
  have hzero : left = 0 := hleft
  omega

end Event

end Nodeless
