import Nodeless.Event.OfTokens

/-!
# Steps of the walk

What one step can report and what it does to the number of open braces. The properties of all
events of a source follow from this by one induction over the tokens.
-/

namespace Nodeless.Walker

/-! ## The depth -/

@[simp]
theorem depth_takeParameters (walker : Walker) (lines : LineIndex) (opening : Token)
    (inside after : List Token) (kind : ScopeKind) :
    (walker.takeParameters lines opening inside after kind).depth = walker.depth := by
  unfold takeParameters
  cases after with
  | nil => rfl
  | cons brace after =>
    dsimp only
    split <;> rfl

@[simp]
theorem depth_takeHead (walker : Walker) (lines : LineIndex) (kind : ScopeKind) (ts : List Token) :
    (walker.takeHead lines kind ts).depth = walker.depth := by
  unfold takeHead
  split
  · exact depth_takeParameters _ _ _ _ _ _
  · rfl

/-! ## The steps -/

def chainAt (lines : LineIndex) (t : Token) (rest : List Token) : Chain :=
  ⟨nameOf lines t, (members rest).map (nameOf lines)⟩

/-- What a step at the token `t` can be. -/
inductive Moves (walker : Walker) (lines : LineIndex) (t : Token) (rest : List Token) : Step → Prop
  | enters {after : Walker} (kind : ScopeKind) (names : List Name) (depth : after.depth = walker.depth + 1) :
      Moves walker lines t rest ⟨after, .enter t.span kind :: names.map (.declare · .lexical), 0⟩
  | leaves {after : Walker} (depth : walker.depth = after.depth + 1) :
      Moves walker lines t rest ⟨after, [.exit t.span], 0⟩
  | declares {after : Walker} {skip : Nat} (kind : DeclarationKind) (names : List Name)
      (depth : after.depth = walker.depth) :
      Moves walker lines t rest ⟨after, names.map (.declare · kind), skip⟩
  | reads {after : Walker} (depth : after.depth = walker.depth) (name : t.isIdentifier = true) :
      Moves walker lines t rest ⟨after, [.chain (chainAt lines t rest)], 2 * (members rest).length⟩

section

variable {walker after : Walker} {lines : LineIndex} {t : Token} {rest : List Token}

theorem moves_silent {skip : Nat} (h : after.depth = walker.depth) :
    Moves walker lines t rest ⟨after, [], skip⟩ :=
  .declares .var [] h

theorem moves_declare (kind : DeclarationKind) (found : List Token) (h : after.depth = walker.depth) :
    Moves walker lines t rest ⟨after, (walker.declare lines kind found).2, 0⟩ := by
  have hnames : (walker.declare lines kind found).2 =
      ((found.filter fun t => !walker.declared.contains t.span.start).map (nameOf lines)).map
        (Event.declare · kind) := by
    rw [List.map_map]
    rfl
  rw [hnames]
  exact .declares kind _ h

theorem moves_openBrace : Moves walker lines t rest (walker.openBrace t) :=
  .enters _ _ rfl

theorem moves_function : Moves walker lines t rest (walker.function lines rest) := by
  unfold function
  exact moves_declare _ _ (depth_takeHead _ _ _ _)

theorem moves_openParen : Moves walker lines t rest (walker.openParen lines t rest) := by
  unfold openParen
  split
  · split
    · exact moves_silent (depth_takeParameters _ _ _ _ _ _)
    · exact moves_silent rfl
  · exact moves_silent rfl

theorem moves_value (prev : Option Token) (name : t.isIdentifier = true) :
    Moves walker lines t rest (walker.value lines prev t rest) := by
  unfold value
  split
  · -- The parameter of an arrow function is only announced.
    split
    · split <;> exact moves_silent rfl
    · exact moves_silent rfl
  · split
    · exact moves_silent rfl
    · exact .reads rfl name

theorem moves_of_step {prev : Option Token} {step : Step} (h : walker.step lines prev t rest = .ok step) :
    Moves walker lines t rest step := by
  unfold Walker.step at h
  split at h
  case h_1 =>
    cases h
    exact moves_openBrace
  case h_2 =>
    split at h
    · cases h
    · cases h
      exact .leaves (by dsimp only; omega)
  case h_3 | h_4 | h_5 | h_6 =>
    cases h
    exact moves_declare _ _ rfl
  case h_7 =>
    cases h
    exact moves_function
  case h_8 =>
    cases h
    exact moves_silent (depth_takeHead _ _ _ _)
  case h_9 =>
    cases h
    exact moves_openParen
  case h_12 name hkind =>
    split at h
    · cases h
      exact moves_silent rfl
    · split at h
      · cases h
        exact moves_silent (depth_takeHead _ _ _ _)
      · cases h
        exact moves_value prev (by simp [Token.isIdentifier, hkind, Kind.isIdentifier])
  all_goals
    cases h
    exact moves_silent rfl

/-! ## Walks -/

theorem events_nil_eq_ok_iff {prev : Option Token} {events : List Event} :
    Walker.events lines walker prev [] = .ok events ↔ walker.depth = 0 ∧ events = [] := by
  rw [Walker.events]
  split <;> simp_all [eq_comm]

theorem events_cons_eq_ok_iff {prev : Option Token} {events : List Event} :
    Walker.events lines walker prev (t :: rest) = .ok events ↔
      ∃ step more, walker.step lines prev t rest = .ok step ∧
        Walker.events lines step.walker (t :: rest)[step.skip]? (rest.drop step.skip) = .ok more ∧
        events = step.events ++ more := by
  rw [Walker.events]
  cases hstep : walker.step lines prev t rest with
  | error e => simp [bind, Except.bind]
  | ok step =>
    cases hmore : Walker.events lines step.walker (t :: rest)[step.skip]? (rest.drop step.skip) with
    | error e => simp [bind, Except.bind, hmore]
    | ok more => simp [bind, Except.bind, pure, Except.pure, hmore, eq_comm]

end

/-- What every step carries over from the events of the tokens behind it holds of all events of a
walk that succeeds. -/
theorem events_induction {lines : LineIndex} {P : Walker → List Token → List Event → Prop}
    (nil : ∀ walker : Walker, walker.depth = 0 → P walker [] [])
    (cons : ∀ (walker : Walker) (t : Token) (rest : List Token) (step : Step) (more : List Event),
      Moves walker lines t rest step → P step.walker (rest.drop step.skip) more →
        P walker (t :: rest) (step.events ++ more))
    {walker : Walker} {prev : Option Token} {ts : List Token} {events : List Event}
    (h : Walker.events lines walker prev ts = .ok events) : P walker ts events := by
  induction hn : ts.length using Nat.strongRecOn generalizing walker prev ts events with
  | ind n ih =>
    subst hn
    cases ts with
    | nil =>
      obtain ⟨hdepth, rfl⟩ := events_nil_eq_ok_iff.mp h
      exact nil walker hdepth
    | cons t rest =>
      obtain ⟨step, more, hstep, hmore, rfl⟩ := events_cons_eq_ok_iff.mp h
      refine cons walker t rest step more (moves_of_step hstep) (ih _ ?_ hmore rfl)
      simp only [List.length_drop, List.length_cons]
      omega

end Nodeless.Walker
