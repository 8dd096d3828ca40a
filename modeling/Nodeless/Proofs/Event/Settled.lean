import Mathlib.Logic.Relation
import Nodeless.Proofs.Event.BareNames

/-!
# What a walk settles

Each step of the walk settles some names: a name is reported by a declaration, at once or at the
brace of the body that it is a parameter of, or it has another fate. What one step can be is said
once here, with the names that it settles, and so is what a whole walk is made of.
-/

namespace Nodeless

/-- What becomes of a name that no declaration reports. -/
inductive Fate
  | root
  | key
  | method
  /-- The body behind the arrow has no braces. -/
  | arrowParameter
  /-- No braces follow the function or catch head. -/
  | headParameter
  deriving DecidableEq, Repr

namespace Walker

/-! ## Names settled by a step -/

/-- Names that a declaration reports. -/
def reported (ts : List Token) : List (Token × Option Fate) := ts.map fun t => (t, none)

/-- A parameter is reported at the brace of its body, and has the fate where there is no brace. -/
def fateOf (after : List Token) (fate : Fate) : Option Fate := if startsWith .leftBrace after then none else some fate

def settlesList (walker : Walker) (opening : Token) (inside after : List Token) (fate : Fate) :
    List (Token × Option Fate) :=
  (walker.undeclared (parameters opening 0 inside)).map fun t => (t, fateOf after fate)

/-- What follows the word `function`, without the mark of a generator. -/
def behindMark (rest : List Token) : List Token := if startsWith .operator rest then rest.tail else rest

def functionName (rest : List Token) : List Token := firstName (behindMark rest)

/-- The tokens from the parameter list of a function or catch head on. -/
def headList (t : Token) (rest : List Token) : List Token :=
  if t.kind = .keyword .function then (behindMark rest).drop (functionName rest).length else rest

def settlesHead (walker : Walker) (fate : Fate) (ts : List Token) : List (Token × Option Fate) :=
  match ts, parenthesised ts with
  | opening :: _, some (inside, after) => walker.settlesList opening inside after fate
  | _, _ => []

def settlesParen (walker : Walker) (t : Token) (rest : List Token) : List (Token × Option Fate) :=
  match splitAtClose 0 rest with
  | some (inside, arrow :: after) =>
    if arrow.kind = .arrow then walker.settlesList t inside after .arrowParameter else []
  | _ => []

def isKey (prev : Option Token) (rest : List Token) : Bool :=
  prev.any (fun p => p.kind = .leftBrace || p.kind = .comma) && startsWith .colon rest

def settlesValue (prev : Option Token) (t : Token) (rest : List Token) : List (Token × Option Fate) :=
  if startsWith .arrow rest then [(t, fateOf rest.tail .arrowParameter)]
  else if isKey prev rest then [(t, some .key)]
  else [(t, some .root)]

def settles (walker : Walker) (prev : Option Token) (t : Token) (rest : List Token) : List (Token × Option Fate) :=
  match t.kind with
  | .keyword .var | .keyword .«let» | .keyword .const => reported (walker.undeclared (declarators t 0 true rest))
  | .keyword .«class» => reported (walker.undeclared (firstName rest))
  | .keyword .function =>
    reported (walker.undeclared (functionName rest)) ++
      (walker.mark (functionName rest)).settlesHead .headParameter (headList t rest)
  | .keyword .«catch» => walker.settlesHead .headParameter (headList t rest)
  | .leftParen => walker.settlesParen t rest
  | .identifier _ =>
    if walker.declared.contains t.span.start then []
    else if (methodHead? prev rest).isSome then (t, some .method) :: walker.settlesHead .headParameter rest
    else settlesValue prev t rest
  | _ => []

/-! ## Steps -/

def declares (lines : LineIndex) (kind : DeclarationKind) (ts : List Token) : List Event :=
  ts.map fun t => .declare (nameOf lines t) kind

/-- The walker that waits for the brace that the tokens start with, if they start with one. -/
def announce (walker : Walker) (body : Body) : List Token → Walker
  | brace :: _ =>
    if brace.kind = .leftBrace then { walker with bodies := (brace.span.start, body) :: walker.bodies } else walker
  | [] => walker

theorem startsWith_eq_true {kind : Kind} {ts : List Token} (h : startsWith kind ts = true) :
    ∃ u us, ts = u :: us ∧ u.kind = kind := by
  cases ts with
  | nil => cases h
  | cons u us => exact ⟨u, us, rfl, by simpa [startsWith] using h⟩

theorem announce_brace (walker : Walker) (body : Body) {brace : Token} (h : brace.kind = .leftBrace)
    (more : List Token) :
    walker.announce body (brace :: more) = { walker with bodies := (brace.span.start, body) :: walker.bodies } :=
  if_pos h

theorem announce_other (walker : Walker) (body : Body) {ts : List Token} (h : startsWith .leftBrace ts = false) :
    walker.announce body ts = walker := by
  cases ts with
  | nil => rfl
  | cons t ts => exact if_neg (by simpa [startsWith] using h)

@[simp]
theorem declared_announce (walker : Walker) (body : Body) (ts : List Token) :
    (walker.announce body ts).declared = walker.declared := by
  cases h : startsWith .leftBrace ts with
  | false => rw [announce_other walker body h]
  | true =>
    obtain ⟨brace, more, rfl, hkind⟩ := startsWith_eq_true h
    rw [announce_brace walker body hkind]

@[simp]
theorem depth_announce (walker : Walker) (body : Body) (ts : List Token) :
    (walker.announce body ts).depth = walker.depth := by
  cases h : startsWith .leftBrace ts with
  | false => rw [announce_other walker body h]
  | true =>
    obtain ⟨brace, more, rfl, hkind⟩ := startsWith_eq_true h
    rw [announce_brace walker body hkind]

def list (walker : Walker) (lines : LineIndex) (kind : ScopeKind) (opening : Token) (inside after : List Token) :
    Walker :=
  let found := parameters opening 0 inside
  (walker.mark found).announce ⟨kind, (walker.undeclared found).map (nameOf lines)⟩ after

theorem takeParameters_eq (walker : Walker) (lines : LineIndex) (opening : Token) (inside after : List Token)
    (kind : ScopeKind) :
    walker.takeParameters lines opening inside after kind = walker.list lines kind opening inside after := by
  cases after <;> rfl

/-- What a step at the token `t` can be, with the names that it settles. -/
inductive Turn (walker : Walker) (lines : LineIndex) (prev : Option Token) (t : Token) (rest : List Token) :
    Step → List (Token × Option Fate) → Prop
  | opens (brace : t.kind = .leftBrace) : Turn walker lines prev t rest (walker.openBrace t) []
  | closes {depth : Nat} (brace : t.kind = .rightBrace) :
      Turn walker lines prev t rest ⟨{ walker with depth }, [.exit t.span], 0⟩ []
  | skipsProperty (point : t.isPoint = true) (property : rest.head?.any Token.isName = true) :
      Turn walker lines prev t rest ⟨walker, [], 1⟩ []
  | passes (brace : t.kind ≠ .leftBrace) (point : t.isPoint = true → rest.head?.any Token.isName = false)
      (name : t.isIdentifier = true → t.span.start ∈ walker.declared) :
      Turn walker lines prev t rest ⟨walker, [], 0⟩ []
  | declares {found : List Token} (kind : DeclarationKind) (word : t.kind.isKeyword = true)
      (bare : found.Sublist (bareNames (some t) rest)) :
      Turn walker lines prev t rest ⟨walker.mark found, declares lines kind (walker.undeclared found), 0⟩
        (reported (walker.undeclared found))
  | heads {name before behind inside after : List Token} {opening : Token} (kind : ScopeKind)
      (word : t.kind = .keyword .function ∨ t.kind = .keyword .«catch») (list : headList t rest = opening :: behind)
      (split : rest = before ++ opening :: behind) (paren : opening.kind = .leftParen)
      (close : splitAtClose 0 behind = some (inside, after)) (bare : name.Sublist (bareNames (some t) before))
      (only : ∀ u ∈ before, u.kind = .operator ∨ u ∈ name) :
      Turn walker lines prev t rest
        ⟨(walker.mark name).list lines kind opening inside after, declares lines .var (walker.undeclared name), 0⟩
        (reported (walker.undeclared name) ++ (walker.mark name).settlesList opening inside after .headParameter)
  | method {behind inside after : List Token} {opening : Token} (name : t.isIdentifier = true)
      (free : t.span.start ∉ walker.declared) (split : rest = opening :: behind)
      (paren : opening.kind = .leftParen) (close : splitAtClose 0 behind = some (inside, after))
      (head : (methodHead? prev rest).isSome = true) :
      Turn walker lines prev t rest ⟨walker.list lines .function opening inside after, [], 0⟩
        ((t, some .method) :: walker.settlesList opening inside after .headParameter)
  | arrow {inside after : List Token} {arrow : Token} (paren : t.kind = .leftParen)
      (close : splitAtClose 0 rest = some (inside, arrow :: after)) (isArrow : arrow.kind = .arrow) :
      Turn walker lines prev t rest ⟨walker.list lines .function t inside after, [], 0⟩
        (walker.settlesList t inside after .arrowParameter)
  | lone {after : List Token} {arrow : Token} (name : t.isIdentifier = true) (free : t.span.start ∉ walker.declared)
      (split : rest = arrow :: after) (isArrow : arrow.kind = .arrow) :
      Turn walker lines prev t rest ⟨walker.announce ⟨.function, [nameOf lines t]⟩ after, [], 0⟩
        [(t, fateOf after .arrowParameter)]
  | key (name : t.isIdentifier = true) (free : t.span.start ∉ walker.declared) (key : isKey prev rest = true) :
      Turn walker lines prev t rest ⟨walker, [], 0⟩ [(t, some .key)]
  | reads (name : t.isIdentifier = true) (free : t.span.start ∉ walker.declared)
      (head : (methodHead? prev rest).isSome = false) (lone : startsWith .arrow rest = false)
      (key : isKey prev rest = false) :
      Turn walker lines prev t rest ⟨walker, [.chain (chainAt lines t rest)], 2 * (members rest).length⟩
        [(t, some .root)]

section

variable {walker : Walker} {lines : LineIndex} {prev : Option Token} {t : Token} {rest : List Token}

theorem parenthesised_eq_some {ts inside after : List Token} (h : parenthesised ts = some (inside, after)) :
    ∃ opening behind, ts = opening :: behind ∧ opening.kind = .leftParen ∧
      splitAtClose 0 behind = some (inside, after) := by
  cases ts with
  | nil => cases h
  | cons opening behind =>
    rw [parenthesised] at h
    split at h
    · exact ⟨opening, behind, rfl, by assumption, h⟩
    · cases h

theorem value_of_arrow (h : startsWith .arrow rest = true) :
    walker.value lines prev t rest = ⟨walker.announce ⟨.function, [nameOf lines t]⟩ rest.tail, [], 0⟩ := by
  unfold value
  rw [if_pos h]
  cases rest.tail with
  | nil => rfl
  | cons brace after =>
    dsimp only [announce]
    split <;> rfl

theorem value_of_not_arrow (h : startsWith .arrow rest = false) :
    walker.value lines prev t rest =
      if isKey prev rest then ⟨walker, [], 0⟩
      else ⟨walker, [.chain (chainAt lines t rest)], 2 * (members rest).length⟩ := by
  unfold value
  rw [h, if_neg Bool.false_ne_true]
  rfl

theorem exists_identifier (h : t.isIdentifier = true) : ∃ text, t.kind = .identifier text := by
  unfold Token.isIdentifier Kind.isIdentifier at h
  split at h
  · exact ⟨_, by assumption⟩
  · cases h

theorem turn_value (name : t.isIdentifier = true) (free : t.span.start ∉ walker.declared)
    (head : (methodHead? prev rest).isSome = false) :
    Turn walker lines prev t rest (walker.value lines prev t rest) (settlesValue prev t rest) := by
  unfold settlesValue
  cases hlone : startsWith .arrow rest with
  | true =>
    obtain ⟨arrow, after, rfl, harrow⟩ := startsWith_eq_true hlone
    rw [value_of_arrow hlone, if_pos rfl]
    exact .lone name free rfl harrow
  | false =>
    rw [value_of_not_arrow hlone, if_neg Bool.false_ne_true]
    cases hkey : isKey prev rest with
    | true => exact .key name free hkey
    | false => exact .reads name free head hlone hkey

theorem turn_openParen (paren : t.kind = .leftParen) :
    Turn walker lines prev t rest (walker.openParen lines t rest) (walker.settlesParen t rest) := by
  have hpasses : Turn walker lines prev t rest ⟨walker, [], 0⟩ [] :=
    .passes (by simp [paren]) (by simp [Token.isPoint, paren]) (by simp [Token.isIdentifier, Kind.isIdentifier, paren])
  unfold openParen settlesParen
  rcases hclose : splitAtClose 0 rest with _ | ⟨inside, _ | ⟨arrow, after⟩⟩
  · exact hpasses
  · exact hpasses
  · dsimp only
    split
    · rename_i harrow
      rw [takeParameters_eq]
      exact .arrow paren hclose harrow
    · exact hpasses

theorem exists_before (hword : t.kind = .keyword .function) (rest : List Token) :
    ∃ before, rest = before ++ headList t rest ∧ (functionName rest).Sublist (bareNames (some t) before) ∧
      ∀ u ∈ before, u.kind = .operator ∨ u ∈ functionName rest := by
  have happend := firstName_append (behindMark rest)
  have hpoint : (some t).any Token.isPoint = false := by simp [Token.isPoint, hword]
  unfold headList functionName
  rw [if_pos hword]
  cases hmark : startsWith .operator rest with
  | true =>
    obtain ⟨mark, ts, rfl, hkind⟩ := startsWith_eq_true hmark
    have hbehind : behindMark (mark :: ts) = ts := by simp [behindMark, hmark]
    have hbare : (some mark).any Token.isPoint = false := by simp [Token.isPoint, hkind]
    rw [hbehind] at happend ⊢
    refine ⟨mark :: firstName ts, by rw [List.cons_append]; exact congrArg (mark :: ·) happend.symm,
      (firstName_bare hbare ts).trans (bareNames_cons _ mark _), ?_⟩
    intro u hu
    rcases List.mem_cons.mp hu with rfl | hu
    · exact .inl hkind
    · exact .inr hu
  | false =>
    have hbehind : behindMark rest = rest := by simp [behindMark, hmark]
    rw [hbehind] at happend ⊢
    exact ⟨firstName rest, happend.symm, firstName_bare hpoint rest, fun u hu => .inr hu⟩

theorem isKeyword_of_head (h : t.kind = .keyword .function ∨ t.kind = .keyword .«catch») :
    t.kind.isKeyword = true := by
  rcases h with h | h <;> simp [h, Kind.isKeyword]

theorem takeHead_of_none {kind : ScopeKind} {ts : List Token} (h : parenthesised ts = none) :
    walker.takeHead lines kind ts = walker := by
  unfold takeHead
  rw [h]
  cases ts <;> rfl

theorem settlesHead_of_none {fate : Fate} {ts : List Token} (h : parenthesised ts = none) :
    walker.settlesHead fate ts = [] := by
  unfold settlesHead
  rw [h]
  cases ts <;> rfl

theorem takeHead_of_some {kind : ScopeKind} {opening : Token} {behind inside after : List Token}
    (h : parenthesised (opening :: behind) = some (inside, after)) :
    walker.takeHead lines kind (opening :: behind) = walker.list lines kind opening inside after := by
  unfold takeHead
  rw [h]
  exact takeParameters_eq walker lines opening inside after kind

theorem settlesHead_of_some {fate : Fate} {opening : Token} {behind inside after : List Token}
    (h : parenthesised (opening :: behind) = some (inside, after)) :
    walker.settlesHead fate (opening :: behind) = walker.settlesList opening inside after fate := by
  unfold settlesHead
  rw [h]

theorem function_eq (hkind : t.kind = .keyword .function) :
    walker.function lines rest =
      ⟨(walker.mark (functionName rest)).takeHead lines .function (headList t rest),
        declares lines .var (walker.undeclared (functionName rest)), 0⟩ := by
  unfold headList
  rw [if_pos hkind]
  rfl

theorem turn_function (hkind : t.kind = .keyword .function) :
    Turn walker lines prev t rest (walker.function lines rest)
      (reported (walker.undeclared (functionName rest)) ++
        (walker.mark (functionName rest)).settlesHead .headParameter (headList t rest)) := by
  have hword : t.kind.isKeyword = true := by simp [hkind, Kind.isKeyword]
  obtain ⟨before, hrest, hbare, honly⟩ := exists_before hkind rest
  rw [function_eq hkind]
  cases hhead : parenthesised (headList t rest) with
  | none =>
    rw [takeHead_of_none hhead, settlesHead_of_none hhead, List.append_nil]
    refine .declares .var hword (hbare.trans ?_)
    conv => rhs; rw [hrest, bareNames_append]
    exact List.sublist_append_left _ _
  | some split =>
    obtain ⟨inside, after⟩ := split
    obtain ⟨opening, behind, hlist, hparen, hclose⟩ := parenthesised_eq_some hhead
    rw [hlist] at hhead hrest ⊢
    rw [takeHead_of_some hhead, settlesHead_of_some hhead]
    exact .heads .function (.inl hkind) hlist hrest hparen hclose hbare honly

theorem turn_catch (hkind : t.kind = .keyword .«catch») :
    Turn walker lines prev t rest ⟨walker.takeHead lines .block rest, [], 0⟩
      (walker.settlesHead .headParameter rest) := by
  cases hhead : parenthesised rest with
  | none =>
    rw [takeHead_of_none hhead, settlesHead_of_none hhead]
    exact .passes (by simp [hkind]) (by simp [Token.isPoint, hkind])
      (by simp [Token.isIdentifier, Kind.isIdentifier, hkind])
  | some split =>
    obtain ⟨inside, after⟩ := split
    obtain ⟨opening, behind, rfl, hparen, hclose⟩ := parenthesised_eq_some hhead
    rw [takeHead_of_some hhead, settlesHead_of_some hhead]
    have hlist : headList t (opening :: behind) = opening :: behind := by simp [headList, hkind]
    exact @Turn.heads walker lines prev t _ [] [] behind inside after opening .block (.inr hkind) hlist rfl hparen
      hclose (List.nil_sublist _) (by simp)

theorem methodHead?_isSome (h : (methodHead? prev rest).isSome = true) :
    ∃ p inside after, prev = some p ∧ precedesMethod p = true ∧ parenthesised rest = some (inside, after) ∧
      startsWith .leftBrace after = true := by
  unfold methodHead? at h
  cases hp : prev with
  | none => simp [hp] at h
  | some p =>
    cases hhead : parenthesised rest with
    | none => simp [hp, hhead] at h
    | some split =>
      refine ⟨p, split.1, split.2, rfl, ?_⟩
      simpa [hp, hhead] using h

theorem turn_method (name : t.isIdentifier = true) (free : t.span.start ∉ walker.declared)
    (head : (methodHead? prev rest).isSome = true) :
    Turn walker lines prev t rest ⟨walker.takeHead lines .function rest, [], 0⟩
      ((t, some .method) :: walker.settlesHead .headParameter rest) := by
  obtain ⟨_, inside, after, -, -, hhead, -⟩ := methodHead?_isSome head
  obtain ⟨opening, behind, rfl, hparen, hclose⟩ := parenthesised_eq_some hhead
  rw [takeHead_of_some hhead, settlesHead_of_some hhead]
  exact .method name free rfl hparen hclose head

theorem turn_point (point : t.isPoint = true) (brace : t.kind ≠ .leftBrace) (name : t.isIdentifier ≠ true) :
    Turn walker lines prev t rest ⟨walker, [], if rest.head?.any Token.isName then 1 else 0⟩ [] := by
  cases hproperty : rest.head?.any Token.isName with
  | true => exact .skipsProperty point hproperty
  | false => exact .passes brace (fun _ => hproperty) fun hname => absurd hname name

theorem turn_of_step {step : Step} (h : walker.step lines prev t rest = .ok step) :
    Turn walker lines prev t rest step (walker.settles prev t rest) := by
  unfold Walker.step at h
  unfold settles
  split at h
  case h_1 hkind =>
    cases h
    rw [hkind]
    exact .opens hkind
  case h_2 hkind =>
    rw [hkind]
    split at h
    · cases h
    · cases h
      exact .closes hkind
  case h_3 hkind =>
    rw [hkind]
    cases h
    exact .declares .var (by simp [hkind, Kind.isKeyword])
      (declarators_sublist fun _ => by simp [Token.isPoint, hkind])
  case h_4 hkind | h_5 hkind =>
    rw [hkind]
    cases h
    exact .declares .lexical (by simp [hkind, Kind.isKeyword])
      (declarators_sublist fun _ => by simp [Token.isPoint, hkind])
  case h_6 hkind =>
    rw [hkind]
    cases h
    exact .declares .lexical (by simp [hkind, Kind.isKeyword])
      (firstName_sublist (by simp [Token.isPoint, hkind]) rest)
  case h_7 hkind =>
    rw [hkind]
    cases h
    exact turn_function hkind
  case h_8 hkind =>
    rw [hkind]
    cases h
    have hlist : headList t rest = rest := by simp [headList, hkind]
    rw [hlist]
    exact turn_catch hkind
  case h_9 hkind =>
    rw [hkind]
    cases h
    exact turn_openParen hkind
  case h_10 hkind | h_11 hkind =>
    rw [hkind]
    cases h
    exact turn_point (by simp [Token.isPoint, hkind]) (by simp [hkind])
      (by simp [Token.isIdentifier, Kind.isIdentifier, hkind])
  case h_12 text hkind =>
    rw [hkind]
    have hname : t.isIdentifier = true := by simp [Token.isIdentifier, hkind, Kind.isIdentifier]
    by_cases hdeclared : walker.declared.contains t.span.start = true
    · rw [if_pos hdeclared] at h ⊢
      cases h
      exact .passes (by simp [hkind]) (by simp [Token.isPoint, hkind]) fun _ => List.contains_iff_mem.mp hdeclared
    have hfree : t.span.start ∉ walker.declared := fun hmem => hdeclared (List.contains_iff_mem.mpr hmem)
    rw [if_neg hdeclared] at h ⊢
    by_cases hhead : (methodHead? prev rest).isSome = true
    · rw [if_pos hhead] at h ⊢
      cases h
      exact turn_method hname hfree hhead
    · rw [if_neg hhead] at h ⊢
      cases h
      exact turn_value hname hfree (Bool.eq_false_iff.mpr hhead)
  case h_13 _ hbrace _ _ _ _ _ _ _ _ hdot hquestion hname =>
    cases h
    have hpasses : Turn walker lines prev t rest ⟨walker, [], 0⟩ [] := by
      refine .passes hbrace ?_ ?_
      · intro hpoint
        simp only [Token.isPoint, Bool.or_eq_true, decide_eq_true_eq] at hpoint
        exact (hpoint.elim hdot hquestion).elim
      · intro hidentifier
        obtain ⟨text, hkind⟩ := exists_identifier hidentifier
        exact (hname text hkind).elim
    split
    case h_8 text hkind => exact (hname text hkind).elim
    case h_9 => exact hpasses
    all_goals contradiction

end

theorem exists_step {walker : Walker} {lines : LineIndex} {prev : Option Token} {t : Token} {rest : List Token}
    (h : t.kind = .rightBrace → walker.depth ≠ 0) : ∃ step, walker.step lines prev t rest = .ok step := by
  unfold Walker.step
  split
  case h_2 hkind =>
    rw [if_neg (h hkind)]
    exact ⟨_, rfl⟩
  case h_12 =>
    split
    · exact ⟨_, rfl⟩
    · split <;> exact ⟨_, rfl⟩
  all_goals exact ⟨_, rfl⟩

/-! ## What a step leaves alone -/

theorem isBrace_of_isName {t : Token} (h : t.isName = true) : t.isBrace = false := by
  unfold Token.isName at h
  unfold Token.isBrace
  split at h <;> simp_all

theorem isBrace_of_mem_take_members (ts : List Token) :
    ∀ u ∈ ts.take (2 * (members ts).length), u.isBrace = false := by
  fun_induction members ts with
  | case1 point t ts h ih =>
    rw [Bool.and_eq_true, decide_eq_true_eq] at h
    have htake : (point :: t :: ts).take (2 * (t :: members ts).length) =
        point :: t :: ts.take (2 * (members ts).length) := by
      rw [List.length_cons, Nat.mul_add]
      rfl
    rw [htake]
    have hpoint : point.isBrace = false := by simp [Token.isBrace, h.1]
    exact List.forall_mem_cons.mpr ⟨hpoint, List.forall_mem_cons.mpr ⟨isBrace_of_isName h.2, ih⟩⟩
  | case2 => simp
  | case3 => simp

theorem length_members_le (ts : List Token) : 2 * (members ts).length ≤ ts.length := by
  fun_induction members ts with
  | case1 point t ts _ ih =>
    simp only [List.length_cons]
    omega
  | case2 => simp
  | case3 => simp

section

variable {walker : Walker} {lines : LineIndex} {prev : Option Token} {t : Token} {rest : List Token} {step : Step}
  {settled : List (Token × Option Fate)} (h : Turn walker lines prev t rest step settled)

include h

theorem Turn.isBrace_of_mem_skipped : ∀ u ∈ rest.take step.skip, u.isBrace = false := by
  cases h with
  | skipsProperty _ property =>
    cases rest with
    | nil => cases property
    | cons u rest =>
      intro v hv
      rw [List.mem_singleton.mp hv]
      exact isBrace_of_isName property
  | reads => exact isBrace_of_mem_take_members rest
  | _ => exact fun _ hu => absurd hu (List.not_mem_nil)

theorem Turn.depth_eq (hplain : t.isBrace = false) : step.walker.depth = walker.depth := by
  cases h with
  | opens brace | closes brace => simp [Token.isBrace, brace] at hplain
  | heads | method | arrow => exact depth_announce _ _ _
  | lone => exact depth_announce _ _ _
  | _ => rfl

theorem Turn.skip_le : step.skip ≤ rest.length := by
  cases h with
  | skipsProperty _ property =>
    cases rest with
    | nil => cases property
    | cons => simp
  | reads => exact length_members_le rest
  | _ => exact Nat.zero_le _

end

/-! ## Whole walks -/

/-- Where a walk stands. -/
structure Place where
  walker : Walker
  /-- The token before the ones ahead. -/
  prev : Option Token
  ahead : List Token

def Step.place (step : Step) (t : Token) (rest : List Token) : Place :=
  ⟨step.walker, (t :: rest)[step.skip]?, rest.drop step.skip⟩

def Place.Steps (lines : LineIndex) (a b : Place) : Prop :=
  ∃ t rest step, a.ahead = t :: rest ∧ a.walker.step lines a.prev t rest = .ok step ∧ b = step.place t rest

abbrev Place.Reaches (lines : LineIndex) : Place → Place → Prop := Relation.ReflTransGen (Place.Steps lines)

/-- A walk that succeeds, with the names that it settles and its events. -/
inductive Run (lines : LineIndex) : Place → List (Token × Option Fate) → List Event → Prop
  | done {walker : Walker} {prev : Option Token} : walker.depth = 0 → Run lines ⟨walker, prev, []⟩ [] []
  | turn {walker : Walker} {prev : Option Token} {t : Token} {rest : List Token} {step : Step}
      {settled : List (Token × Option Fate)} {events : List Event} :
      walker.step lines prev t rest = .ok step → Run lines (step.place t rest) settled events →
      Run lines ⟨walker, prev, t :: rest⟩ (walker.settles prev t rest ++ settled) (step.events ++ events)

theorem exists_run {lines : LineIndex} {walker : Walker} {prev : Option Token} {ts : List Token}
    {events : List Event} (h : Walker.events lines walker prev ts = .ok events) :
    ∃ settled, Run lines ⟨walker, prev, ts⟩ settled events := by
  induction hn : ts.length using Nat.strongRecOn generalizing walker prev ts events with
  | ind n ih =>
    subst hn
    cases ts with
    | nil =>
      obtain ⟨hdepth, rfl⟩ := events_nil_eq_ok_iff.mp h
      exact ⟨[], .done hdepth⟩
    | cons t rest =>
      obtain ⟨step, more, hstep, hmore, rfl⟩ := events_cons_eq_ok_iff.mp h
      have hlt : (rest.drop step.skip).length < (t :: rest).length := by
        rw [List.length_drop, List.length_cons]
        omega
      obtain ⟨settled, hrun⟩ := ih _ hlt hmore rfl
      exact ⟨_, .turn hstep hrun⟩

section

variable {lines : LineIndex} {settled : List (Token × Option Fate)} {events : List Event}

theorem Run.exists_place {a : Place} (hrun : Run lines a settled events) {entry : Token × Option Fate}
    (h : entry ∈ settled) :
    ∃ walker prev t rest step, a.Reaches lines ⟨walker, prev, t :: rest⟩ ∧
      walker.step lines prev t rest = .ok step ∧ entry ∈ walker.settles prev t rest := by
  induction hrun with
  | done => cases h
  | turn hstep _ ih =>
    rcases List.mem_append.mp h with h | h
    · exact ⟨_, _, _, _, _, .refl, hstep, h⟩
    · obtain ⟨walker, prev, t, rest, step, hreach, hat, hmem⟩ := ih h
      exact ⟨walker, prev, t, rest, step, hreach.head ⟨_, _, _, rfl, hstep, rfl⟩, hat, hmem⟩

theorem Run.mem_settled {a b : Place} (hreach : a.Reaches lines b) (hrun : Run lines a settled events)
    {t : Token} {rest : List Token} (hahead : b.ahead = t :: rest) :
    ∀ entry ∈ b.walker.settles b.prev t rest, entry ∈ settled := by
  -- From the front: the steps of the run are those that lead to the place.
  induction hreach using Relation.ReflTransGen.head_induction_on generalizing settled events with
  | refl =>
    cases hrun with
    | done => cases hahead
    | turn =>
      cases hahead
      exact fun entry hentry => List.mem_append_left _ hentry
  | head hsteps _ ih =>
    obtain ⟨u, us, step, hahead', hstep, rfl⟩ := hsteps
    cases hrun with
    | done => cases hahead'
    | turn hstep' hrun =>
      cases hahead'
      rw [hstep'] at hstep
      cases hstep
      exact fun entry hentry => List.mem_append_right _ (ih hrun entry hentry)

theorem Place.Reaches.exists_before {a b : Place} (h : a.Reaches lines b) :
    ∃ before, a.ahead = before ++ b.ahead ∧ b.prev = before.getLast?.or a.prev := by
  induction h with
  | refl => exact ⟨[], rfl, rfl⟩
  | tail _ hsteps ih =>
    obtain ⟨before, hahead, hprev⟩ := ih
    obtain ⟨t, rest, step, hat, hstep, rfl⟩ := hsteps
    rw [hat] at hahead
    refine ⟨before ++ t :: rest.take step.skip, ?_, ?_⟩
    · simp [hahead, Step.place]
    · -- The last token dealt with is there, since no step skips more than is left.
      have hskip := (turn_of_step hstep).skip_le
      have hlast : (t :: rest.take step.skip).getLast? = (t :: rest)[step.skip]? := by
        rw [← List.take_succ_cons, List.getLast?_eq_getElem?, List.length_take, List.length_cons,
          Nat.min_eq_left (by omega), Nat.add_sub_cancel, List.getElem?_take_of_lt (Nat.lt_succ_self _)]
      have hsome : (t :: rest)[step.skip]?.isSome = true := by simp; omega
      rw [List.getLast?_append, hlast, Step.place]
      cases hget : (t :: rest)[step.skip]? with
      | none => simp [hget] at hsome
      | some u => rfl

end

end Walker

end Nodeless
