import Mathlib.Data.List.Chain
import Nodeless.Proofs.Event.Found
import Nodeless.Proofs.Event.Relocation
import Nodeless.Proofs.Token.Keys

/-!
# Keywords that are keys

Where a keyword is the key of an object literal, a name could stand in its place. The walk does the same
for both, unless a declaration list comes to the key, or the keyword is the word of a declaration and
finds names in what is behind the key.
-/

namespace Nodeless

namespace Token

/-- Puts the name in the place of the key, and leaves every other token as it is. -/
def swap (key : Token) (name : String) (t : Token) : Token := if t = key then key.renamed name else t

/-- What the tokens around the key have to be where they stand side by side. -/
structure Beside (key a b : Token) : Prop where
  opens : b = key → a.kind = .leftBrace ∨ a.kind = .comma
  colon : a = key → b.kind = .colon

section

variable {key t : Token} {name : String} {k : Keyword}

theorem swap_self (key : Token) (name : String) : key.swap name key = key.renamed name := if_pos rfl

theorem swap_of_ne (h : t ≠ key) : key.swap name t = t := if_neg h

theorem span_swap (key : Token) (name : String) (t : Token) : (key.swap name t).span = t.span := by
  unfold swap
  split
  · rename_i heq
    rw [heq]
    rfl
  · rfl

theorem kind_swap {α : Type} (isWord : key.kind = .keyword k) (f : Kind → α)
    (h : f (.identifier name) = f (.keyword k))
    (t : Token) : f (key.swap name t).kind = f t.kind := by
  by_cases ht : t = key
  · rw [ht, swap_self, isWord]
    exact h
  · rw [swap_of_ne ht]

theorem map_swap_of_not_mem {ts : List Token} (h : key ∉ ts) : ts.map (key.swap name) = ts := by
  refine (List.map_congr_left fun t ht => ?_).trans (List.map_id ts)
  exact swap_of_ne fun heq => h (heq ▸ ht)

end

end Token

namespace Walker

open Token (swap swap_self swap_of_ne span_swap kind_swap Beside)

section

variable {key prev t close : Token} {name : String} {k : Keyword} {ts us rest : List Token}

theorem ne_of_beside (h : Beside key prev t) (hbrace : prev.kind ≠ .leftBrace) (hcomma : prev.kind ≠ .comma) :
    t ≠ key :=
  fun heq => (h.opens heq).elim hbrace hcomma

theorem firstName_map_swap (h : List.IsChain (Beside key) (prev :: ts)) (hbrace : prev.kind ≠ .leftBrace)
    (hcomma : prev.kind ≠ .comma) : firstName (ts.map (key.swap name)) = firstName ts := by
  cases ts with
  | nil => rfl
  | cons t ts =>
    have ht := ne_of_beside (List.isChain_cons_cons.mp h).1 hbrace hcomma
    rw [List.map_cons, swap_of_ne ht]
    rfl

variable (isWord : key.kind = .keyword k)

include isWord

/-! ## Looking ahead -/

theorem startsWith_map_swap {kind : Kind} (h : decide (Kind.identifier name = kind) = decide (Kind.keyword k = kind))
    (ts : List Token) : startsWith kind (ts.map (key.swap name)) = startsWith kind ts := by
  cases ts with
  | nil => rfl
  | cons t ts => exact kind_swap isWord (fun k => decide (k = kind)) h t

theorem nestingBehind_swap (t : Token) (nesting : Nat) :
    (key.swap name t).nestingBehind nesting = t.nestingBehind nesting :=
  kind_swap isWord (fun k => if k.opensBracket then nesting + 1 else if k.closesBracket then nesting - 1 else nesting)
    rfl t

theorem splitAtClose_map_swap (depth : Nat) (ts : List Token) : splitAtClose depth (ts.map (key.swap name)) =
    (splitAtClose depth ts).map fun s => (s.1.map (key.swap name), s.2.map (key.swap name)) := by
  induction ts generalizing depth with
  | nil => rfl
  | cons t ts ih =>
    by_cases ht : t = key
    · subst ht
      simp [splitAtClose, swap_self, Token.renamed, isWord, ih, Function.comp_def]
    · rw [List.map_cons, swap_of_ne ht, splitAtClose.eq_def, splitAtClose.eq_def _ (t :: ts)]
      dsimp only
      split <;> simp [ih, swap_of_ne ht, Function.comp_def]

theorem parenthesised_map_swap (ts : List Token) : parenthesised (ts.map (key.swap name)) =
    (parenthesised ts).map fun s => (s.1.map (key.swap name), s.2.map (key.swap name)) := by
  cases ts with
  | nil => rfl
  | cons t ts =>
    have hparen : ((key.swap name t).kind = .leftParen) = (t.kind = .leftParen) :=
      kind_swap isWord (· = .leftParen) (by simp) t
    rw [List.map_cons, parenthesised, parenthesised]
    simp only [hparen, splitAtClose_map_swap isWord]
    split <;> rfl

theorem startsItem_swap (t : Token) : startsItem (key.swap name t) = startsItem t :=
  kind_swap isWord (fun k => k = .leftParen || k = .comma || k = .ellipsis) (by simp) t

theorem endsName_map_swap (ts : List Token) : endsName (ts.map (key.swap name)) = endsName ts := by
  simp [endsName, startsWith_map_swap isWord, List.isEmpty_map]

/-- The colon behind the key keeps it from being a parameter. -/
theorem parameters_map_swap (nesting : Nat) (h : List.IsChain (Beside key) (prev :: (ts ++ [close])))
    (hclose : close.kind ≠ .colon) :
    parameters (key.swap name prev) nesting (ts.map (key.swap name)) = parameters prev nesting ts := by
  induction ts generalizing prev nesting with
  | nil => rfl
  | cons t ts ih =>
    obtain ⟨-, hmore⟩ := List.isChain_cons_cons.mp h
    rw [List.map_cons, parameters_cons, parameters_cons, nestingBehind_swap isWord, ih _ hmore,
      startsItem_swap isWord, endsName_map_swap isWord]
    by_cases ht : t = key
    · subst ht
      -- The list does not end behind the key, since what closes it is no colon.
      have hends : endsName ts = false := by
        cases ts with
        | nil => exact absurd ((List.isChain_cons_cons.mp hmore).1.colon rfl) hclose
        | cons u ts => simp [endsName, startsWith, (List.isChain_cons_cons.mp hmore).1.colon rfl]
      simp [hends]
    · rw [swap_of_ne ht]

theorem isName_swap (t : Token) : (key.swap name t).isName = t.isName :=
  kind_swap isWord (fun k => Token.isName ⟨k, "", default, false⟩) rfl t

theorem members_map_swap (h : List.IsChain (Beside key) ts) : members (ts.map (key.swap name)) = members ts := by
  have hdot (t : Token) : ((key.swap name t).kind = .dot) = (t.kind = .dot) :=
    kind_swap isWord (· = .dot) (by simp) t
  fun_induction members ts with
  | case1 point t ts hmember ih =>
    rw [Bool.and_eq_true, decide_eq_true_eq] at hmember
    obtain ⟨hbeside, hmore⟩ := List.isChain_cons_cons.mp h
    have ht : t ≠ key := fun heq => by simpa [hmember.1] using hbeside.opens heq
    rw [List.map_cons, List.map_cons, members, swap_of_ne ht]
    simp only [hdot, hmember, decide_true, Bool.and_self, ↓reduceIte]
    rw [ih (List.isChain_cons.mp hmore).2]
  | case2 point t ts hmember =>
    rw [List.map_cons, List.map_cons, members]
    simp only [hdot, isName_swap isWord]
    exact if_neg hmember
  | case3 ts hts =>
    rcases ts with _ | ⟨point, _ | ⟨t, ts⟩⟩
    · rfl
    · rfl
    · exact (hts point t ts rfl).elim

theorem quiet_of_beside (h : Beside key prev t) (ht : t = key) : Quiet prev ∧ prev ≠ key := by
  rcases h.opens ht with hkind | hkind
  all_goals exact ⟨quiet_of_kind (by rw [hkind]; rfl) (by simp [hkind]), fun heq => by simp [heq, isWord] at hkind⟩

theorem endsStatement_swap (h : Beside key prev t) :
    endsStatement (key.swap name prev) (key.swap name t) = endsStatement prev t := by
  by_cases ht : t = key
  · obtain ⟨hquiet, hprev⟩ := quiet_of_beside isWord h ht
    rw [swap_of_ne hprev, hquiet, hquiet]
  · rw [swap_of_ne ht]
    by_cases hprev : prev = key
    · have hcolon := h.colon hprev
      have hnone (u : Token) : endsStatement u t = false :=
        endsStatement_of_kind (by simp [Token.isIdentifier, hcolon, Kind.isIdentifier])
          (by simp [hcolon, Kind.isKeyword]) (by simp [hcolon, Kind.isLiteral]) u
      rw [hnone, hnone]
    · rw [swap_of_ne hprev]

theorem endsAt_swap (h : Beside key prev t) (nesting : Nat) :
    endsAt (key.swap name prev) nesting (key.swap name t) = endsAt prev nesting t := by
  have hcloses : (key.swap name t).kind.closesBracket = t.kind.closesBracket :=
    kind_swap isWord Kind.closesBracket rfl t
  have hsemicolon : ((key.swap name t).kind = .semicolon) = (t.kind = .semicolon) :=
    kind_swap isWord (· = .semicolon) (by simp) t
  simp only [endsAt, endsStatement_swap isWord h, hcloses, hsemicolon]

theorem declarators_map_swap {nesting : Nat} {atStart : Bool} (h : List.IsChain (Beside key) (prev :: ts))
    (hprev : atStart = true → Quiet prev ∧ prev ≠ key)
    (hawaits : ∀ before after, ts = before ++ key :: after → ends prev nesting before = false →
      awaits nesting atStart before = false) :
    declarators (key.swap name prev) nesting atStart (ts.map (key.swap name)) =
      declarators prev nesting atStart ts := by
  induction ts generalizing prev nesting atStart with
  | nil => rfl
  | cons t ts ih =>
    obtain ⟨hbeside, hmore⟩ := List.isChain_cons_cons.mp h
    have hquiet : atStart = true → Quiet (key.swap name prev) := fun hstart => by
      rw [swap_of_ne (hprev hstart).2]
      exact (hprev hstart).1
    have hcomma : (decide ((key.swap name t).kind = .comma)) = decide (t.kind = .comma) :=
      kind_swap isWord (fun k => decide (k = .comma)) (by simp) t
    have hfound : (atStart && (key.swap name t).isIdentifier) = (atStart && t.isIdentifier) ∧
        (atStart = true → key.swap name t = t) := by
      by_cases ht : t = key
      · -- Where the list awaits a name, the key is not what stands there.
        have hstart : atStart = false := hawaits [] ts (by rw [ht]; rfl) rfl
        simp [hstart]
      · rw [swap_of_ne ht]
        exact ⟨rfl, fun _ => rfl⟩
    rw [List.map_cons, declarators_cons hquiet, declarators_cons fun hstart => (hprev hstart).1,
      endsAt_swap isWord hbeside, nestingBehind_swap isWord, hcomma, hfound.1]
    congr 1
    · split
      · rename_i hname
        rw [hfound.2 (Bool.and_eq_true _ _ ▸ hname).1]
      · rfl
    · split
      · rfl
      · rename_i hend
        refine ih hmore (fun hstart => ?_) fun before after hsplit hopen => ?_
        · refine ⟨quiet_of_comma hstart, fun heq => ?_⟩
          simp [heq, isWord] at hstart
        · refine hawaits (t :: before) after (by rw [hsplit]; rfl) ?_
          rw [ends, hopen, Bool.or_false]
          exact Bool.eq_false_iff.mpr hend

/-! ## Lists and heads -/

theorem behindMark_map_swap (rest : List Token) :
    behindMark (rest.map (key.swap name)) = (behindMark rest).map (key.swap name) := by
  unfold behindMark
  rw [startsWith_map_swap isWord (by simp)]
  split
  · exact List.map_tail.symm
  · rfl

theorem functionName_map_swap (h : List.IsChain (Beside key) (t :: rest)) (word : t.kind = .keyword .function) :
    functionName (rest.map (key.swap name)) = functionName rest := by
  rw [functionName, behindMark_map_swap isWord, functionName]
  cases hmark : startsWith .operator rest with
  | true =>
    obtain ⟨mark, ts, rfl, hkind⟩ := startsWith_eq_true hmark
    rw [behindMark, hmark, if_pos rfl]
    exact firstName_map_swap (List.isChain_cons_cons.mp h).2 (by simp [hkind]) (by simp [hkind])
  | false =>
    rw [behindMark, hmark, if_neg Bool.false_ne_true]
    exact firstName_map_swap h (by simp [word]) (by simp [word])

theorem headList_map_swap (h : List.IsChain (Beside key) (t :: rest)) (word : t.kind = .keyword .function) :
    headList t (rest.map (key.swap name)) = (headList t rest).map (key.swap name) := by
  rw [headList, if_pos word, headList, if_pos word, functionName_map_swap isWord h word, behindMark_map_swap isWord,
    List.map_drop]

theorem announce_map_swap (walker : Walker) (body : Body) (after : List Token) :
    walker.announce body (after.map (key.swap name)) = walker.announce body after := by
  cases after with
  | nil => rfl
  | cons brace after =>
    have hbrace : ((key.swap name brace).kind = .leftBrace) = (brace.kind = .leftBrace) :=
      kind_swap isWord (· = .leftBrace) (by simp) brace
    simp only [List.map_cons, announce, hbrace, span_swap]

variable {walker : Walker} {lines : LineIndex} {opening : Token} {inside after : List Token}

theorem list_map_swap (kind : ScopeKind) (h : List.IsChain (Beside key) (opening :: rest))
    (paren : opening.kind = .leftParen) (hclose : splitAtClose 0 rest = some (inside, us)) :
    walker.list lines kind opening (inside.map (key.swap name)) (after.map (key.swap name)) =
      walker.list lines kind opening inside after := by
  obtain ⟨close, rfl, hkind⟩ := splitAtClose_eq_append hclose
  have hopening : opening ≠ key := fun heq => by simp [heq, isWord] at paren
  rw [← List.cons_append, List.append_cons] at h
  have hfound : parameters (key.swap name opening) 0 (inside.map (key.swap name)) = _ :=
    parameters_map_swap isWord 0 h.left_of_append (by simp [hkind])
  rw [swap_of_ne hopening] at hfound
  rw [list, hfound, announce_map_swap isWord]
  rfl

theorem takeHead_map_swap (kind : ScopeKind) (h : List.IsChain (Beside key) ts) :
    walker.takeHead lines kind (ts.map (key.swap name)) = walker.takeHead lines kind ts := by
  have hmap : parenthesised (ts.map (key.swap name)) = _ := parenthesised_map_swap isWord ts
  cases hhead : parenthesised ts with
  | none =>
    rw [hhead] at hmap
    rw [takeHead_of_none hhead, takeHead_of_none hmap]
  | some split =>
    obtain ⟨opening, behind, rfl, hparen, hclose⟩ := parenthesised_eq_some hhead
    rw [hhead] at hmap
    have hopening : opening ≠ key := fun heq => by simp [heq, isWord] at hparen
    rw [List.map_cons, swap_of_ne hopening] at hmap ⊢
    rw [takeHead_of_some hhead, takeHead_of_some hmap]
    exact list_map_swap isWord kind h hparen hclose

theorem methodHead?_map_swap (prev : Option Token) (rest : List Token) :
    (methodHead? prev (rest.map (key.swap name))).isSome = (methodHead? prev rest).isSome := by
  unfold methodHead?
  rw [parenthesised_map_swap isWord]
  cases prev with
  | none => rfl
  | some p =>
    cases parenthesised rest with
    | none => rfl
    | some split =>
      have hbrace : startsWith .leftBrace (split.2.map (key.swap name)) = _ :=
        startsWith_map_swap isWord (by simp) split.2
      simp only [Option.bind_eq_bind, Option.bind_some, Option.map_some, hbrace]
      cases precedesMethod p && startsWith .leftBrace split.2 <;> rfl

theorem openParen_map_swap (h : List.IsChain (Beside key) (t :: rest)) (paren : t.kind = .leftParen) :
    walker.openParen lines t (rest.map (key.swap name)) = walker.openParen lines t rest := by
  unfold openParen
  rw [splitAtClose_map_swap isWord]
  rcases hclose : splitAtClose 0 rest with _ | ⟨inside, _ | ⟨arrow, after⟩⟩
  · rfl
  · rfl
  · have harrow : ((key.swap name arrow).kind = .arrow) = (arrow.kind = .arrow) :=
      kind_swap isWord (· = .arrow) (by simp) arrow
    simp only [Option.map_some, List.map_cons, harrow, takeParameters_eq]
    rw [list_map_swap isWord .function h paren hclose]

theorem value_map_swap (prev : Option Token) (h : List.IsChain (Beside key) (t :: rest)) :
    walker.value lines prev t (rest.map (key.swap name)) = walker.value lines prev t rest := by
  have hlone : startsWith .arrow (rest.map (key.swap name)) = _ := startsWith_map_swap isWord (by simp) rest
  cases harrow : startsWith .arrow rest with
  | true =>
    rw [value_of_arrow harrow, value_of_arrow (hlone.trans harrow), ← List.map_tail, announce_map_swap isWord]
  | false =>
    have hkey : isKey prev (rest.map (key.swap name)) = isKey prev rest := by
      rw [isKey, startsWith_map_swap isWord (by simp), isKey]
    rw [value_of_not_arrow harrow, value_of_not_arrow (hlone.trans harrow), hkey, chainAt,
      members_map_swap isWord (List.isChain_cons.mp h).2]
    rfl

/-! ## Steps -/

/-- A step at another token than the key does not see the change, unless it is the word of a declaration list
that comes to the key. -/
theorem step_map_swap {prev : Option Token} (h : List.IsChain (Beside key) (t :: rest))
    (hprev : ∀ p, prev = some p → Beside key p t) (ht : t ≠ key)
    (hawaits : ∀ kind, t.kind.declares? = some kind → ∀ before after, rest = before ++ key :: after →
      ¬Awaits t before) :
    walker.step lines (prev.map (key.swap name)) (key.swap name t) (rest.map (key.swap name)) =
      walker.step lines prev t rest := by
  rw [swap_of_ne ht]
  have hdeclarators {kind : DeclarationKind} (hkind : t.kind.declares? = some kind) :
      declarators t 0 true (rest.map (key.swap name)) = declarators t 0 true rest := by
    have hfound : declarators (key.swap name t) 0 true (rest.map (key.swap name)) = _ :=
      declarators_map_swap isWord h (fun _ => ⟨quiet_of_declares hkind, ht⟩) fun before after hsplit hends =>
        Bool.eq_false_iff.mpr fun hstart => hawaits kind hkind before after hsplit ⟨hends, hstart⟩
    rwa [swap_of_ne ht] at hfound
  unfold Walker.step
  split
  case h_3 hkind | h_4 hkind | h_5 hkind => rw [hdeclarators (by rw [hkind]; rfl)]
  case h_6 hkind =>
    have hfirst : firstName (rest.map (key.swap name)) = firstName rest :=
      firstName_map_swap h (by simp [hkind]) (by simp [hkind])
    rw [firstName, firstName] at hfirst
    rw [hfirst]
  case h_7 hkind =>
    obtain ⟨before, hbefore, -⟩ := exists_before hkind rest
    have hlist : List.IsChain (Beside key) (headList t rest) :=
      h.suffix ((List.IsSuffix.trans ⟨before, hbefore.symm⟩) (List.suffix_cons t rest))
    rw [function_eq hkind, function_eq hkind, functionName_map_swap isWord h hkind, headList_map_swap isWord h hkind,
      takeHead_map_swap isWord .function hlist]
  case h_8 => rw [takeHead_map_swap isWord .block (List.isChain_cons.mp h).2]
  case h_9 hkind => rw [openParen_map_swap isWord h hkind]
  case h_10 | h_11 =>
    rw [List.head?_map, Option.any_map]
    simp only [isName_swap isWord]
  case h_12 text hkind =>
    have hsame : prev.map (key.swap name) = prev := by
      cases prev with
      | none => rfl
      | some p =>
        have hp : p ≠ key := fun heq => by simpa [hkind] using (hprev p rfl).colon heq
        rw [Option.map_some, swap_of_ne hp]
    rw [hsame, methodHead?_map_swap isWord, takeHead_map_swap isWord .function (List.isChain_cons.mp h).2,
      value_map_swap isWord prev h]
  all_goals rfl

theorem isKey_map_swap (prev : Option Token) (rest : List Token) :
    isKey (prev.map (key.swap name)) (rest.map (key.swap name)) = isKey prev rest := by
  have hopens (p : Token) : ((key.swap name p).kind = .leftBrace || (key.swap name p).kind = .comma) =
      (p.kind = .leftBrace || p.kind = .comma) :=
    kind_swap isWord (fun k => k = .leftBrace || k = .comma) (by simp) p
  rw [isKey, startsWith_map_swap isWord (by simp), Option.any_map, isKey]
  simp only [hopens]

end

/-! ## The step at a key -/

section

variable {walker : Walker} {lines : LineIndex} {prev : Option Token} {t : Token} {rest : List Token}

theorem not_isPoint_of_isKey (h : isKey prev rest = true) : prev.any Token.isPoint = false := by
  cases prev with
  | none => rfl
  | some p =>
    rw [isKey, Bool.and_eq_true, Option.any_some, Bool.or_eq_true, decide_eq_true_eq, decide_eq_true_eq] at h
    rcases h.1 with hkind | hkind <;> simp [Token.isPoint, hkind]

theorem methodHead?_of_isKey (h : isKey prev rest = true) : (methodHead? prev rest).isSome = false := by
  refine Bool.eq_false_iff.mpr fun hsome => ?_
  obtain ⟨_, inside, after, -, -, hhead, -⟩ := methodHead?_isSome hsome
  obtain ⟨opening, behind, rfl, hparen, -⟩ := parenthesised_eq_some hhead
  simp [isKey, startsWith, hparen] at h

theorem step_of_isKey (name : t.isIdentifier = true) (h : isKey prev rest = true) :
    walker.step lines prev t rest = .ok ⟨walker, [], 0⟩ := by
  obtain ⟨text, hkind⟩ := exists_identifier name
  have hlone : startsWith .arrow rest = false := by
    rw [isKey, Bool.and_eq_true] at h
    obtain ⟨colon, us, rfl, hcolon⟩ := startsWith_eq_true h.2
    simp [startsWith, hcolon]
  unfold Walker.step
  rw [hkind]
  dsimp only
  split
  · rfl
  · rw [methodHead?_of_isKey h, if_neg Bool.false_ne_true, value_of_not_arrow hlone, if_pos h]

theorem mark_of_undeclared {ts : List Token} (h : walker.undeclared ts = []) : walker.mark ts = walker := by
  rw [mark, h]
  rfl

/-- In front of a colon a keyword is a key, but the word of a declaration still declares what its list
reads behind the colon. -/
theorem exists_step_of_keyword {k : Keyword} (isWord : t.kind = .keyword k) (h : startsWith .colon rest = true) :
    ∃ step, walker.step lines prev t rest = .ok step ∧ (step.events = [] → step = ⟨walker, [], 0⟩) ∧
      (step.events = [] ↔ ∀ kind, t.kind.declares? = some kind →
        ∀ u ∈ declarators t 0 true rest, u.span.start ∈ walker.declared) := by
  cases hdeclares : t.kind.declares? with
  | some kind =>
    refine ⟨_, step_of_declares hdeclares, ?_, ?_⟩
    · intro hnone
      have hfound := List.map_eq_nil_iff.mp hnone
      rw [mark_of_undeclared hfound, hfound]
      rfl
    · rw [declares, List.map_eq_nil_iff, undeclared_eq_nil_iff]
      simp
  | none =>
    suffices hstep : walker.step lines prev t rest = .ok ⟨walker, [], 0⟩ from
      ⟨_, hstep, fun _ => rfl, by simp⟩
    obtain ⟨colon, us, rfl, hcolon⟩ := startsWith_eq_true h
    have hhead : parenthesised (colon :: us) = none := by simp [parenthesised, hcolon]
    have hname : firstName (colon :: us) = [] := by simp [firstName, Token.isIdentifier, hcolon, Kind.isIdentifier]
    unfold Walker.step
    split
    case h_3 hkind | h_4 hkind | h_5 hkind => simp [hkind, Kind.declares?] at hdeclares
    case h_6 =>
      rw [firstName] at hname
      rw [hname]
      rfl
    case h_7 hkind =>
      have hmark : behindMark (colon :: us) = colon :: us := by simp [behindMark, startsWith, hcolon]
      rw [function_eq hkind, headList, if_pos hkind, functionName, hmark, hname, List.length_nil, List.drop_zero,
        takeHead_of_none hhead]
      rfl
    case h_8 => rw [takeHead_of_none hhead]
    case h_13 => rfl
    all_goals
      rename_i hkind
      rw [hkind] at isWord
      cases isWord

end

end Walker

end Nodeless
