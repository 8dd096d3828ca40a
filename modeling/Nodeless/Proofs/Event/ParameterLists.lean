import Nodeless.Proofs.Event.Found

/-!
# Parameter lists

A head announces the parameters of its list for the braces behind it, and they are declared there and
nowhere else. This holds of functions, methods and catch clauses. The parentheses in front of an arrow
may be the list of a function or catch clause already, which leaves no parameter to the arrow.
-/

namespace Nodeless

namespace Walker

/-- A parameter as an item of its list. -/
inductive IsParameter : Item → Prop
  | alone {name : Token} : name.isIdentifier = true → IsParameter ⟨[], name, []⟩
  | default {name : Token} {behind : List Token} : name.isIdentifier = true → IsValue [.comma, .ellipsis] behind →
      (∀ t ∈ behind, ∀ value, t.kind ≠ .template value) → IsParameter ⟨[], name, behind⟩
  | rest {mark name : Token} : mark.kind = .ellipsis → name.isIdentifier = true → IsParameter ⟨[mark], name, []⟩

/-! ## What a list collects -/

section

variable {prev t name opening : Token} {ts us inside : List Token} {item : Item} {items : List Item}

theorem nestingBehind_of_name (h : t.isIdentifier = true) (nesting : Nat) : t.nestingBehind nesting = nesting := by
  obtain ⟨text, hkind⟩ := exists_identifier h
  simp [Token.nestingBehind, hkind, Kind.opensBracket, Kind.closesBracket]

theorem parameters_append {nesting : Nat} (h : ∀ before t after, ts = before ++ t :: after →
      t.isIdentifier = true → nestingAfter nesting before = 0 → startsItem (before.getLastD prev) = false) :
    parameters prev nesting (ts ++ us) = parameters (ts.getLastD prev) (nestingAfter nesting ts) us := by
  induction ts generalizing prev nesting with
  | nil => rfl
  | cons t ts ih =>
    have hfirst : (t.isIdentifier && nesting = 0 && startsItem prev && endsName (ts ++ us)) = false := by
      by_contra hfound
      simp only [Bool.not_eq_false, Bool.and_eq_true, decide_eq_true_eq] at hfound
      have hstarts := h [] t ts rfl hfound.1.1.1 hfound.1.1.2
      rw [show [].getLastD prev = prev from rfl, hfound.1.2] at hstarts
      cases hstarts
    rw [List.cons_append, parameters_cons, hfirst, List.getLastD_cons, nestingAfter_cons]
    refine ih fun before u after hsplit hname hnesting => ?_
    have hstarts := h (t :: before) u after (by rw [hsplit, List.cons_append]) hname hnesting
    rwa [List.getLastD_cons] at hstarts

theorem startsItem_in_value {before after : List Token} (hvalue : IsValue [.comma, .ellipsis] (before ++ t :: after))
    (hplain : ∀ u ∈ before ++ t :: after, ∀ value, u.kind ≠ .template value)
    (hprev : startsItem prev = false) (hnesting : nestingAfter 0 before = 0) :
    startsItem (before.getLastD prev) = false := by
  rcases List.eq_nil_or_concat before with rfl | ⟨front, last, rfl⟩
  · exact hprev
  rw [List.concat_eq_append] at hvalue hplain hnesting ⊢
  rw [getLastD_append]
  refine Bool.eq_false_iff.mpr fun hstarts => ?_
  have hlast : startsItem last = true := hstarts
  simp only [startsItem, Bool.or_eq_true, decide_eq_true_eq] at hlast
  rw [nestingAfter_append, nestingAfter_cons, nestingAfter_nil] at hnesting
  rcases hlast with (hparen | hcomma) | hellipsis
  · rw [Token.nestingBehind_of_opens (by rw [hparen]; rfl)] at hnesting
    cases hnesting
  all_goals
    rw [Token.nestingBehind_of_plain (by simp [*, Kind.opensBracket]) (by simp [*, Kind.closesBracket])] at hnesting
    rw [List.append_assoc, List.singleton_append] at hvalue hplain
    have houter := enclosing?_eq_nil hvalue.balanced (fun u hu => hplain u (List.mem_append_left _ hu)) hnesting
    exact hvalue.not_mem_barred (by simp) houter (by simp [*])

theorem IsParameter.parameters_eq (h : IsParameter item) (hprev : startsItem prev = true) (hus : endsName us = true) :
    ∃ last, parameters prev 0 (item.tokens ++ us) = item.name :: parameters last 0 us := by
  cases h with
  | @alone name hname =>
    refine ⟨name, ?_⟩
    simp [Item.tokens, parameters_cons, hname, hprev, hus, nestingBehind_of_name hname]
  | @default name behind hname hvalue hplain =>
    refine ⟨behind.getLastD name, ?_⟩
    have hends : endsName (behind ++ us) = true := by
      obtain ⟨equal, value, rfl, hequal, -⟩ := hvalue
      simp [endsName, startsWith, hequal]
    have hnext : startsItem name = false := by
      obtain ⟨text, hkind⟩ := exists_identifier hname
      simp [startsItem, hkind]
    rw [Item.tokens, List.nil_append, List.cons_append, parameters_cons, hname, hprev, hends,
      nestingBehind_of_name hname, parameters_append, nestingAfter_of_balanced hvalue.balanced]
    · rfl
    · rintro before t after rfl _ hnesting
      exact startsItem_in_value hvalue hplain hnext hnesting
  | @rest mark name hmark hname =>
    refine ⟨name, ?_⟩
    have hnot : mark.isIdentifier = false := by simp [Token.isIdentifier, hmark, Kind.isIdentifier]
    have hstarts : startsItem mark = true := by simp [startsItem, hmark]
    have hplain : mark.nestingBehind 0 = 0 := by
      simp [Token.nestingBehind, hmark, Kind.opensBracket, Kind.closesBracket]
    simp [Item.tokens, parameters_cons, hnot, hname, hstarts, hus, hplain, nestingBehind_of_name hname]

theorem parameters_of_listed (h : Listed IsParameter items inside) (hprev : startsItem prev = true) :
    parameters prev 0 inside = items.map Item.name := by
  induction h generalizing prev with
  | @last item hitem =>
    have hends : endsName [] = true := rfl
    obtain ⟨last, heq⟩ := hitem.parameters_eq hprev hends
    rw [List.append_nil] at heq
    exact heq
  | @more item items comma ts hitem hcomma _ ih =>
    have hends : endsName (comma :: ts) = true := by simp [endsName, startsWith, hcomma]
    obtain ⟨last, heq⟩ := hitem.parameters_eq hprev hends
    have hnot : comma.isIdentifier = false := by simp [Token.isIdentifier, hcomma, Kind.isIdentifier]
    have hplain : comma.nestingBehind 0 = 0 := by
      simp [Token.nestingBehind, hcomma, Kind.opensBracket, Kind.closesBracket]
    rw [heq, parameters_cons, hnot, hplain, ih (by simp [startsItem, hcomma])]
    rfl

/-- Balanced in brackets, and without templates. -/
structure Level (ts : List Token) : Prop where
  balanced : enclosing? [] ts = some []
  plain : ∀ t ∈ ts, ∀ value, t.kind ≠ .template value

theorem Level.append (hts : Level ts) (hus : Level us) : Level (ts ++ us) :=
  ⟨enclosing?_append_eq_some_iff.mpr ⟨[], hts.balanced, hus.balanced⟩,
    List.forall_mem_append.mpr ⟨hts.plain, hus.plain⟩⟩

theorem level_singleton (hopen : t.kind.opensBracket = false) (hclose : t.kind.closesBracket = false)
    (hplain : ∀ value, t.kind ≠ .template value) : Level [t] := by
  refine ⟨?_, List.forall_mem_singleton.mpr hplain⟩
  rw [enclosing?_cons_eq_some_iff]
  refine ⟨[], ?_, rfl⟩
  unfold Kind.opensBracket at hopen
  unfold Kind.closesBracket at hclose
  unfold Token.enclosing?
  split <;> simp_all

theorem level_name (h : t.isIdentifier = true) : Level [t] := by
  obtain ⟨text, hkind⟩ := exists_identifier h
  exact level_singleton (by simp [hkind, Kind.opensBracket]) (by simp [hkind, Kind.closesBracket]) (by simp [hkind])

theorem IsParameter.level (h : IsParameter item) : Level item.tokens := by
  cases h with
  | alone hname => exact level_name hname
  | default hname hvalue hplain => exact (level_name hname).append ⟨hvalue.balanced, hplain⟩
  | rest hmark hname =>
    refine (level_singleton ?_ ?_ ?_).append (level_name hname) <;>
      simp [hmark, Kind.opensBracket, Kind.closesBracket]

theorem level_of_listed (h : Listed IsParameter items inside) : Level inside := by
  induction h with
  | last hitem => exact hitem.level
  | @more _ _ comma ts hitem hcomma _ ih =>
    have hlevel : Level [comma] :=
      level_singleton (by simp [hcomma, Kind.opensBracket]) (by simp [hcomma, Kind.closesBracket]) (by simp [hcomma])
    exact hitem.level.append (hlevel.append ih)

theorem Level.exists_before (h : Level inside) (hmem : t ∈ parameters opening 0 inside) :
    ∃ before after, inside = before ++ t :: after ∧ ∀ nesting, nestingAfter nesting before = nesting := by
  obtain ⟨before, after, rfl, -, hnesting, -⟩ := mem_parameters_iff.mp hmem
  exact ⟨before, after, rfl, nestingAfter_of_balanced
    (enclosing?_eq_nil h.balanced (fun u hu => h.plain u (List.mem_append_left _ hu)) hnesting)⟩

end

/-! ## Heads -/

/-- The walk stands at a head, with the tokens from its list on and the arrow behind that list if there is
one. -/
inductive Head (walker : Walker) (prev : Option Token) (t : Token) (rest : List Token) :
    ScopeKind → List Token → List Token → Prop
  | function {mark name list : List Token} (word : t.kind = .keyword .function) (split : rest = mark ++ (name ++ list))
      (isMark : mark = [] ∨ ∃ m, mark = [m] ∧ m.kind = .operator)
      (isName : name = [] ∨ ∃ n, name = [n] ∧ n.isIdentifier = true) : Head walker prev t rest .function list []
  | «catch» (word : t.kind = .keyword .«catch») : Head walker prev t rest .block rest []
  | method (name : t.isIdentifier = true) (free : t.span.start ∉ walker.declared)
      (head : (methodHead? prev rest).isSome = true) : Head walker prev t rest .function rest []
  | arrow {mark : Token} (isArrow : mark.kind = .arrow) : Head walker prev t rest .function (t :: rest) [mark]

section

variable {walker : Walker} {lines : LineIndex} {prev : Option Token} {t opening brace : Token}
  {rest listed inside arrow after : List Token} {kind : ScopeKind}

theorem headList_of_split {mark name : List Token} (word : t.kind = .keyword .function)
    (split : rest = mark ++ (name ++ opening :: listed))
    (isMark : mark = [] ∨ ∃ m, mark = [m] ∧ m.kind = .operator)
    (isName : name = [] ∨ ∃ n, name = [n] ∧ n.isIdentifier = true) (paren : opening.kind = .leftParen) :
    headList t rest = opening :: listed := by
  have hbehind : behindMark rest = name ++ opening :: listed := by
    subst split
    rcases isMark with rfl | ⟨m, rfl, hm⟩
    · rcases isName with rfl | ⟨n, rfl, hn⟩
      · simp [behindMark, startsWith, paren]
      · obtain ⟨text, hkind⟩ := exists_identifier hn
        simp [behindMark, startsWith, hkind]
    · simp [behindMark, startsWith, hm]
  have hname : functionName rest = name := by
    rw [functionName, hbehind]
    rcases isName with rfl | ⟨n, rfl, hn⟩
    · simp [firstName, paren, Token.isIdentifier, Kind.isIdentifier]
    · simp [firstName, hn]
  rw [headList, if_pos word, hbehind, hname, List.drop_left]

theorem Head.exists_before (h : Head walker prev t rest kind (opening :: listed) arrow) :
    ∃ before, t :: rest = before ++ opening :: listed ∧
      (before = [] → opening = t ∧ listed = rest ∧ ∃ mark, arrow = [mark] ∧ mark.kind = .arrow) := by
  generalize hlist : opening :: listed = list at h
  cases h with
  | @function mark name list word split =>
    refine ⟨t :: (mark ++ name), ?_, by simp⟩
    rw [split, List.cons_append, List.append_assoc]
  | «catch» | method => exact ⟨[t], rfl, by simp⟩
  | @arrow mark isArrow =>
    obtain ⟨rfl, rfl⟩ := List.cons.inj hlist
    exact ⟨[], rfl, fun _ => ⟨rfl, rfl, mark, rfl, isArrow⟩⟩

/-! ## One list, one head -/

theorem Takes.exists_before (h : Takes walker prev t rest (opening :: listed)) :
    ∃ before, t :: rest = before ++ opening :: listed ∧ ∀ v ∈ before, v.kind ≠ .leftParen := by
  generalize hlist : opening :: listed = list at h
  cases h with
  | head word =>
    rcases word with hword | hword
    · obtain ⟨before, hbefore, hbare, honly⟩ := Walker.exists_before hword rest
      refine ⟨t :: before, congrArg (t :: ·) hbefore, List.forall_mem_cons.mpr ⟨by simp [hword], ?_⟩⟩
      intro v hv hkind
      rcases honly v hv with hoperator | hname
      · rw [hkind] at hoperator
        cases hoperator
      · have := isIdentifier_of_mem_bareNames (hbare.subset hname)
        simp [Token.isIdentifier, hkind, Kind.isIdentifier] at this
    · exact ⟨[t], by simp [headList, hword], by simp [hword]⟩
  | method name =>
    obtain ⟨text, hkind⟩ := exists_identifier name
    exact ⟨[t], rfl, by simp [hkind]⟩
  | arrow => exact ⟨[], rfl, by simp⟩

theorem declared_subset_of_function {step : Step} (h : walker.step lines prev t rest = .ok step)
    (word : t.kind = .keyword .function) : (walker.mark (functionName rest)).declared ⊆ step.walker.declared := by
  have hstep : step = walker.function lines rest := by
    unfold Walker.step at h
    rw [word] at h
    cases h
    rfl
  rw [hstep, function_eq word]
  dsimp only
  cases hhead : parenthesised (headList t rest) with
  | none =>
    rw [takeHead_of_none hhead]
    exact List.Subset.refl _
  | some split =>
    obtain ⟨_, _, hlist, -, -⟩ := parenthesised_eq_some hhead
    rw [hlist] at hhead ⊢
    rw [takeHead_of_some hhead, Walker.list, declared_announce]
    exact List.subset_append_right _ _

/-- A step in front of a head that is no arrow function does not take its list, and one in front of an
arrow function takes it for a function or catch clause only. -/
theorem Head.not_takes {earlier : Walker} {before : Option Token} {u : Token} {us front : List Token}
    (h : Head walker prev t rest kind (opening :: listed) arrow)
    (close : splitAtClose 0 listed = some (inside, arrow ++ brace :: after)) (hus : us = front ++ t :: rest)
    (hdeclared : ∀ v ∈ us, u.kind = .keyword .function → v ∈ functionName us →
      v.span.start ∈ walker.declared)
    (unshared : arrow ≠ [] → (u.kind = .keyword .function ∨ u.kind = .keyword .«catch») →
      headList u us ≠ opening :: listed) : ¬Takes earlier before u us (opening :: listed) := by
  intro htakes
  obtain ⟨between, hbetween, hnil⟩ := h.exists_before
  have hlength : us.length = front.length + (between.length + (listed.length + 1)) := by
    rw [hus, hbetween]
    simp
  generalize hlist : opening :: listed = list at htakes
  cases htakes with
  | head word =>
    -- The token of the head stands between the word and its list, where only its name may stand.
    have hplain : arrow = [] := by
      by_contra harrow
      exact unshared harrow word hlist.symm
    obtain ⟨gap, hgap, honly⟩ : ∃ gap, us = gap ++ headList u us ∧
        ∀ v ∈ gap, u.kind = .keyword .function ∧ (v.kind = .operator ∨ v ∈ functionName us) := by
      rcases word with hword | hword
      · obtain ⟨gap, hgap, -, honly⟩ := Walker.exists_before hword us
        exact ⟨gap, hgap, fun v hv => ⟨hword, honly v hv⟩⟩
      · exact ⟨[], by simp [headList, hword], by simp⟩
    have hne : between ≠ [] := by
      intro hempty
      obtain ⟨-, -, mark, hmark, -⟩ := hnil hempty
      rw [hplain] at hmark
      cases hmark
    obtain ⟨first, between, rfl⟩ := List.exists_cons_of_ne_nil hne
    obtain ⟨rfl, hrest⟩ := List.cons.inj hbetween
    have heq : gap ++ opening :: listed = (front ++ t :: between) ++ opening :: listed := by
      calc gap ++ opening :: listed = us := by rw [hlist, ← hgap]
        _ = front ++ (t :: between ++ opening :: listed) := by rw [hus, hbetween]
        _ = _ := (List.append_assoc _ _ _).symm
    have heq := List.append_cancel_right heq
    obtain ⟨hword, htoken⟩ := honly t (heq ▸ by simp)
    have hmem : t ∈ us := hus ▸ by simp
    have hfound : t.kind ≠ .operator → t.isIdentifier = true ∧ t.span.start ∈ walker.declared := by
      intro hkind
      have hname := htoken.resolve_left hkind
      obtain ⟨_, -, hbare, -⟩ := Walker.exists_before hword us
      exact ⟨isIdentifier_of_mem_bareNames (hbare.subset hname), hdeclared t hmem hword hname⟩
    subst hplain
    cases h with
    | function word =>
      have := (hfound (by simp [word])).1
      simp [Token.isIdentifier, word, Kind.isIdentifier] at this
    | «catch» word =>
      have := (hfound (by simp [word])).1
      simp [Token.isIdentifier, word, Kind.isIdentifier] at this
    | method name free =>
      obtain ⟨text, hkind⟩ := exists_identifier name
      exact free (hfound (by simp [hkind])).2
  | method _ _ head =>
    rw [← hlist, List.length_cons] at hlength
    have hempty : between = [] := List.eq_nil_of_length_eq_zero (by omega)
    obtain ⟨rfl, rfl, mark, rfl, hmark⟩ := hnil hempty
    -- A brace stands behind the list of a method, and an arrow behind this one.
    obtain ⟨_, _, _, -, -, hhead, hbrace⟩ := methodHead?_isSome head
    obtain ⟨_, _, hcons, -, hclose⟩ := parenthesised_eq_some hhead
    obtain ⟨rfl, rfl⟩ := List.cons.inj (hlist.trans hcons)
    rw [close] at hclose
    cases hclose
    simp [startsWith, hmark] at hbrace
  | arrow =>
    have := congrArg List.length hlist
    simp only [List.length_cons] at this
    omega

theorem Head.not_declared {tokens before behind : List Token} {p : Token}
    (h : Head walker prev t rest kind (opening :: listed) arrow) (hts : Token.InOrder tokens)
    (reach : Place.Reaches lines ⟨{}, none, tokens⟩ ⟨walker, prev, t :: rest⟩)
    (paren : opening.kind = .leftParen) (close : splitAtClose 0 listed = some (inside, arrow ++ brace :: after))
    (unshared : arrow ≠ [] → ∀ earlier prev' u us,
      Place.Reaches lines ⟨{}, none, tokens⟩ ⟨earlier, prev', u :: us⟩ →
      (u.kind = .keyword .function ∨ u.kind = .keyword .«catch») → headList u us ≠ opening :: listed)
    (hsplit : listed = before ++ p :: behind) (level : ∀ nesting, nestingAfter nesting before = nesting) :
    p.span.start ∉ walker.declared := by
  intro hp
  obtain ⟨earlier, prev', u, us, step, hreach, hstep, hback, entry, hentry, hstart⟩ :=
    (reach.exists_settles hp).resolve_left List.not_mem_nil
  -- The step stands in front of the head, and so in front of the list.
  obtain ⟨between, hbetween, -⟩ := h.exists_before
  obtain ⟨front, hfront, -⟩ := Place.Reaches.exists_before hback
  have hus : us = (us.take step.skip ++ front) ++ t :: rest := by
    rw [List.append_assoc, ← hfront]
    exact (List.take_append_drop _ _).symm
  obtain ⟨outer, houter⟩ : ∃ outer, us = outer ++ opening :: (before ++ p :: behind) :=
    ⟨(us.take step.skip ++ front) ++ between, by rw [List.append_assoc, ← hsplit, ← hbetween, ← hus]⟩
  obtain ⟨gap, hgap, -⟩ := Place.Reaches.exists_before hreach
  have hordered : Token.InOrder (u :: us) := hts.sublist (List.IsSuffix.sublist ⟨gap, hgap.symm⟩)
  have hdeeper (nesting : Nat) : nestingAfter nesting (opening :: before) = nesting + 1 := by
    rw [nestingAfter_cons, Token.nestingBehind_of_opens (by rw [paren]; rfl), level]
  -- Whatever is found at the offset of the parameter is the parameter, with the same tokens in front.
  have hunique (left : List Token) {right : List Token} {q : Token} (hq : u :: us = left ++ q :: right)
      (hqp : q.span.start = p.span.start) : left = (u :: outer) ++ opening :: before ∧ q :: right = p :: behind := by
    have hleft : q :: right <:+ u :: us := hq ▸ List.suffix_append _ _
    have hwhole : u :: us = ((u :: outer) ++ opening :: before) ++ p :: behind := by
      rw [houter, List.append_assoc, List.cons_append, List.cons_append]
    have hright : p :: behind <:+ u :: us := hwhole ▸ List.suffix_append _ _
    have heq := suffix_eq_of_start hordered hleft hright hqp
    refine ⟨?_, heq⟩
    rw [heq, hwhole] at hq
    exact (List.append_cancel_right hq).symm
  have hfinds := finds_of_mem_settles hentry
  generalize entry.1 = q at hfinds hstart
  cases hfinds with
  | self => cases (hunique [] rfl hstart).1
  | @ahead before' after' _ split outside =>
    obtain ⟨hleft, -⟩ := hunique (u :: before') (by rw [split]; rfl) hstart
    rw [List.cons_append, List.cons.injEq] at hleft
    rw [hleft.2, nestingAfter_append, hdeeper] at outside
    cases outside
  | @listed before' after' opening' _ paren' takes outside =>
    obtain ⟨gap', hgap', hclear⟩ := takes.exists_before
    obtain ⟨hleft, hright⟩ := hunique (gap' ++ opening' :: before') (by
      rw [hgap', List.append_assoc, List.cons_append]) hstart
    have hsame (hopening : opening' :: before' = opening :: before) : False := by
      obtain ⟨rfl, rfl⟩ := List.cons.inj hopening
      rw [hright, ← hsplit] at takes
      refine h.not_takes close hus ?_ (fun harrow => unshared harrow earlier prev' u us hreach) takes
      intro v _ hword hname
      refine Place.Reaches.declared_subset hback ?_
      exact (declared_subset_of_function hstep hword) (mem_declared_mark.mpr (.inl ⟨v, hname, rfl⟩))
    rcases List.append_eq_append_iff.mp hleft with ⟨more, hmore, htail⟩ | ⟨more, hmore, htail⟩
    · cases more with
      | nil => exact hsame htail
      | cons v more =>
        -- The list of the head stands within the other list, so its parameters are nested there.
        rw [List.cons_append, List.cons.injEq] at htail
        rw [htail.2, nestingAfter_append, hdeeper] at outside
        cases outside
    · cases more with
      | nil => exact hsame htail.symm
      | cons v more =>
        rw [List.cons_append, List.cons.injEq] at htail
        exact hclear opening (by rw [hmore, htail.1]; simp) paren

/-! ## From the head to its braces -/

theorem parenthesised_of_close (paren : opening.kind = .leftParen)
    (close : splitAtClose 0 listed = some (inside, after)) :
    parenthesised (opening :: listed) = some (inside, after) := by
  rw [parenthesised, if_pos paren, close]

theorem mem_bodies_list (after : List Token)
    (free : ∀ p ∈ parameters opening 0 inside, p.span.start ∉ walker.declared)
    (isBrace : brace.kind = .leftBrace) :
    (brace.span.start, ⟨kind, (parameters opening 0 inside).map (nameOf lines)⟩) ∈
      (walker.list lines kind opening inside (brace :: after)).bodies := by
  have hall : walker.undeclared (parameters opening 0 inside) = parameters opening 0 inside :=
    List.filter_eq_self.mpr fun p hp => by simpa using free p hp
  rw [list, announce_brace _ _ isBrace, hall]
  exact List.mem_cons_self

theorem mem_settlesList_of_free {p : Token} {fate : Fate} (hp : p ∈ parameters opening 0 inside)
    (free : p.span.start ∉ walker.declared) (isBrace : brace.kind = .leftBrace) :
    (p, none) ∈ walker.settlesList opening inside (brace :: after) fate := by
  refine List.mem_map.mpr ⟨p, mem_undeclared_iff.mpr ⟨hp, free⟩, ?_⟩
  simp [fateOf, startsWith, isBrace]

theorem Head.exists_step (h : Head walker prev t rest kind (opening :: listed) arrow) (hts : Token.InOrder rest)
    (paren : opening.kind = .leftParen) (close : splitAtClose 0 listed = some (inside, arrow ++ brace :: after))
    (isBrace : brace.kind = .leftBrace)
    (free : ∀ p ∈ parameters opening 0 inside, p.span.start ∉ walker.declared) :
    ∃ step, walker.step lines prev t rest = .ok step ∧ step.skip = 0 ∧
      (brace.span.start, ⟨kind, (parameters opening 0 inside).map (nameOf lines)⟩) ∈ step.walker.bodies ∧
      ∀ p ∈ parameters opening 0 inside, (p, none) ∈ walker.settles prev t rest := by
  have hparenthesised := parenthesised_of_close paren close
  generalize hlist : opening :: listed = list at h
  cases h with
  | function word split isMark isName =>
    subst hlist
    have hhead := headList_of_split word split isMark isName paren
    have hfree : ∀ p ∈ parameters opening 0 inside, p.span.start ∉ (walker.mark (functionName rest)).declared :=
      fun p hp => (mem_undeclared_iff.mp (undeclared_mark_functionName hts word hhead close
        (mem_undeclared_iff.mpr ⟨hp, free p hp⟩))).2
    refine ⟨walker.function lines rest, by simp [Walker.step, word], ?_, ?_, fun p hp => ?_⟩
    · rw [function_eq word]
    · rw [function_eq word]
      dsimp only
      rw [hhead, takeHead_of_some hparenthesised]
      exact mem_bodies_list after hfree isBrace
    · rw [settles, word, hhead, settlesHead_of_some hparenthesised]
      exact List.mem_append_right _ (mem_settlesList_of_free hp (hfree p hp) isBrace)
  | «catch» word =>
    rw [← hlist]
    refine ⟨⟨walker.takeHead lines .block (opening :: listed), [], 0⟩, by simp [Walker.step, word], rfl, ?_,
      fun p hp => ?_⟩
    · rw [takeHead_of_some hparenthesised]
      exact mem_bodies_list after free isBrace
    · have hhead : headList t (opening :: listed) = opening :: listed := by simp [headList, word]
      rw [settles, word]
      dsimp only
      rw [hhead, settlesHead_of_some hparenthesised]
      exact mem_settlesList_of_free hp (free p hp) isBrace
  | method name hfree head =>
    obtain ⟨text, hkind⟩ := exists_identifier name
    have hcontains : ¬walker.declared.contains t.span.start = true := fun hmem => hfree (List.contains_iff_mem.mp hmem)
    rw [← hlist] at head ⊢
    refine ⟨⟨walker.takeHead lines .function (opening :: listed), [], 0⟩, ?_, rfl, ?_, fun p hp => ?_⟩
    · rw [Walker.step, hkind]
      dsimp only
      rw [if_neg hcontains, if_pos head]
    · rw [takeHead_of_some hparenthesised]
      exact mem_bodies_list after free isBrace
    · rw [settles, hkind]
      dsimp only
      rw [if_neg hcontains, if_pos head, settlesHead_of_some hparenthesised]
      exact List.mem_cons_of_mem _ (mem_settlesList_of_free hp (free p hp) isBrace)
  | arrow isArrow =>
    obtain ⟨rfl, rfl⟩ := List.cons.inj hlist
    rw [List.singleton_append] at close
    refine ⟨walker.openParen lines opening listed, by simp [Walker.step, paren], ?_, ?_, fun p hp => ?_⟩
    · simp [openParen, close, isArrow]
    · simp only [openParen, close, isArrow, if_true, takeParameters_eq]
      exact mem_bodies_list after free isBrace
    · simp only [settles, paren, settlesParen, close, isArrow, if_true]
      exact mem_settlesList_of_free hp (free p hp) isBrace

end

end Walker

namespace Event

open Walker (Place Head IsParameter headList nameOf Level parameters level_of_listed parameters_of_listed
  splitAtClose splitAtClose_of_balanced startsItem Run Takes)

/-- The braces behind a head declare exactly the names of its list, in order, and these stand in no
chain. -/
theorem declares_parameters {source : String} {events : List Event} (h : ofSource source = .ok events)
    {walker : Walker} {prev : Option Token} {t opening close brace : Token} {rest inside arrow after : List Token}
    {kind : ScopeKind} {items : List Item}
    (reach : Place.Reaches (LineIndex.ofChars source.toList) ⟨{}, none, Token.walked source⟩
      ⟨walker, prev, t :: rest⟩)
    (head : Head walker prev t rest kind (opening :: (inside ++ close :: (arrow ++ brace :: after))) arrow)
    (unshared : arrow ≠ [] → ∀ earlier before u us,
      Place.Reaches (LineIndex.ofChars source.toList) ⟨{}, none, Token.walked source⟩
        ⟨earlier, before, u :: us⟩ →
        (u.kind = .keyword .function ∨ u.kind = .keyword .«catch») →
          headList u us ≠ opening :: (inside ++ close :: (arrow ++ brace :: after)))
    (paren : opening.kind = .leftParen) (closes : close.kind = .rightParen) (isBrace : brace.kind = .leftBrace)
    (listed : inside = [] ∧ items = [] ∨ Listed IsParameter items inside) :
    (∃ walker' prev' step,
      Place.Reaches (LineIndex.ofChars source.toList) ⟨walker, prev, t :: rest⟩
        ⟨walker', prev', brace :: after⟩ ∧
      walker'.step (LineIndex.ofChars source.toList) prev' brace after = .ok step ∧
      step.events = .enter brace.span kind ::
        Walker.declares (LineIndex.ofChars source.toList) .lexical (items.map Item.name) ∧
          step.events <:+: events) ∧
    (∀ item ∈ items, ∀ u ∈ item.behind, u ∉ items.map Item.name) ∧
      ∀ item ∈ items, ∀ c ∈ chains events, c.span.covers item.name.span = false := by
  obtain ⟨hts, settled, hrun⟩ := exists_run h
  have hsound := reach.sound (Place.sound_start hts)
  have hrest : Token.InOrder rest := hsound.inOrder.sublist (List.sublist_cons_self t rest)
  have hinside : Level inside ∧ parameters opening 0 inside = items.map Item.name := by
    rcases listed with ⟨rfl, rfl⟩ | hlisted
    · exact ⟨⟨rfl, by simp⟩, rfl⟩
    · exact ⟨level_of_listed hlisted, parameters_of_listed hlisted (by simp [startsItem, paren])⟩
  have hclose : splitAtClose 0 (inside ++ close :: (arrow ++ brace :: after)) =
      some (inside, arrow ++ brace :: after) :=
    splitAtClose_of_balanced hinside.1.balanced closes
  have hfree : ∀ p ∈ parameters opening 0 inside, p.span.start ∉ walker.declared := by
    intro p hp
    obtain ⟨before, behind, rfl, hlevel⟩ := hinside.1.exists_before hp
    exact head.not_declared hts reach paren hclose unshared (by rw [List.append_assoc, List.cons_append]) hlevel
  obtain ⟨step, hstep, hskip, hbody, hsettles⟩ :=
    @Head.exists_step walker (LineIndex.ofChars source.toList) prev t opening brace rest _ inside arrow after kind head
      hrest paren hclose isBrace hfree
  rw [hinside.2] at hbody hsettles
  have hnext : Place.Reaches (LineIndex.ofChars source.toList) ⟨walker, prev, t :: rest⟩ (step.place t rest) :=
    .single ⟨t, rest, step, rfl, hstep, rfl⟩
  obtain ⟨before, hbefore, -⟩ := head.exists_before
  obtain ⟨front, hfront⟩ : ∃ front, (step.place t rest).ahead = front ++ brace :: after := by
    have hwhole : t :: rest = (before ++ opening :: (inside ++ close :: arrow)) ++ brace :: after := by
      rw [hbefore]
      simp
    have htail := congrArg List.tail hwhole
    rw [List.tail_cons, List.tail_append_of_ne_nil (by simp)] at htail
    exact ⟨_, by rw [Walker.Step.place, hskip, List.drop_zero]; exact htail⟩
  obtain ⟨_, _, _, -, hmore⟩ := hrun.of_reaches (reach.trans hnext)
  obtain ⟨walker', hreach⟩ := hmore.exists_reaches hfront (by simp [Token.isPoint, isBrace])
    fun _ => by simp [Token.isName, isBrace]
  have hopen := hreach.openBrace_events (hnext.sound hsound) hbody
  refine ⟨⟨walker', _, walker'.openBrace brace, hnext.trans hreach, by simp [Walker.step, isBrace],
    ?_, ?_⟩, ?_, ?_⟩
  · rw [hopen]
    simp [Walker.declares, Function.comp_def]
  · obtain ⟨step', hstep', hpart⟩ := hrun.exists_step (reach.trans (hnext.trans hreach))
    have heq : step' = walker'.openBrace brace := by simpa [Walker.step, isBrace] using hstep'.symm
    exact heq ▸ hpart
  · rcases listed with ⟨rfl, rfl⟩ | hlisted
    · simp
    · have hnodup := hsound.inOrder.nodup
      rw [show (Place.mk walker prev (t :: rest)).ahead = before ++ opening :: (inside ++ _) from hbefore] at hnodup
      have hlater := (List.nodup_cons.mp (List.nodup_append.mp hnodup).2.1).2
      exact hlisted.not_mem_names (List.nodup_append.mp hlater).1
  · intro item hitem c hc
    have hsettled := Run.mem_settled reach hrun rfl _ (hsettles item.name (List.mem_map_of_mem hitem))
    have hnone := List.countP_eq_zero.mp (hrun.countP_covers_chain hts hsettled) c hc
    simpa using hnone

theorem declares_parameters_arrow :
    let source := "(a, b = [c], ...d) => \x7b\x7d"
    let lines := LineIndex.ofChars source.toList
    let opening : Token := ⟨.leftParen, "(", ⟨0, 1⟩, false⟩
    let a : Token := ⟨.identifier "a", "a", ⟨1, 2⟩, false⟩
    let b : Token := ⟨.identifier "b", "b", ⟨4, 5⟩, false⟩
    let c : Token := ⟨.identifier "c", "c", ⟨9, 10⟩, false⟩
    let d : Token := ⟨.identifier "d", "d", ⟨16, 17⟩, false⟩
    let value : List Token :=
      [⟨.leftBracket, "[", ⟨8, 9⟩, false⟩, c, ⟨.rightBracket, "]", ⟨10, 11⟩, false⟩]
    let items : List Item := [⟨[], a, []⟩, ⟨[], b, ⟨.equal, "=", ⟨6, 7⟩, false⟩ :: value⟩,
      ⟨[⟨.ellipsis, "...", ⟨13, 16⟩, false⟩], d, []⟩]
    let inside := items[0].tokens ++ ⟨.comma, ",", ⟨2, 3⟩, false⟩ :: (items[1].tokens ++
      ⟨.comma, ",", ⟨11, 12⟩, false⟩ :: items[2].tokens)
    let brace : Token := ⟨.leftBrace, "\x7b", ⟨22, 23⟩, false⟩
    let after : List Token := [⟨.rightBrace, "\x7d", ⟨23, 24⟩, false⟩]
    let rest := inside ++ ⟨.rightParen, ")", ⟨17, 18⟩, false⟩ ::
      ([⟨.arrow, "=>", ⟨19, 21⟩, false⟩] ++ brace :: after)
    let events := .chain ⟨nameOf lines c, []⟩ :: .enter brace.span .function ::
      Walker.declares lines .lexical [a, b, d] ++ [.exit ⟨23, 24⟩]
    Token.walked source = opening :: rest ∧ ofSource source = .ok events ∧
      (∃ walker prev step, Place.Reaches lines ⟨{}, none, opening :: rest⟩ ⟨walker, prev, brace :: after⟩ ∧
        walker.step lines prev brace after = .ok step ∧
        step.events = .enter brace.span .function :: Walker.declares lines .lexical [a, b, d] ∧
        step.events <:+: events) ∧
      (∀ item ∈ items, ∀ u ∈ item.behind, u ∉ [a, b, d]) ∧
        ∀ item ∈ items, ∀ chain ∈ chains events, chain.span.covers item.name.span = false := by
  intro source lines opening a b c d value items inside brace after rest events
  have hwalked : Token.walked source = opening :: rest := by decide +kernel
  have hevents : ofSource source = .ok events := by decide +kernel
  have hlisted : Listed IsParameter items inside :=
    .more (.alone rfl) rfl (.more (.default rfl ⟨_, value, rfl, rfl, by decide +kernel⟩
      (by simp [value, c])) rfl (.last (.rest rfl rfl)))
  have hplain : ∀ u ∈ opening :: rest, u.kind ≠ .keyword .function ∧ u.kind ≠ .keyword .«catch» := by
    decide +kernel
  have hreach : Place.Reaches lines ⟨{}, none, Token.walked source⟩ ⟨{}, none, opening :: rest⟩ :=
    hwalked ▸ .refl
  refine ⟨hwalked, hevents, declares_parameters hevents hreach (.arrow rfl) ?_ rfl rfl rfl (.inr hlisted)⟩
  intro _ earlier before u us hu hword
  obtain ⟨front, hfront, -⟩ := Place.Reaches.exists_before hu
  have hmem : u ∈ opening :: rest := by
    rw [← hwalked, show Token.walked source = front ++ u :: us from hfront]
    simp
  exact (hword.elim (hplain u hmem).1 (hplain u hmem).2).elim

/-- The function takes the list in front of the arrow, and no braces follow that. -/
theorem declares_parameters_shared :
    let source := "function(a) => \x7b\x7d"
    let lines := LineIndex.ofChars source.toList
    let opening : Token := ⟨.leftParen, "(", ⟨8, 9⟩, false⟩
    let a : Token := ⟨.identifier "a", "a", ⟨9, 10⟩, false⟩
    let mark : Token := ⟨.arrow, "=>", ⟨12, 14⟩, false⟩
    let brace : Token := ⟨.leftBrace, "\x7b", ⟨15, 16⟩, false⟩
    let after : List Token := [⟨.rightBrace, "\x7d", ⟨16, 17⟩, false⟩]
    let rest := [a] ++ ⟨.rightParen, ")", ⟨10, 11⟩, false⟩ :: ([mark] ++ brace :: after)
    Listed IsParameter [⟨[], a, []⟩] [a] ∧
      (∃ walker prev, Place.Reaches lines ⟨{}, none, Token.walked source⟩ ⟨walker, prev, opening :: rest⟩ ∧
        Head walker prev opening rest .function (opening :: rest) [mark]) ∧
      ofSource source = .ok [.enter brace.span .function, .exit ⟨16, 17⟩] ∧
      ¬.enter brace.span .function :: Walker.declares lines .lexical [a] <:+:
        [.enter brace.span .function, .exit ⟨16, 17⟩] := by
  intro source lines opening a mark brace after rest
  have hwalked :
      Token.walked source = [⟨.keyword .function, "function", ⟨0, 8⟩, false⟩] ++ opening :: rest := by
    decide +kernel
  have hevents : ofSource source = .ok [.enter brace.span .function, .exit ⟨16, 17⟩] := by decide +kernel
  obtain ⟨-, settled, hrun⟩ := exists_run hevents
  obtain ⟨walker, hreach⟩ := hrun.exists_reaches hwalked rfl fun _ => rfl
  refine ⟨.last (.alone rfl), ⟨walker, _, hreach, .arrow rfl⟩, hevents, ?_⟩
  decide +kernel

end Event

end Nodeless
