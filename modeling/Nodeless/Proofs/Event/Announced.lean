import Nodeless.Proofs.Event.Settled

/-!
# Announced bodies

A head announces the brace behind its list, and an arrow the brace behind itself. No brace is
announced twice, since a closing parenthesis has one partner only, and every announced brace is still
ahead. So each announced parameter is reported exactly once.
-/

namespace Nodeless.Walker

/-! ## Partners of parentheses -/

/-- The parentheses that are left to close behind the token. -/
def nest (t : Token) (depth : Nat) : Nat :=
  if t.kind = .leftParen then depth + 1 else if t.kind = .rightParen then depth - 1 else depth

theorem splitAtClose_cons {depth : Nat} {t : Token} {ts inside after : List Token}
    (h : splitAtClose depth (t :: ts) = some (inside, after)) :
    t.kind = .rightParen ∧ depth = 0 ∧ inside = [] ∧ after = ts ∨
      (t.kind = .rightParen → depth ≠ 0) ∧
        ∃ more, inside = t :: more ∧ splitAtClose (nest t depth) ts = some (more, after) := by
  have hmore {depth : Nat} (h : ((splitAtClose depth ts).map fun s => (t :: s.1, s.2)) = some (inside, after)) :
      ∃ more, inside = t :: more ∧ splitAtClose depth ts = some (more, after) := by
    obtain ⟨⟨more, _⟩, hsplit, heq⟩ := Option.map_eq_some_iff.mp h
    cases heq
    exact ⟨more, rfl, hsplit⟩
  rw [splitAtClose.eq_def] at h
  dsimp only at h
  unfold nest
  split at h
  · cases h
    exact .inl ⟨by assumption, rfl, rfl, rfl⟩
  · rename_i hclose
    exact .inr ⟨fun _ => Nat.succ_ne_zero _, by simpa [hclose] using hmore h⟩
  · rename_i hopen
    exact .inr ⟨by simp [hopen], by simpa [hopen] using hmore h⟩
  · rename_i hopen hlast hdeeper
    have hopen : t.kind ≠ .leftParen := hopen
    have hclose : t.kind ≠ .rightParen := fun hkind =>
      (Nat.eq_zero_or_eq_succ_pred _).elim (hlast hkind) (hdeeper _ hkind)
    exact .inr ⟨fun hkind => absurd hkind hclose, by simpa [hopen, hclose] using hmore h⟩

theorem splitAtClose_eq_append {depth : Nat} {ts inside after : List Token}
    (h : splitAtClose depth ts = some (inside, after)) :
    ∃ close, ts = inside ++ close :: after ∧ close.kind = .rightParen := by
  induction ts generalizing depth inside with
  | nil => cases h
  | cons t ts ih =>
    rcases splitAtClose_cons h with ⟨hclose, -, rfl, rfl⟩ | ⟨-, more, rfl, hmore⟩
    · exact ⟨t, rfl, hclose⟩
    · obtain ⟨close, rfl, hclose⟩ := ih hmore
      exact ⟨close, rfl, hclose⟩

theorem length_lt_of_splitAtClose {depth : Nat} {ts inside after : List Token}
    (h : splitAtClose depth ts = some (inside, after)) : after.length < ts.length := by
  obtain ⟨close, rfl, -⟩ := splitAtClose_eq_append h
  simp only [List.length_append, List.length_cons]
  omega

theorem splitAtClose_lt {depth more : Nat} {ts inside after inside' after' : List Token}
    (h : splitAtClose depth ts = some (inside, after))
    (h' : splitAtClose (depth + 1 + more) ts = some (inside', after')) : after'.length < after.length := by
  induction ts generalizing depth inside inside' with
  | nil => cases h
  | cons t ts ih =>
    rcases splitAtClose_cons h' with ⟨-, hdepth, -⟩ | ⟨-, _, -, hmore'⟩
    · omega
    rcases splitAtClose_cons h with ⟨-, -, -, rfl⟩ | ⟨hnest, _, -, hmore⟩
    · exact length_lt_of_splitAtClose hmore'
    · have hdeeper : nest t (depth + 1 + more) = nest t depth + 1 + more := by
        unfold nest
        split
        · omega
        · split
          · have := hnest (by assumption)
            omega
          · rfl
      rw [hdeeper] at hmore'
      exact ih hmore hmore'

theorem splitAtClose_ne {depth : Nat} {before behind inside inside' after : List Token} {opening : Token}
    (hopen : opening.kind = .leftParen) (h : splitAtClose depth (before ++ opening :: behind) = some (inside, after))
    (h' : splitAtClose 0 behind = some (inside', after)) : False := by
  induction before generalizing depth inside with
  | nil =>
    -- The list in front is the deeper one from here on.
    rcases splitAtClose_cons h with ⟨hclose, -⟩ | ⟨-, _, -, hmore⟩
    · rw [hopen] at hclose
      cases hclose
    · rw [nest, if_pos hopen, show depth + 1 = 0 + 1 + depth by omega] at hmore
      exact Nat.lt_irrefl _ (splitAtClose_lt h' hmore)
  | cons t before ih =>
    rw [List.cons_append] at h
    rcases splitAtClose_cons h with ⟨-, -, -, rfl⟩ | ⟨-, _, -, hmore⟩
    · -- It ends before the other one starts.
      have hlt := length_lt_of_splitAtClose h'
      rw [List.length_append, List.length_cons] at hlt
      omega
    · exact ih hmore

/-! ## Announcing -/

/-- At the token `t` with `rest` behind it, the walk may announce the body that starts with the
tokens `body`. -/
inductive Announces (t : Token) (rest : List Token) : List Token → Prop
  | head {before behind inside body : List Token} {opening : Token} (split : rest = before ++ opening :: behind)
      (paren : opening.kind = .leftParen) (close : splitAtClose 0 behind = some (inside, body))
      (word : t.kind.isKeyword = true ∨ t.isIdentifier = true) : Announces t rest body
  | arrow {inside body : List Token} {arrow : Token} (paren : t.kind = .leftParen)
      (close : splitAtClose 0 rest = some (inside, arrow :: body)) (isArrow : arrow.kind = .arrow) :
      Announces t rest body
  | lone {body : List Token} {arrow : Token} (name : t.isIdentifier = true) (split : rest = arrow :: body)
      (isArrow : arrow.kind = .arrow) : Announces t rest body

theorem cons_suffix_inj {a b : Token} {us ts : List Token} (ha : a :: us <:+ ts) (hb : b :: us <:+ ts) : a = b := by
  have hsuffix := List.suffix_of_suffix_length_le ha hb (by simp)
  exact (List.cons.inj (hsuffix.eq_of_length (by simp))).1

theorem splitAtClose_suffix {depth : Nat} {ts inside after : List Token}
    (h : splitAtClose depth ts = some (inside, after)) :
    ∃ close, close.kind = .rightParen ∧ close :: after <:+ ts := by
  obtain ⟨close, rfl, hclose⟩ := splitAtClose_eq_append h
  exact ⟨close, hclose, List.suffix_append _ _⟩

section

variable {t u : Token} {rest behind body : List Token}

theorem Announces.exists_mark (h : Announces t rest body) :
    ∃ mark, mark :: body <:+ rest ∧ (mark.kind = .rightParen ∨ mark.kind = .arrow) := by
  cases h with
  | head split _ close _ =>
    obtain ⟨mark, hparen, hsuffix⟩ := splitAtClose_suffix close
    exact ⟨mark, split ▸ (hsuffix.trans (List.suffix_cons _ _)).trans (List.suffix_append _ _), .inl hparen⟩
  | arrow _ close isArrow =>
    obtain ⟨_, -, hsuffix⟩ := splitAtClose_suffix close
    exact ⟨_, (List.suffix_cons _ _).trans hsuffix, .inr isArrow⟩
  | lone _ split isArrow => exact ⟨_, split ▸ List.suffix_refl _, .inr isArrow⟩

theorem listed_eq {ts listed listed' inside inside' : List Token} {opening opening' : Token}
    (hlisted : opening :: listed <:+ ts) (hlisted' : opening' :: listed' <:+ ts) (paren : opening.kind = .leftParen)
    (paren' : opening'.kind = .leftParen) (close : splitAtClose 0 listed = some (inside, body))
    (close' : splitAtClose 0 listed' = some (inside', body)) : opening :: listed = opening' :: listed' := by
  rcases List.suffix_or_suffix_of_suffix hlisted hlisted' with h | h
  · rcases List.suffix_cons_iff.mp h with heq | ⟨before, rfl⟩
    · exact heq
    · exact (splitAtClose_ne paren close' close).elim
  · rcases List.suffix_cons_iff.mp h with heq | ⟨before, rfl⟩
    · exact heq.symm
    · exact (splitAtClose_ne paren' close close').elim

theorem Announces.mem_before {before listed inside : List Token} {opening : Token} (paren : opening.kind = .leftParen)
    (close : splitAtClose 0 listed = some (inside, body)) (hlater : u :: behind <:+ before ++ opening :: listed)
    (h : Announces u behind body) : u ∈ before := by
  obtain ⟨mark, hparen, hmark⟩ := splitAtClose_suffix close
  have hlisted : opening :: listed <:+ before ++ opening :: listed := List.suffix_append _ _
  have hmark := (hmark.trans (List.suffix_cons opening listed)).trans hlisted
  have hbehind := (List.suffix_cons u behind).trans hlater
  have harrow {arrow : Token} (isArrow : arrow.kind = .arrow) (hsuffix : arrow :: body <:+ behind) : False := by
    have heq := cons_suffix_inj hmark (hsuffix.trans hbehind)
    rw [heq, isArrow] at hparen
    cases hparen
  cases h with
  | @head before' listed' _ _ opening' split paren' close' _ =>
    have hlisted' : opening' :: listed' <:+ behind := split ▸ List.suffix_append _ _
    have heq := listed_eq hlisted (hlisted'.trans hbehind) paren paren' close close'
    rw [split, ← heq] at hlater
    obtain ⟨more, hmore⟩ := hlater
    rw [← List.cons_append, ← List.append_assoc] at hmore
    rw [← List.append_cancel_right hmore]
    simp
  | arrow _ close' isArrow =>
    obtain ⟨_, -, hsuffix⟩ := splitAtClose_suffix close'
    exact (harrow isArrow ((List.suffix_cons _ _).trans hsuffix)).elim
  | lone _ split isArrow => exact (harrow isArrow (split ▸ List.suffix_refl _)).elim

theorem Announces.not_of_arrow {inside : List Token} {arrow : Token}
    (close : splitAtClose 0 rest = some (inside, arrow :: body)) (isArrow : arrow.kind = .arrow)
    (hlater : u :: behind <:+ rest) : ¬Announces u behind body := by
  intro h
  have hbehind := (List.suffix_cons u behind).trans hlater
  obtain ⟨mark, hparen, hmark⟩ := splitAtClose_suffix close
  have harrow := (List.suffix_cons mark _).trans hmark
  cases h with
  | head split _ close' _ =>
    obtain ⟨mark', hparen', hmark'⟩ := splitAtClose_suffix close'
    have hsuffix := split ▸ (hmark'.trans (List.suffix_cons _ _)).trans (List.suffix_append _ _)
    rw [cons_suffix_inj (hsuffix.trans hbehind) harrow, isArrow] at hparen'
    cases hparen'
  | arrow paren' close' _ =>
    obtain ⟨_, -, hsuffix⟩ := splitAtClose_suffix close'
    have heq := cons_suffix_inj (((List.suffix_cons _ _).trans hsuffix).trans hbehind) harrow
    obtain ⟨before, rfl⟩ := hlater
    exact splitAtClose_ne paren' close (heq ▸ close')
  | lone name split _ =>
    subst split
    rw [cons_suffix_inj hbehind harrow] at hlater
    obtain ⟨text, hkind⟩ := exists_identifier name
    rw [← cons_suffix_inj hmark hlater, hparen] at hkind
    cases hkind

theorem Announces.not_of_lone {arrow : Token} (hlater : u :: behind <:+ arrow :: body) :
    ¬Announces u behind body := by
  intro h
  obtain ⟨mark, hmark, -⟩ := h.exists_mark
  have hle := hmark.length_le
  have hlt := hlater.length_le
  simp only [List.length_cons] at hle hlt
  omega

end

/-! ## What is waited for -/

def keys (walker : Walker) : List Nat := walker.bodies.map Prod.fst

/-- At a place, each announced brace is ahead, and no token ahead can announce it again but names that
are taken as declarations. -/
structure Place.Ready (place : Place) : Prop where
  nodup : place.walker.keys.Nodup
  ahead : ∀ key ∈ place.walker.keys, ∃ brace ∈ place.ahead, brace.kind = .leftBrace ∧ brace.span.start = key
  spent : ∀ t rest brace body, t :: rest <:+ place.ahead → Announces t rest (brace :: body) →
    brace.span.start ∈ place.walker.keys → t.isIdentifier = true ∧ t.span.start ∈ place.walker.declared

section

variable {walker after : Walker} {prev prev' : Option Token} {t : Token} {rest : List Token}

theorem Place.Ready.pass {skip : Nat} (h : Ready ⟨walker, prev, t :: rest⟩) (hbodies : after.bodies = walker.bodies)
    (hdeclared : walker.declared ⊆ after.declared) (ht : t.kind ≠ .leftBrace)
    (hskip : ∀ u ∈ rest.take skip, u.isBrace = false) : Ready ⟨after, prev', rest.drop skip⟩ := by
  have hbrace : ∀ u ∈ t :: rest.take skip, u.kind ≠ .leftBrace := by
    refine List.forall_mem_cons.mpr ⟨ht, fun u hu hkind => ?_⟩
    simpa [Token.isBrace, hkind] using hskip u hu
  have hkeys : after.keys = walker.keys := by rw [keys, hbodies, keys]
  have hsuffix : rest.drop skip <:+ t :: rest := (List.drop_suffix skip rest).trans (List.suffix_cons t rest)
  refine ⟨hkeys ▸ h.nodup, ?_, ?_⟩
  · intro key hkey
    obtain ⟨brace, hmem, hkind, hstart⟩ := h.ahead key (hkeys ▸ hkey)
    refine ⟨brace, ?_, hkind, hstart⟩
    have hmem : brace ∈ (t :: rest.take skip) ++ rest.drop skip := by
      rwa [List.cons_append, List.take_append_drop]
    exact (List.mem_append.mp hmem).resolve_left fun hskipped => hbrace brace hskipped hkind
  · intro u behind brace body hu hannounces hkey
    obtain ⟨hname, hmem⟩ := h.spent u behind brace body (hu.trans hsuffix) hannounces (hkeys ▸ hkey)
    exact ⟨hname, hdeclared hmem⟩

theorem Place.Ready.open (h : Ready ⟨walker, prev, t :: rest⟩) :
    Ready ⟨(walker.openBrace t).walker, prev', rest⟩ := by
  have hsub : (walker.openBrace t).walker.keys.Sublist walker.keys := List.filter_sublist.map Prod.fst
  refine ⟨h.nodup.sublist hsub, ?_, ?_⟩
  · intro key hkey
    obtain ⟨brace, hmem, hkind, rfl⟩ := h.ahead key (hsub.subset hkey)
    refine ⟨brace, (List.mem_cons.mp hmem).resolve_left ?_, hkind, rfl⟩
    rintro rfl
    simp [keys, openBrace] at hkey
  · intro u behind brace body hu hannounces hkey
    exact h.spent u behind brace body (hu.trans (List.suffix_cons t rest)) hannounces (hsub.subset hkey)

theorem suffix_eq_of_start {ts us us' : List Token} {a b : Token} (hts : Token.InOrder ts) (ha : a :: us <:+ ts)
    (hb : b :: us' <:+ ts) (hab : a.span.start = b.span.start) : a :: us = b :: us' := by
  have hnot {ts us : List Token} {a b : Token} (hts : Token.InOrder (b :: ts)) (ha : a :: us <:+ ts)
      (hab : a.span.start = b.span.start) : False := by
    have hlt := (List.pairwise_cons.mp hts.starts_lt).1 a (ha.subset List.mem_cons_self)
    omega
  rcases List.suffix_or_suffix_of_suffix ha hb with h | h
  · rcases List.suffix_cons_iff.mp h with heq | h
    · exact heq
    · exact (hnot (hts.sublist hb.sublist) h hab).elim
  · rcases List.suffix_cons_iff.mp h with heq | h
    · exact heq.symm
    · exact (hnot (hts.sublist ha.sublist) h hab.symm).elim

theorem Place.Ready.announce {body : Body} {tokens : List Token} (h : Ready ⟨walker, prev, rest⟩)
    (hts : Token.InOrder rest) (htokens : tokens <:+ rest)
    (hfresh : ∀ brace more, tokens = brace :: more → brace.span.start ∉ walker.keys)
    (hspent : ∀ u behind, u :: behind <:+ rest → Announces u behind tokens →
      u.isIdentifier = true ∧ u.span.start ∈ walker.declared) :
    Ready ⟨walker.announce body tokens, prev, rest⟩ := by
  cases hstarts : startsWith .leftBrace tokens with
  | false =>
    rw [announce_other walker body hstarts]
    exact h
  | true =>
    obtain ⟨brace, more, rfl, hkind⟩ := startsWith_eq_true hstarts
    rw [announce_brace walker body hkind]
    refine ⟨List.nodup_cons.mpr ⟨hfresh brace more rfl, h.nodup⟩, ?_, ?_⟩
    · intro key hkey
      rcases List.mem_cons.mp hkey with rfl | hkey
      · exact ⟨brace, htokens.subset List.mem_cons_self, hkind, rfl⟩
      · exact h.ahead key hkey
    · intro u behind brace' body' hu hannounces hkey
      rcases List.mem_cons.mp hkey with hstart | hkey
      · obtain ⟨_, hmark, -⟩ := hannounces.exists_mark
        have hbehind := (List.suffix_cons _ _).trans (hmark.trans ((List.suffix_cons u behind).trans hu))
        rw [suffix_eq_of_start hts hbehind htokens hstart] at hannounces
        exact hspent u behind hu hannounces
      · exact h.spent u behind brace' body' hu hannounces hkey

theorem Place.Ready.fresh {tokens : List Token} (h : Ready ⟨walker, prev, t :: rest⟩)
    (hannounces : Announces t rest tokens) (hnot : t.isIdentifier = true → t.span.start ∉ walker.declared) :
    ∀ brace more, tokens = brace :: more → brace.span.start ∉ walker.keys := by
  rintro brace more rfl hkey
  obtain ⟨hname, hdeclared⟩ := h.spent t rest brace more (List.suffix_refl _) hannounces hkey
  exact hnot hname hdeclared

theorem Place.Ready.list {marked : Walker} {lines : LineIndex} {kind : ScopeKind} {opening : Token}
    {inside body : List Token} (h : Ready ⟨walker, prev, t :: rest⟩) (hts : Token.InOrder rest)
    (hbodies : marked.bodies = walker.bodies) (hdeclared : walker.declared ⊆ marked.declared)
    (ht : t.kind ≠ .leftBrace) (hbody : body <:+ rest) (hannounces : Announces t rest body)
    (hnot : t.isIdentifier = true → t.span.start ∉ walker.declared)
    (hspent : ∀ u behind, u :: behind <:+ rest → Announces u behind body →
      u.isIdentifier = true ∧ u.span.start ∈ marked.declared) :
    Ready ⟨marked.list lines kind opening inside body, some t, rest⟩ := by
  have hmark : marked.declared ⊆ (marked.mark (parameters opening 0 inside)).declared := List.subset_append_right _ _
  have hmarked : Ready ⟨marked.mark (parameters opening 0 inside), some t, rest⟩ :=
    @Place.Ready.pass walker _ prev (some t) t rest 0 h hbodies (List.Subset.trans hdeclared hmark) ht (by simp)
  refine hmarked.announce hts hbody ?_ ?_
  · rw [keys, show (marked.mark _).bodies = walker.bodies from hbodies]
    exact h.fresh hannounces hnot
  · intro u behind hlater hagain
    obtain ⟨hname, hmem⟩ := hspent u behind hlater hagain
    exact ⟨hname, hmark hmem⟩

end

section

variable {t : Token} {rest body : List Token}

theorem kind_ne_leftBrace_of_isKeyword (h : t.kind.isKeyword = true) : t.kind ≠ .leftBrace := by
  intro hkind
  rw [hkind] at h
  cases h

theorem kind_ne_leftBrace_of_isIdentifier (h : t.isIdentifier = true) : t.kind ≠ .leftBrace := by
  obtain ⟨text, hkind⟩ := exists_identifier h
  simp [hkind]

theorem kind_ne_leftBrace_of_isPoint (h : t.isPoint = true) : t.kind ≠ .leftBrace := by
  intro hkind
  simp [Token.isPoint, hkind] at h

theorem not_isIdentifier_of_isKeyword (h : t.kind.isKeyword = true) : t.isIdentifier ≠ true := by
  intro hname
  obtain ⟨text, hkind⟩ := exists_identifier hname
  rw [hkind] at h
  cases h

theorem Announces.kind_ne_operator (h : Announces t rest body) : t.kind ≠ .operator := by
  intro hkind
  cases h with
  | head _ _ _ word => simp [hkind, Kind.isKeyword, Token.isIdentifier, Kind.isIdentifier] at word
  | arrow paren => simp [hkind] at paren
  | lone name => simp [hkind, Token.isIdentifier, Kind.isIdentifier] at name

theorem isIdentifier_of_mem_bareNames {prev : Option Token} (h : t ∈ bareNames prev rest) :
    t.isIdentifier = true := by
  obtain ⟨_, _, -, hname, -⟩ := mem_bareNames_iff.mp h
  exact hname

end

theorem Turn.ready {walker : Walker} {lines : LineIndex} {prev : Option Token} {t : Token} {rest : List Token}
    {step : Step} {settled : List (Token × Option Fate)} (h : Turn walker lines prev t rest step settled)
    (hts : Token.InOrder (t :: rest)) (hready : Place.Ready ⟨walker, prev, t :: rest⟩) :
    (step.place t rest).Ready := by
  have hrest := hts.sublist (List.sublist_cons_self t rest)
  have hskipped := h.isBrace_of_mem_skipped
  -- The steps that take a list wait for its body, the others leave what is waited for as it is.
  cases h with
  | opens => exact hready.open
  | @closes depth brace =>
    exact hready.pass rfl (List.Subset.refl _) (by simp [brace]) hskipped
  | skipsProperty point =>
    exact hready.pass rfl (List.Subset.refl _) (kind_ne_leftBrace_of_isPoint point) hskipped
  | passes brace => exact hready.pass rfl (List.Subset.refl _) brace hskipped
  | @declares found kind word =>
    exact hready.pass rfl (List.subset_append_right _ _) (kind_ne_leftBrace_of_isKeyword word) hskipped
  | @heads name before listed inside after opening kind head _ split paren close bare only =>
    have word := isKeyword_of_head head
    obtain ⟨_, -, hsuffix⟩ := splitAtClose_suffix close
    have hlisted : listed <:+ rest := split ▸ (List.suffix_cons opening listed).trans (List.suffix_append _ _)
    refine @Place.Ready.list walker prev t rest (walker.mark name) lines kind opening inside after hready hrest rfl
      (List.subset_append_right _ _)
      (kind_ne_leftBrace_of_isKeyword word) (((List.suffix_cons _ _).trans hsuffix).trans hlisted)
      (.head split paren close (.inl word)) (fun hname => absurd hname (not_isIdentifier_of_isKeyword word)) ?_
    intro u behind hlater hagain
    -- Only the name of the function stands there, and it is taken as declared by now.
    have hu := (only u (hagain.mem_before paren close (split ▸ hlater))).resolve_left hagain.kind_ne_operator
    exact ⟨isIdentifier_of_mem_bareNames (bare.subset hu), mem_declared_mark.mpr (.inl ⟨u, hu, rfl⟩)⟩
  | @method listed inside after opening name free split paren close head =>
    obtain ⟨_, -, hsuffix⟩ := splitAtClose_suffix close
    have hlisted : listed <:+ rest := split ▸ List.suffix_cons opening listed
    refine hready.list hrest rfl (List.Subset.refl _)
      (kind_ne_leftBrace_of_isIdentifier name) (((List.suffix_cons _ _).trans hsuffix).trans hlisted)
      (@Announces.head t rest [] listed inside after opening split paren close (.inr name)) (fun _ => free) ?_
    intro u behind hlater hagain
    have hmem : u ∈ [] := hagain.mem_before paren close (split ▸ hlater)
    cases hmem
  | @arrow inside after arrow paren close isArrow =>
    obtain ⟨_, -, hsuffix⟩ := splitAtClose_suffix close
    refine hready.list hrest rfl (List.Subset.refl _) (by simp [paren])
      ((List.suffix_cons _ _).trans ((List.suffix_cons _ _).trans hsuffix)) (.arrow paren close isArrow) ?_ ?_
    · intro hname
      simp [Token.isIdentifier, Kind.isIdentifier, paren] at hname
    · intro u behind hlater hagain
      exact absurd hagain (Announces.not_of_arrow close isArrow hlater)
  | @lone after arrow name free split isArrow =>
    have hpassed : Place.Ready ⟨walker, some t, rest⟩ :=
      @Place.Ready.pass walker _ prev (some t) t rest 0 hready rfl (List.Subset.refl _)
        (kind_ne_leftBrace_of_isIdentifier name) (by simp)
    refine hpassed.announce hrest (split ▸ List.suffix_cons arrow after)
      (hready.fresh (.lone name split isArrow) fun _ => free) ?_
    intro u behind hlater hagain
    exact absurd hagain (Announces.not_of_lone (split ▸ hlater))
  | key name | reads name =>
    exact hready.pass rfl (List.Subset.refl _) (kind_ne_leftBrace_of_isIdentifier name) hskipped

end Nodeless.Walker
