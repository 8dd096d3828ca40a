import Nodeless.Proofs.Event.Reported
import Nodeless.Proofs.Token.Run

/-!
# The places that a walk comes to

A walk jumps over points and properties only: it comes to every other token, and what its step there
reports is part of all events. What is announced for a brace is kept until the walk comes to it.
-/

namespace Nodeless

/-- The tokens that the walk sees. -/
def Token.walked (source : String) : List Token := (Token.ofSource source).filter fun t => t.kind ≠ .eof

theorem Token.exists_walked (source : String) :
    ∃ last, last.kind = .eof ∧ ofSource source = walked source ++ [last] ∧
      ∀ t ∈ walked source, t.kind ≠ .eof := by
  obtain ⟨ts, place, hrun, heof⟩ := Lexer.exists_run_to_eof (Lexer.ofChars source.toList)
  have hts := hrun.kind_ne_eof
  have htokens : ofSource source = ts ++ [place.next.1] := by rw [ofSource, hrun.tokens_eq, Lexer.tokens_of_eof heof]
  have hwalked : walked source = ts := by
    rw [walked, htokens, List.filter_append, List.filter_eq_self.mpr fun t ht => decide_eq_true (hts t ht)]
    simp [heof]
  exact ⟨place.next.1, heof, by rw [hwalked, htokens], by rwa [hwalked]⟩

namespace Walker

/-! ## Skipped tokens -/

theorem skipped_members {ts before after : List Token} {t u : Token} (ht : t.isName = true)
    (h : ts.take (2 * (members ts).length) = before ++ u :: after) :
    u.isPoint = true ∨ (before.getLastD t).isPoint = true ∧ u.isName = true := by
  fun_induction members ts generalizing t before with
  | case1 point v ts hmember ih =>
    rw [Bool.and_eq_true, decide_eq_true_eq] at hmember
    have hpoint : point.isPoint = true := by simp [Token.isPoint, hmember.1]
    rw [List.length_cons, Nat.mul_add, show 2 * (members ts).length + 2 * 1 = 2 * (members ts).length + 1 + 1 from rfl,
      List.take_succ_cons, List.take_succ_cons] at h
    rcases before with _ | ⟨a, _ | ⟨b, before⟩⟩
    · rw [List.nil_append, List.cons.injEq] at h
      exact .inl (h.1 ▸ hpoint)
    · rw [List.singleton_append, List.cons.injEq, List.cons.injEq] at h
      exact .inr ⟨h.1 ▸ hpoint, h.2.1 ▸ hmember.2⟩
    · rw [List.cons_append, List.cons_append, List.cons.injEq, List.cons.injEq] at h
      rw [List.getLastD_cons, List.getLastD_cons, ← h.2.1]
      exact ih hmember.2 h.2.2
  | case2 => simp at h
  | case3 => simp at h

section

variable {walker : Walker} {lines : LineIndex} {prev : Option Token} {t u : Token} {rest before after : List Token}
  {step : Step} {settled : List (Token × Option Fate)}

theorem Turn.skipped (h : Turn walker lines prev t rest step settled)
    (hsplit : rest.take step.skip = before ++ u :: after) :
    u.isPoint = true ∨ (before.getLastD t).isPoint = true ∧ u.isName = true := by
  have hnone {step : Step} (hskip : step.skip = 0) (hsplit : rest.take step.skip = before ++ u :: after) : False := by
    simp [hskip] at hsplit
  cases h with
  | skipsProperty point property =>
    cases rest with
    | nil => cases property
    | cons v rest =>
      cases before with
      | nil => exact .inr ⟨point, (List.cons.inj hsplit).1 ▸ property⟩
      | cons a before => simp at hsplit
  | reads name => exact skipped_members (isName_of_isIdentifier name) hsplit
  | _ => exact (hnone rfl hsplit).elim

/-! ## Reached tokens -/

variable {lines : LineIndex} {a b : Place} {events : List Event}

/-- A walk comes to every token but points and names behind points. -/
theorem Run.exists_reaches (h : Run lines a settled events) (hahead : a.ahead = before ++ t :: rest)
    (hpoint : t.isPoint = false) (hname : before.getLast?.any Token.isPoint = true → t.isName = false) :
    ∃ walker, a.Reaches lines ⟨walker, before.getLast?.or a.prev, t :: rest⟩ := by
  induction h generalizing before with
  | done => simp at hahead
  | @turn walker prev u us step settled events hstep _ ih =>
    cases before with
    | nil =>
      obtain ⟨rfl, rfl⟩ := List.cons.inj hahead
      exact ⟨walker, .refl⟩
    | cons v before =>
      rw [List.cons_append, List.cons.injEq] at hahead
      obtain ⟨rfl, rfl⟩ := hahead
      have hturn := turn_of_step hstep
      -- The token is not among those that the step skips.
      have hle : step.skip ≤ before.length := by
        by_contra hlt
        have htake : (before ++ t :: rest).take step.skip =
            before ++ t :: rest.take (step.skip - before.length - 1) := by
          rw [List.take_append, List.take_of_length_le (by omega), show step.skip - before.length =
            step.skip - before.length - 1 + 1 by omega, List.take_succ_cons, Nat.add_sub_cancel]
        rcases hturn.skipped htake with hskipped | ⟨hlast, hskipped⟩
        · rw [hpoint] at hskipped
          cases hskipped
        · have hbehind : (u :: before).getLast?.any Token.isPoint = true := by
            rw [List.getLast?_cons, List.getLastD_eq_getLast?] at *
            exact hlast
          rw [hname hbehind] at hskipped
          cases hskipped
      obtain ⟨walker', hreach⟩ := @ih (before.drop step.skip)
        (by rw [Step.place, List.drop_append_of_le_length hle]) fun hlast => hname (by
          cases hdrop : before.drop step.skip with
          | nil => simp [hdrop] at hlast
          | cons w ws =>
            have hsuffix : before.drop step.skip <:+ u :: before := (List.drop_suffix _ _).trans (List.suffix_cons _ _)
            obtain ⟨front, hfront⟩ := hsuffix
            rw [← hfront, List.getLast?_append, hdrop]
            rw [hdrop] at hlast
            simpa [List.getLast?_cons] using hlast)
      have hsteps : Place.Reaches lines ⟨walker, prev, u :: (before ++ t :: rest)⟩ _ :=
        hreach.head ⟨u, before ++ t :: rest, step, rfl, hstep, rfl⟩
      obtain ⟨front, hfront, hprev⟩ := Place.Reaches.exists_before hsteps
      refine ⟨walker', ?_⟩
      dsimp only at hfront hprev
      rw [← List.cons_append] at hfront
      rw [List.append_cancel_right hfront, ← hprev]
      exact hsteps

theorem Place.Reaches.sound (h : a.Reaches lines b) (hsound : a.Sound) : b.Sound := by
  induction h with
  | refl => exact hsound
  | @tail b c _ hsteps ih =>
    obtain ⟨t, rest, step, hahead, hstep, rfl⟩ := hsteps
    obtain ⟨walker, prev, ahead⟩ := b
    subst hahead
    exact (turn_of_step hstep).sound ih

theorem Run.of_reaches (hreach : a.Reaches lines b) (h : Run lines a settled events) :
    ∃ front more settled', events = front ++ more ∧ Run lines b settled' more := by
  induction hreach using Relation.ReflTransGen.head_induction_on generalizing settled events with
  | refl => exact ⟨[], events, settled, rfl, h⟩
  | head hsteps _ ih =>
    obtain ⟨u, us, step, hahead, hstep, rfl⟩ := hsteps
    cases h with
    | done => cases hahead
    | turn hstep' hrun =>
      cases hahead
      rw [hstep'] at hstep
      cases hstep
      obtain ⟨front, more, settled', rfl, hmore⟩ := ih hrun
      exact ⟨_, more, settled', (List.append_assoc _ _ _).symm, hmore⟩

theorem Run.exists_step (h : Run lines a settled events) (hreach : a.Reaches lines ⟨walker, prev, t :: rest⟩) :
    ∃ step, walker.step lines prev t rest = .ok step ∧ step.events <:+: events := by
  obtain ⟨front, more, settled', rfl, hrun⟩ := h.of_reaches hreach
  cases hrun with
  | turn hstep => exact ⟨_, hstep, front, _, List.append_assoc _ _ _⟩

theorem Place.steps_rightUnique (lines : LineIndex) : Relator.RightUnique (Place.Steps lines) := by
  rintro a b c ⟨u, us, step, hahead, hstep, rfl⟩ ⟨u', us', step', hahead', hstep', rfl⟩
  obtain ⟨rfl, rfl⟩ := List.cons.inj (hahead.symm.trans hahead')
  rw [hstep] at hstep'
  cases hstep'
  rfl

theorem Place.Reaches.eq_of_ahead {c : Place} (hb : a.Reaches lines b) (hc : a.Reaches lines c)
    (h : b.ahead = c.ahead) : b = c := by
  have hforward {b c : Place} (hreach : b.Reaches lines c) (h : b.ahead = c.ahead) : b = c := by
    rcases hreach.cases_head with heq | ⟨d, ⟨u, us, step, hahead, -, rfl⟩, hmore⟩
    · exact heq
    · -- The step leaves fewer tokens ahead than there were.
      obtain ⟨front, hfront, -⟩ := Place.Reaches.exists_before hmore
      have hlength := congrArg List.length hfront
      rw [← h, hahead] at hlength
      simp only [Step.place, List.length_drop, List.length_append, List.length_cons] at hlength
      omega
  rcases Relation.ReflTransGen.total_of_right_unique (Place.steps_rightUnique lines) hb hc with hreach | hreach
  · exact hforward hreach h
  · exact (hforward hreach h.symm).symm

/-! ## Announced bodies that are kept -/

theorem mem_bodies_announce {body : Body} {entry : Nat × Body} (ts : List Token) (h : entry ∈ walker.bodies) :
    entry ∈ (walker.announce body ts).bodies := by
  unfold announce
  split
  · split
    · exact List.mem_cons_of_mem _ h
    · exact h
  · exact h

theorem Turn.mem_bodies {entry : Nat × Body} (h : Turn walker lines prev t rest step settled)
    (hne : t.span.start ≠ entry.1) (hmem : entry ∈ walker.bodies) : entry ∈ step.walker.bodies := by
  cases h with
  | opens => exact List.mem_filter.mpr ⟨hmem, decide_eq_true hne.symm⟩
  | heads | method | arrow => exact mem_bodies_announce _ hmem
  | lone => exact mem_bodies_announce _ hmem
  | _ => exact hmem

theorem Place.Reaches.mem_bodies {entry : Nat × Body} (hreach : a.Reaches lines b) (hts : Token.InOrder a.ahead)
    (hahead : b.ahead = t :: rest) (hstart : t.span.start = entry.1) (hmem : entry ∈ a.walker.bodies) :
    entry ∈ b.walker.bodies := by
  induction hreach using Relation.ReflTransGen.head_induction_on with
  | refl => exact hmem
  | @head a c hsteps hreach ih =>
    obtain ⟨u, us, step, hat, hstep, rfl⟩ := hsteps
    obtain ⟨front, hfront, -⟩ := Place.Reaches.exists_before hreach
    rw [hahead] at hfront
    rw [hat] at hts
    have htmem : t ∈ (step.place u us).ahead := by simp [hfront]
    have htmem : t ∈ us := List.mem_of_mem_drop htmem
    have hlt := (List.pairwise_cons.mp hts.starts_lt).1 t htmem
    exact ih (hts.sublist ((List.drop_sublist _ _).trans (List.sublist_cons_self u us)))
      ((turn_of_step hstep).mem_bodies (by omega) hmem)

theorem lookup_eq_some {bodies : List (Nat × Body)} (h : (bodies.map Prod.fst).Nodup) {entry : Nat × Body}
    (hmem : entry ∈ bodies) : bodies.lookup entry.1 = some entry.2 := by
  induction bodies with
  | nil => cases hmem
  | cons b bodies ih =>
    obtain ⟨hfresh, hnodup⟩ := List.nodup_cons.mp h
    rcases List.mem_cons.mp hmem with rfl | hmem
    · exact List.lookup_cons_self
    · have hne : entry.1 ≠ b.1 := fun heq => hfresh (heq ▸ List.mem_map_of_mem hmem)
      rw [List.lookup_cons, beq_eq_false_iff_ne.mpr hne]
      exact ih hnodup hmem

theorem Place.Reaches.openBrace_events {body : Body} (hreach : a.Reaches lines ⟨walker, prev, t :: rest⟩)
    (hsound : a.Sound) (hmem : (t.span.start, body) ∈ a.walker.bodies) :
    (walker.openBrace t).events = .enter t.span body.kind :: body.parameters.map (.declare · .lexical) := by
  have hkept := hreach.mem_bodies hsound.inOrder rfl rfl hmem
  have hlookup := lookup_eq_some (hreach.sound hsound).ready.nodup hkept
  simp only [openBrace, hlookup, Option.elim_some]

end

end Walker

namespace Event

theorem ofSource_eq_ok_iff {source : String} {events : List Event} : ofSource source = .ok events ↔
    (∀ t ∈ Token.walked source, t.kind ≠ .invalid) ∧
      Walker.events (LineIndex.ofChars source.toList) {} none (Token.walked source) = .ok events := by
  obtain ⟨last, hlast, htokens, -⟩ := Token.exists_walked source
  have hvalid : (Token.ofSource source).find? (fun t => t.kind = .invalid) = none ↔
      ∀ t ∈ Token.walked source, t.kind ≠ .invalid := by
    simp [htokens, hlast]
  rw [← hvalid, ofSource]
  split
  · rename_i hfound
    simp [hfound]
  · rename_i hnone
    simp [hnone, Token.walked]

theorem exists_run {source : String} {events : List Event} (h : ofSource source = .ok events) :
    Token.InOrder (Token.walked source) ∧
      ∃ settled, Walker.Run (LineIndex.ofChars source.toList) ⟨{}, none, Token.walked source⟩ settled events := by
  unfold ofSource at h
  dsimp only at h
  split at h
  · cases h
  · rename_i hvalid
    exact ⟨Token.inOrder_ofSource source hvalid, Walker.exists_run h⟩

end Event

end Nodeless
