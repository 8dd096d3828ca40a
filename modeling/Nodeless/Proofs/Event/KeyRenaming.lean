import Nodeless.Proofs.Event.Keys

/-!
# Names in the place of keyword keys

Which events a source has with a name in the place of a keyword that is a key: the same, unless a
declaration list comes to the key, or the keyword itself declares names behind it.
-/

namespace Nodeless

namespace Token

variable {source name : String} {front rest : List Token} {key : Token} {k : Keyword}

theorem walked_renamed (tokens : walked source = front ++ key :: rest) (isWord : key.kind = .keyword k)
    (hcolon : Walker.startsWith .colon rest = true) (isName : IsIdentifier name)
    (length : Source.byteLength name.toList = key.span.length) :
    walked (Patch.render source [⟨key.span, name⟩]) = front ++ key.renamed name :: rest := by
  obtain ⟨colon, after, rfl, hkind⟩ := Walker.startsWith_eq_true hcolon
  obtain ⟨last, hlast, htokens, hkinds⟩ := exists_walked source
  rw [tokens, List.append_assoc, List.cons_append, List.cons_append] at htokens
  rw [tokens] at hkinds
  have hfront : ∀ t ∈ front, t.kind ≠ .eof := fun t ht => hkinds t (List.mem_append_left _ ht)
  have hafter : ∀ t ∈ after, t.kind ≠ .eof := fun t ht => hkinds t (by simp [ht])
  rw [walked, ofSource_renamed_key htokens isWord hkind isName length, List.filter_append,
    List.filter_eq_self.mpr fun t ht => decide_eq_true (hfront t ht), List.filter_cons_of_pos (by simp [renamed]),
    List.filter_cons_of_pos (by simp [hkind]), List.filter_append,
    List.filter_eq_self.mpr fun t ht => decide_eq_true (hafter t ht), List.filter_cons_of_neg (by simp [hlast]),
    List.filter_nil, List.append_nil]

theorem map_swap (hnodup : (front ++ key :: rest).Nodup) :
    (front ++ key :: rest).map (key.swap name) = front ++ key.renamed name :: rest := by
  obtain ⟨-, hrest, hapart⟩ := List.nodup_append.mp hnodup
  rw [List.map_append, List.map_cons, swap_self, map_swap_of_not_mem (List.nodup_cons.mp hrest).1,
    map_swap_of_not_mem fun hmem => hapart key hmem key List.mem_cons_self rfl]

theorem isChain_beside (hnodup : (front ++ key :: rest).Nodup) (h : Walker.isKey front.getLast? rest = true) :
    List.IsChain (Beside key) (front ++ key :: rest) := by
  obtain ⟨-, hrest, hapart⟩ := List.nodup_append.mp hnodup
  have hbehind : key ∉ rest := (List.nodup_cons.mp hrest).1
  have hbefore : key ∉ front := fun hmem => hapart key hmem key List.mem_cons_self rfl
  have hclear {ts : List Token} (hts : key ∉ ts) : List.IsChain (Beside key) ts :=
    (List.pairwise_of_forall_mem_list fun a ha b hb =>
      ⟨fun heq => absurd (heq ▸ hb) hts, fun heq => absurd (heq ▸ ha) hts⟩).isChain
  rw [Walker.isKey, Bool.and_eq_true] at h
  refine (hclear hbefore).append (List.isChain_cons.mpr ⟨fun u hu => ?_, hclear hbehind⟩) fun p hp t ht => ?_
  · obtain ⟨colon, us, rfl, hkind⟩ := Walker.startsWith_eq_true h.2
    obtain rfl := Option.some.inj hu
    exact ⟨fun heq => absurd (heq ▸ List.mem_cons_self) hbehind, fun _ => hkind⟩
  · obtain rfl := Option.some.inj ht
    have hopens := h.1
    rw [show front.getLast? = some p from hp] at hopens
    refine ⟨fun _ => by simpa using hopens, fun heq => ?_⟩
    exact absurd (heq ▸ List.mem_of_getLast? hp) hbefore

end Token

namespace Walker

section

variable {lines : LineIndex} {ts front between rest : List Token} {prev : Option Token} {word t : Token}
  {settled : List (Token × Option Fate)} {events : List Event} {kind : DeclarationKind}

theorem Turn.eq_of_key {walker : Walker} {u : Token} {step : Step} (h : Turn walker lines prev u rest step settled)
    (hmem : (t, some .key) ∈ settled) : t = u := by
  have hlist {marked : Walker} {opening : Token} {inside after : List Token} {fate : Fate} (hfate : fate ≠ .key) :
      (t, some .key) ∉ marked.settlesList opening inside after fate := fun hmem =>
    hfate (mem_settlesList_iff.mp hmem).2.2.symm
  cases h with
  | opens | closes | skipsProperty | passes => cases hmem
  | declares => exact absurd hmem not_mem_reported
  | heads =>
    exact absurd ((List.mem_append.mp hmem).resolve_left not_mem_reported) (hlist (by simp))
  | method =>
    rcases List.mem_cons.mp hmem with heq | hmem
    · cases heq
    · exact absurd hmem (hlist (by simp))
  | arrow => exact absurd hmem (hlist (by simp))
  | lone | key | reads => exact (Prod.mk.inj (List.mem_singleton.mp hmem)).1

/-- A declaration list that comes to a name where a key would stand declares it, unless another list has
done so before. -/
theorem Run.mem_settled_of_awaits (hrun : Run lines ⟨{}, none, ts⟩ settled events) (hts : Token.InOrder ts)
    (tokens : ts = front ++ word :: (between ++ t :: rest)) (isWord : word.kind.declares? = some kind)
    (bare : front.getLast?.any Token.isPoint = false) (awaits : Awaits word between) (name : t.isIdentifier = true)
    (stands : Token.Stands ts prev t rest) (key : isKey prev rest = true) : (t, none) ∈ settled := by
  have hname : word.isName = true := isName_of_isKeyword (isKeyword_of_declares isWord)
  obtain ⟨walker, hreach⟩ := hrun.exists_reaches tokens (isPoint_of_isName hname) fun hpoint => by
    rw [bare] at hpoint
    cases hpoint
  by_cases hdeclared : t.span.start ∈ walker.declared
  · obtain ⟨earlier, before, u, us, step, hearlier, hstep, hback, ⟨p, fate⟩, hentry, hstart⟩ :=
      (hreach.exists_settles hdeclared).resolve_left List.not_mem_nil
    have hmem := Run.mem_settled hearlier hrun rfl _ hentry
    obtain rfl : p = t := hts.eq_of_start (hrun.mem_tokens hts hmem) stands.mem hstart
    cases fate with
    | none => exact hmem
    | some fate =>
      -- The tokens around the name leave it the fate of a key, and its own step comes behind the word.
      have hfate := (hrun.meets_of_mem hts stands hmem).2 _ (fateAround_of_key key)
      subst hfate
      obtain rfl := (turn_of_step hstep).eq_of_key hentry
      obtain ⟨gap, hgap, -⟩ := Place.Reaches.exists_before hearlier
      obtain ⟨gap', hgap', -⟩ := Place.Reaches.exists_before hback
      have hnodup := hts.nodup
      rw [show ts = gap ++ p :: us from hgap] at hnodup
      have hlater : p ∈ us.drop step.skip := by
        rw [show us.drop step.skip = gap' ++ _ from hgap']
        simp
      exact absurd (List.mem_of_mem_drop hlater) (List.nodup_cons.mp (List.nodup_append.mp hnodup).2.1).1
  · refine Run.mem_settled hreach hrun rfl _ ?_
    have hsettles : walker.settles (front.getLast?.or none) word (between ++ t :: rest) =
        reported (walker.undeclared (declarators word 0 true (between ++ t :: rest))) := by
      unfold Kind.declares? at isWord
      split at isWord
      case h_4 => cases isWord
      all_goals
        rename_i hkind
        rw [settles, hkind]
    dsimp only
    rw [hsettles]
    refine List.mem_map.mpr ⟨t, mem_undeclared_iff.mpr ⟨?_, hdeclared⟩, rfl⟩
    exact (mem_declarators_iff fun _ => quiet_of_declares isWord).mpr ⟨between, rest, rfl, name, awaits⟩

end

end Walker

namespace Event

theorem declaredNames_relocate (lines : LineIndex) (events : List Event) :
    declaredNames (events.map (relocate lines)) = (declaredNames events).map (Name.relocate lines) := by
  rw [declaredNames, List.filterMap_map, declaredNames, List.map_filterMap]
  refine congrArg (List.filterMap · events) (funext fun event => ?_)
  cases event <;> rfl

open Walker (Place Run startsWith isKey)

section

variable {name : String} {events : List Event} {front rest tokens : List Token} {key : Token} {k : Keyword}
  {walker : Walker} {settled : List (Token × Option Fate)} {lines other : LineIndex}

/-- No declaration list in front of the key comes to it. -/
def Unlisted (front : List Token) : Prop :=
  ∀ earlier word between kind, front = earlier ++ word :: between → word.kind.declares? = some kind →
    earlier.getLast?.any Token.isPoint = false → ¬Walker.Awaits word between

/-- Where the step at the key does nothing and no list comes to it, the walk over the renamed tokens goes
along with the one over those of the source. -/
theorem events_renamed (hrun : Run lines ⟨{}, none, tokens⟩ settled events) (hts : Token.InOrder tokens)
    (split : tokens = front ++ key :: rest) (isWord : key.kind = .keyword k) (hkey : isKey front.getLast? rest = true)
    (reach : Place.Reaches lines ⟨{}, none, tokens⟩ ⟨walker, front.getLast?, key :: rest⟩)
    (silent : walker.step lines front.getLast? key rest = .ok ⟨walker, [], 0⟩) (unlisted : Unlisted front) :
    Walker.events other {} none (tokens.map (key.swap name)) = .ok (events.map (relocate other)) := by
  have hchain := Token.isChain_beside (split ▸ hts.nodup) hkey
  have hfront : Token.Stands tokens front.getLast? key rest := ⟨front, split, rfl⟩
  refine hrun.events_map other (key.swap name) fun walker' prev t us step hreach hstep => ?_
  obtain ⟨before, hbefore, hprev⟩ := Place.Reaches.exists_before hreach
  rw [Option.or_none] at hprev
  dsimp only at hbefore hprev
  by_cases ht : t = key
  · subst ht
    obtain ⟨rfl, rfl⟩ := Token.Stands.unique ⟨before, hbefore, hprev⟩ hfront hts
    obtain ⟨rfl, -⟩ := Place.mk.inj (reach.eq_of_ahead hreach rfl)
    rw [silent] at hstep
    cases hstep
    rw [Token.swap_self, Walker.step_of_isKey rfl (by rwa [Walker.isKey_map_swap isWord])]
    rfl
  · rw [← split, hbefore] at hchain
    refine (Walker.step_map_swap isWord hchain.right_of_append ?_ ht ?_).trans (Walker.step_relocate other hstep)
    · rintro p rfl
      exact (List.isChain_append.mp hchain).2.2 p hprev.symm t rfl
    · rintro kind hkind between after rfl
      have hleft : tokens = (before ++ t :: between) ++ key :: after := by
        rw [hbefore, List.append_assoc, List.cons_append]
      obtain ⟨-, rfl⟩ := Token.Stands.unique ⟨_, hleft, rfl⟩ hfront hts
      rw [split] at hleft
      refine unlisted before t between kind (List.append_cancel_right hleft) hkind ?_
      -- The walk does not come to a word behind a point.
      refine Bool.eq_false_iff.mpr fun hpoint => ?_
      have hproperty := (hreach.sound (Walker.Place.sound_start hts)).property (by rwa [hprev])
      have hname : t.isName = true := Walker.isName_of_isKeyword (Walker.isKeyword_of_declares hkind)
      rw [List.head?_cons, Option.any_some, hname] at hproperty
      cases hproperty

theorem unlisted_of_renamed {renamed : List Token} {settled' : List (Token × Option Fate)}
    (hrun : Run lines ⟨{}, none, tokens⟩ settled events) (hts : Token.InOrder tokens)
    (hrun' : Run other ⟨{}, none, renamed⟩ settled' (events.map (relocate other))) (hts' : Token.InOrder renamed)
    (split : tokens = front ++ key :: rest) (split' : renamed = front ++ key.renamed name :: rest)
    (isWord : key.kind = .keyword k) (hkey : isKey front.getLast? rest = true) : Unlisted front := by
  rintro earlier word between kind rfl hkind bare hawaits
  rw [List.append_assoc, List.cons_append] at split'
  have hsettled := hrun'.mem_settled_of_awaits hts' split' hkind bare hawaits rfl
    ⟨earlier ++ word :: between, by rw [split', List.append_assoc, List.cons_append], rfl⟩ hkey
  have hname : Walker.nameOf other (key.renamed name) ∈ declaredNames (events.map (relocate other)) := by
    have hreports := (hrun'.accounts (Walker.Place.sound_start hts')).reports
    exact hreports.mem_iff.mpr (List.mem_map.mpr ⟨_, List.mem_filter.mpr ⟨hsettled, rfl⟩, rfl⟩)
  rw [declaredNames_relocate] at hname
  obtain ⟨named, hnamed, heq⟩ := List.mem_map.mp hname
  obtain ⟨t, ht, hidentifier, rfl⟩ := hrun.exists_token hts (List.mem_append_left _ hnamed)
  have hspan : t.span = key.span := congrArg Name.span heq
  have hmem : key ∈ tokens := by simp [split]
  obtain rfl := (hts.span_eq_iff ht hmem).mp hspan
  simp [Token.isIdentifier, isWord, Kind.isIdentifier] at hidentifier

end

/-- A name in the place of a keyword that is a key. The key declares nothing and the events are those of
the source, but for the columns that a wider or narrower name moves, exactly if the keyword reads no name
behind the key that is not declared already, and no declaration list in front of the key comes to it. -/
theorem key_renamed_iff {source name : String} {events : List Event} (h : ofSource source = .ok events)
    {front rest : List Token} {key : Token} {k : Keyword} (tokens : Token.walked source = front ++ key :: rest)
    (isWord : key.kind = .keyword k) (hkey : isKey front.getLast? rest = true) (isName : IsIdentifier name)
    (length : Source.byteLength name.toList = key.span.length) :
    let lines := LineIndex.ofChars source.toList
    let renamed := Patch.render source [⟨key.span, name⟩]
    let moved := events.map (relocate (LineIndex.ofChars renamed.toList))
    (∃ walker step,
      Place.Reaches lines ⟨{}, none, Token.walked source⟩ ⟨walker, front.getLast?, key :: rest⟩ ∧
      walker.step lines front.getLast? key rest = .ok step ∧ step.events <:+: events ∧
      (step.events = [] ∧ ofSource renamed = .ok moved ↔
        (∀ kind before t after, key.kind.declares? = some kind → rest = before ++ t :: after →
          t.isIdentifier = true → Walker.Awaits key before → t.span.start ∈ walker.declared) ∧
            Unlisted front)) ∧
      (name.length = key.span.length → moved = events) := by
  intro lines renamed moved
  obtain ⟨hts, settled, hrun⟩ := exists_run h
  obtain ⟨hvalid, -⟩ := ofSource_eq_ok_iff.mp h
  have hcolon : startsWith .colon rest = true := (Bool.and_eq_true _ _ ▸ hkey).2
  have hwalked := Token.walked_renamed tokens isWord hcolon isName length
  have hname : key.isName = true := Walker.isName_of_isKeyword (by rw [isWord]; rfl)
  refine ⟨?_, fun hnarrow => ?_⟩
  · obtain ⟨walker, hreach⟩ := hrun.exists_reaches tokens (Walker.isPoint_of_isName hname)
      fun hpoint => absurd hpoint (by simp [Walker.not_isPoint_of_isKey hkey])
    rw [Option.or_none] at hreach
    obtain ⟨step, hstep, hpart⟩ := hrun.exists_step hreach
    obtain ⟨_, hstep', hsilent, hnone⟩ :=
      @Walker.exists_step_of_keyword walker lines front.getLast? key rest k isWord hcolon
    rw [hstep] at hstep'
    cases hstep'
    refine ⟨walker, step, hreach, hstep, hpart, ?_⟩
    have hreads : step.events = [] ↔ ∀ kind before t after, key.kind.declares? = some kind →
        rest = before ++ t :: after → t.isIdentifier = true → Walker.Awaits key before →
          t.span.start ∈ walker.declared := by
      rw [hnone]
      refine ⟨fun hfound kind before t after hkind hsplit hname hawaits => ?_, fun hfound kind hkind t ht => ?_⟩
      · refine hfound kind hkind t ((Walker.mem_declarators_iff fun _ => Walker.quiet_of_declares hkind).mpr ?_)
        exact ⟨before, after, hsplit, hname, hawaits⟩
      · obtain ⟨before, after, hsplit, hname, hawaits⟩ :=
          (Walker.mem_declarators_iff fun _ => Walker.quiet_of_declares hkind).mp ht
        exact hfound kind before t after hkind hsplit hname hawaits
    rw [hreads]
    refine and_congr_right fun hdeclared => ⟨fun hmoved => ?_, fun hunlisted => ?_⟩
    · obtain ⟨hts', settled', hrun'⟩ := exists_run hmoved
      exact unlisted_of_renamed hrun hts hrun' hts' tokens hwalked isWord hkey
    · rw [hsilent (hreads.mpr hdeclared)] at hstep
      have hevents := @events_renamed name events front rest _ key k walker settled lines
        (LineIndex.ofChars renamed.toList) hrun hts tokens isWord hkey hreach hstep hunlisted
      rw [tokens, Token.map_swap (tokens ▸ hts.nodup), ← hwalked] at hevents
      refine ofSource_eq_ok_iff.mpr ⟨fun t ht => ?_, hevents⟩
      rw [hwalked, List.mem_append, List.mem_cons] at ht
      rcases ht with ht | rfl | ht
      · exact hvalid t (by simp [tokens, ht])
      · simp [Token.renamed]
      · exact hvalid t (by simp [tokens, ht])
  · obtain ⟨last, -, htokens, -⟩ := Token.exists_walked source
    rw [tokens, List.append_assoc, List.cons_append] at htokens
    have halike := Token.alike_renamed htokens isWord isName length hnarrow
    have hlines := relocate_congr fun span => LineIndex.location_of_alike halike span
    exact (congrArg (events.map ·) hlines.symm).trans (map_relocate_self h)

theorem isIdentifier_foo : IsIdentifier "foo" := by decide

theorem key_renamed_var :
    let source := "x = \x7ba, var: b\x7d"
    let lines := LineIndex.ofChars source.toList
    let x : Token := ⟨.identifier "x", "x", ⟨0, 1⟩, false⟩
    let a : Token := ⟨.identifier "a", "a", ⟨5, 6⟩, false⟩
    let b : Token := ⟨.identifier "b", "b", ⟨13, 14⟩, false⟩
    let key : Token := ⟨.keyword .var, "var", ⟨8, 11⟩, false⟩
    let front : List Token := [x, ⟨.equal, "=", ⟨2, 3⟩, false⟩, ⟨.leftBrace, "\x7b", ⟨4, 5⟩, false⟩, a,
      ⟨.comma, ",", ⟨6, 7⟩, false⟩]
    let rest : List Token := [⟨.colon, ":", ⟨11, 12⟩, false⟩, b, ⟨.rightBrace, "\x7d", ⟨14, 15⟩, false⟩]
    let events := [.chain ⟨Walker.nameOf lines x, []⟩, .enter ⟨4, 5⟩ .block,
      .chain ⟨Walker.nameOf lines a, []⟩,
      .chain ⟨Walker.nameOf lines b, []⟩, .exit ⟨14, 15⟩]
    let renamed := Patch.render source [⟨key.span, "foo"⟩]
    let moved := events.map (relocate (LineIndex.ofChars renamed.toList))
    ofSource source = .ok events ∧ Token.walked source = front ++ key :: rest ∧ isKey front.getLast? rest = true ∧
      IsIdentifier "foo" ∧ Source.byteLength "foo".toList = key.span.length ∧
      (∃ walker step,
        Place.Reaches lines ⟨{}, none, Token.walked source⟩ ⟨walker, front.getLast?, key :: rest⟩ ∧
        walker.step lines front.getLast? key rest = .ok step ∧ step.events <:+: events ∧
        (step.events = [] ∧ ofSource renamed = .ok moved ↔
          (∀ kind before t after, key.kind.declares? = some kind → rest = before ++ t :: after →
            t.isIdentifier = true → Walker.Awaits key before → t.span.start ∈ walker.declared) ∧
              Unlisted front)) ∧
        ("foo".length = key.span.length → moved = events) := by
  intro source lines x a b key front rest events renamed moved
  have hevents : ofSource source = .ok events := by decide +kernel
  have htokens : Token.walked source = front ++ key :: rest := by decide +kernel
  exact ⟨hevents, htokens, rfl, isIdentifier_foo, rfl, key_renamed_iff hevents htokens rfl rfl isIdentifier_foo rfl⟩

/-- The key declares a name behind it, which a name in its place does not. -/
theorem key_renamed_let :
    let source := "x = \x7b let: 1, b: c \x7d"
    let lines := LineIndex.ofChars source.toList
    let x : Token := ⟨.identifier "x", "x", ⟨0, 1⟩, false⟩
    let key : Token := ⟨.keyword .«let», "let", ⟨6, 9⟩, false⟩
    let b : Token := ⟨.identifier "b", "b", ⟨14, 15⟩, false⟩
    let c : Token := ⟨.identifier "c", "c", ⟨17, 18⟩, false⟩
    let front : List Token := [x, ⟨.equal, "=", ⟨2, 3⟩, false⟩, ⟨.leftBrace, "\x7b", ⟨4, 5⟩, false⟩]
    let rest : List Token := [⟨.colon, ":", ⟨9, 10⟩, false⟩, ⟨.number "1", "1", ⟨11, 12⟩, false⟩,
      ⟨.comma, ",", ⟨12, 13⟩, false⟩, b, ⟨.colon, ":", ⟨15, 16⟩, false⟩, c,
      ⟨.rightBrace, "\x7d", ⟨19, 20⟩, false⟩]
    Token.walked source = front ++ key :: rest ∧ isKey front.getLast? rest = true ∧ IsIdentifier "foo" ∧
      Source.byteLength "foo".toList = key.span.length ∧ "foo".length = key.span.length ∧
      ofSource source = .ok [.chain ⟨Walker.nameOf lines x, []⟩, .enter ⟨4, 5⟩ .block,
        .declare (Walker.nameOf lines b) .lexical, .chain ⟨Walker.nameOf lines c, []⟩, .exit ⟨19, 20⟩] ∧
      ofSource (Patch.render source [⟨key.span, "foo"⟩]) = .ok [.chain ⟨Walker.nameOf lines x, []⟩,
        .enter ⟨4, 5⟩ .block, .chain ⟨Walker.nameOf lines c, []⟩, .exit ⟨19, 20⟩] := by
  intro source lines x key b c front rest
  exact ⟨by decide +kernel, rfl, isIdentifier_foo, rfl, rfl, by decide +kernel, by decide +kernel⟩

end Event

end Nodeless
