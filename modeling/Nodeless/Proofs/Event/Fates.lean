import Mathlib.Data.List.Pairwise
import Nodeless.Proofs.Event.Reported

/-!
# The fate of every name

No identifier of a source is lost, and none is reported twice. A name that is no property is declared
once, or it has one fate: it is the root of one chain, or it stands where no value is meant. Which
fate it has can be read off the tokens around it and the lists that the walk collects parameters of.
-/

namespace Nodeless

/-! ## Where tokens stand -/

def Span.covers (a b : Span) : Bool := a.start ≤ b.start && b.stop ≤ a.stop

namespace Token

/-- Among the tokens, `t` stands behind `prev`, or at the start, and in front of `after`. -/
def Stands (ts : List Token) (prev : Option Token) (t : Token) (after : List Token) : Prop :=
  ∃ before, ts = before ++ t :: after ∧ prev = before.getLast?

theorem InOrder.eq_of_covers {ts : List Token} (h : InOrder ts) {a b : Token} (ha : a ∈ ts) (hb : b ∈ ts)
    (hcovers : a.span.covers b.span = true) : a = b := by
  have hbehind : ts.Pairwise fun a b => a.span.covers b.span = true → a = b := by
    refine h.ordered.imp_of_mem ?_
    intro a b _ hb hab hcovers
    have := h.nonempty b hb
    simp only [Span.covers, Bool.and_eq_true, decide_eq_true_eq] at hcovers
    omega
  have hbefore : ts.Pairwise fun a b => b.span.covers a.span = true → b = a := by
    refine h.ordered.imp_of_mem ?_
    intro a b ha _ hab hcovers
    have := h.nonempty a ha
    simp only [Span.covers, Bool.and_eq_true, decide_eq_true_eq] at hcovers
    omega
  exact hbehind.forall_of_forall_of_flip (fun _ _ _ => rfl) hbefore ha hb hcovers

theorem InOrder.span_eq_iff {ts : List Token} (h : InOrder ts) {a b : Token} (ha : a ∈ ts) (hb : b ∈ ts) :
    a.span = b.span ↔ a = b :=
  ⟨fun hspan => h.eq_of_start ha hb (congrArg Span.start hspan), congrArg Token.span⟩

namespace Stands

variable {ts after : List Token} {prev : Option Token} {t : Token}

theorem mem (h : Stands ts prev t after) : t ∈ ts := by
  obtain ⟨before, rfl, -⟩ := h
  simp

theorem suffix (h : Stands ts prev t after) : t :: after <:+ ts := by
  obtain ⟨before, rfl, -⟩ := h
  exact List.suffix_append _ _

theorem unique {prev' : Option Token} {after' : List Token} (h : Stands ts prev t after)
    (h' : Stands ts prev' t after') (hts : InOrder ts) : prev = prev' ∧ after = after' := by
  have hafter := (List.cons.inj (Walker.suffix_eq_of_start hts h.suffix h'.suffix rfl)).2
  obtain ⟨before, hbefore, rfl⟩ := h
  obtain ⟨before', hbefore', rfl⟩ := h'
  rw [hbefore, hafter] at hbefore'
  rw [List.append_cancel_right hbefore']
  exact ⟨rfl, hafter⟩

theorem mem_bareNames_iff (h : Stands ts prev t after) (hts : InOrder ts) :
    t ∈ Walker.bareNames none ts ↔ t.isIdentifier = true ∧ prev.any isPoint = false := by
  constructor
  · intro hmem
    obtain ⟨before, after', hbefore, hname, hbare⟩ := Walker.mem_bareNames_iff.mp hmem
    rw [Option.or_none] at hbare
    exact ⟨hname, (h.unique ⟨before, hbefore, rfl⟩ hts).1 ▸ hbare⟩
  · rintro ⟨hname, hbare⟩
    obtain ⟨before, hbefore, rfl⟩ := h
    exact Walker.mem_bareNames_iff.mpr ⟨before, after, hbefore, hname, by rwa [Option.or_none]⟩

end Stands

end Token

theorem Chain.countP_covers_le_one {chains : List Chain} (h : chains.Pairwise fun a b => a.span.stop ≤ b.span.start)
    {s : Span} (hs : s.start < s.stop) : chains.countP (·.span.covers s) ≤ 1 := by
  induction chains with
  | nil => exact Nat.zero_le 1
  | cons c chains ih =>
    obtain ⟨hbehind, hchains⟩ := List.pairwise_cons.mp h
    rw [List.countP_cons]
    split
    · rename_i hcovers
      have hnone : chains.countP (·.span.covers s) = 0 := by
        refine List.countP_eq_zero.mpr fun d hd hcovers' => ?_
        have hle := hbehind d hd
        simp only [Span.covers, Bool.and_eq_true, decide_eq_true_eq] at hcovers hcovers'
        omega
      exact Nat.le_of_eq (congrArg (· + 1) hnone)
    · exact ih hchains

namespace Event

def span? : Event → Option Span
  | .declare name _ => some name.span
  | .chain c => some c.span
  | _ => none

/-- Whether the token belongs to what the event reports. -/
def holds (t : Token) (event : Event) : Bool := event.span?.any (·.covers t.span)

def declares (t : Token) (event : Event) : Bool := event.declared?.any (·.span = t.span)

def isRootedAt (t : Token) (event : Event) : Bool := event.chain?.any (·.root.span = t.span)

theorem countP_holds (t : Token) (events : List Event) :
    events.countP (holds t) =
      (declaredNames events).countP (·.span.covers t.span) + (chains events).countP (·.span.covers t.span) := by
  induction events with
  | nil => rfl
  | cons event events ih =>
    rw [List.countP_cons, ih]
    cases event with
    | enter | exit => rfl
    | declare name kind =>
      have hnames : declaredNames (.declare name kind :: events) = name :: declaredNames events := rfl
      rw [hnames, List.countP_cons]
      exact Nat.add_right_comm _ _ _
    | chain c =>
      have hchains : chains (.chain c :: events) = c :: chains events := rfl
      rw [hchains, List.countP_cons]
      exact Nat.add_assoc _ _ _

theorem countP_declares (t : Token) (events : List Event) :
    events.countP (declares t) = (declaredNames events).countP (·.span = t.span) := by
  rw [declaredNames, List.countP_filterMap]
  exact congrArg (List.countP · events) (funext fun event => by cases event <;> rfl)

theorem countP_isRootedAt (t : Token) (events : List Event) :
    events.countP (isRootedAt t) = ((chains events).map (·.root)).countP (·.span = t.span) := by
  rw [List.countP_map, chains, List.countP_filterMap]
  exact congrArg (List.countP · events) (funext fun event => by cases event <;> rfl)

end Event

namespace Walker

/-- Where a name has a fate: `lines` and `start` are those of the walk, and the token stands behind
`prev` and in front of `after`. -/
inductive Meets (lines : LineIndex) (start : Place) (events : List Event) (prev : Option Token) (t : Token)
    (after : List Token) : Fate → Prop
  | root (once : events.countP (Event.isRootedAt t) = 1) : Meets lines start events prev t after .root
  | key (around : isKey prev after = true) : Meets lines start events prev t after .key
  | method (head : (methodHead? prev after).isSome = true) : Meets lines start events prev t after .method
  /-- The one parameter of an arrow function without parentheses. -/
  | lone (arrow : startsWith .arrow after = true) (bare : startsWith .leftBrace after.tail = false) :
      Meets lines start events prev t after .arrowParameter
  /-- Collected from a list in front of an arrow. -/
  | listed {walker : Walker} {before : Option Token} {opening arrow : Token} {rest inside body : List Token}
      (reach : start.Reaches lines ⟨walker, before, opening :: rest⟩) (paren : opening.kind = .leftParen)
      (close : splitAtClose 0 rest = some (inside, arrow :: body)) (isArrow : arrow.kind = .arrow)
      (bare : startsWith .leftBrace body = false) (collected : t ∈ walker.undeclared (parameters opening 0 inside)) :
      Meets lines start events prev t after .arrowParameter
  /-- Collected from the list of a function or catch head. -/
  | head {walker : Walker} {before : Option Token} {word opening : Token} {rest listed inside body : List Token}
      (reach : start.Reaches lines ⟨walker, before, word :: rest⟩)
      (isHead : word.kind = .keyword .function ∨ word.kind = .keyword .«catch»)
      (list : headList word rest = opening :: listed) (paren : opening.kind = .leftParen)
      (close : splitAtClose 0 listed = some (inside, body)) (bare : startsWith .leftBrace body = false)
      (collected : t ∈ walker.undeclared (parameters opening 0 inside)) :
      Meets lines start events prev t after .headParameter

/-! ## Fates read off the tokens around a name -/

/-- The fate that the tokens around a name speak of, if they do. -/
def fateAround (prev : Option Token) (after : List Token) : Option Fate :=
  if (methodHead? prev after).isSome then some .method
  else if startsWith .arrow after then some .arrowParameter
  else if isKey prev after then some .key
  else none

section

variable {prev : Option Token} {after : List Token}

theorem startsWith_of_methodHead? (h : (methodHead? prev after).isSome = true) :
    startsWith .leftParen after = true := by
  obtain ⟨_, _, _, -, -, hhead, -⟩ := methodHead?_isSome h
  obtain ⟨opening, behind, rfl, hparen, -⟩ := parenthesised_eq_some hhead
  simp [startsWith, hparen]

theorem startsWith_of_isKey (h : isKey prev after = true) : startsWith .colon after = true := by
  rw [isKey, Bool.and_eq_true] at h
  exact h.2

theorem kind_eq_of_startsWith {kind kind' : Kind} (h : startsWith kind after = true)
    (h' : startsWith kind' after = true) : kind = kind' := by
  obtain ⟨t, ts, rfl, rfl⟩ := startsWith_eq_true h
  simpa [startsWith] using h'

theorem fateAround_of_method (h : (methodHead? prev after).isSome = true) : fateAround prev after = some .method :=
  if_pos h

theorem fateAround_of_arrow (h : startsWith .arrow after = true) : fateAround prev after = some .arrowParameter := by
  unfold fateAround
  rw [if_neg, if_pos h]
  intro hhead
  cases kind_eq_of_startsWith h (startsWith_of_methodHead? hhead)

theorem fateAround_of_key (h : isKey prev after = true) : fateAround prev after = some .key := by
  have hcolon := startsWith_of_isKey h
  unfold fateAround
  rw [if_neg, if_neg, if_pos h]
  · intro harrow
    cases kind_eq_of_startsWith hcolon harrow
  · intro hhead
    cases kind_eq_of_startsWith hcolon (startsWith_of_methodHead? hhead)

theorem fateAround_of_parameter
    (h : startsWith .comma after = true ∨ startsWith .equal after = true ∨ startsWith .rightParen after = true) :
    fateAround prev after = none := by
  have hnot {kind : Kind} (hkind : startsWith kind after = true) :
      kind = .comma ∨ kind = .equal ∨ kind = .rightParen :=
    h.imp (kind_eq_of_startsWith hkind) (Or.imp (kind_eq_of_startsWith hkind) (kind_eq_of_startsWith hkind))
  unfold fateAround
  rw [if_neg, if_neg, if_neg]
  · intro hkey
    simpa using hnot (startsWith_of_isKey hkey)
  · intro harrow
    simpa using hnot harrow
  · intro hhead
    simpa using hnot (startsWith_of_methodHead? hhead)

end

/-! ## Parameters of lists -/

theorem exists_after_parameter {prev t : Token} {nesting : Nat} {ts : List Token}
    (h : t ∈ parameters prev nesting ts) :
    ∃ before after, ts = before ++ t :: after ∧
      (after = [] ∨ startsWith .comma after = true ∨ startsWith .equal after = true) := by
  induction ts generalizing prev nesting with
  | nil => cases h
  | cons u ts ih =>
    have hbehind {nesting : Nat} (h : t ∈ parameters u nesting ts) :
        ∃ before after, u :: ts = before ++ t :: after ∧
        (after = [] ∨ startsWith .comma after = true ∨ startsWith .equal after = true) := by
      obtain ⟨before, after, rfl, hends⟩ := ih h
      exact ⟨u :: before, after, rfl, hends⟩
    rw [parameters] at h
    split at h
    · exact hbehind h
    split at h
    · exact hbehind h
    dsimp only at h
    split at h
    · rename_i hfound
      rcases List.mem_cons.mp h with rfl | h
      · simp only [Bool.and_eq_true, Bool.or_eq_true, List.isEmpty_iff, or_assoc] at hfound
        exact ⟨[], ts, rfl, hfound.2⟩
      · exact hbehind h
    · exact hbehind h

theorem startsWith_append {kind : Kind} {ts : List Token} (h : startsWith kind ts = true) (us : List Token) :
    startsWith kind (ts ++ us) = true := by
  obtain ⟨t, ts, rfl, rfl⟩ := startsWith_eq_true h
  simp [startsWith]

theorem fateAround_of_mem_parameters {ts behind inside body after : List Token} {prev t : Token} {p : Option Token}
    {nesting : Nat} (hts : Token.InOrder ts) (hbehind : behind <:+ ts)
    (close : splitAtClose 0 behind = some (inside, body)) (hmem : t ∈ parameters prev nesting inside)
    (hstands : Token.Stands ts p t after) : fateAround p after = none := by
  obtain ⟨before, ends, rfl, hends⟩ := exists_after_parameter hmem
  obtain ⟨mark, rfl, hmark⟩ := splitAtClose_eq_append close
  have hsuffix : t :: (ends ++ mark :: body) <:+ ts := List.IsSuffix.trans ⟨before, by simp⟩ hbehind
  rw [(List.cons.inj (suffix_eq_of_start hts hstands.suffix hsuffix rfl)).2]
  apply fateAround_of_parameter
  rcases hends with rfl | hcomma | hequal
  · exact .inr (.inr (by simp [startsWith, hmark]))
  · exact .inl (startsWith_append hcomma _)
  · exact .inr (.inl (startsWith_append hequal _))

/-- The name of a function stands in front of its list, so no parameter is taken as declared by it. -/
theorem undeclared_mark_functionName {walker : Walker} {word opening t : Token} {rest listed inside body : List Token}
    (hrest : Token.InOrder rest) (hword : word.kind = .keyword .function)
    (list : headList word rest = opening :: listed) (close : splitAtClose 0 listed = some (inside, body))
    (h : t ∈ walker.undeclared (parameters opening 0 inside)) :
    t ∈ (walker.mark (functionName rest)).undeclared (parameters opening 0 inside) := by
  obtain ⟨hfound, hfree⟩ := mem_undeclared_iff.mp h
  refine mem_undeclared_iff.mpr ⟨hfound, fun hmem => ?_⟩
  obtain ⟨u, hu, hstart⟩ := (mem_declared_mark.mp hmem).resolve_right hfree
  obtain ⟨before, hbefore, hname, -⟩ := exists_before hword rest
  obtain ⟨mark, hlisted, -⟩ := splitAtClose_eq_append close
  have hinside := ((parameters_sublist opening 0 inside).trans (bareNames_sublist _ _)).subset hfound
  have hlater : t ∈ headList word rest := by simp [list, hlisted, hinside]
  have hearlier : u ∈ before := (hname.trans (bareNames_sublist _ _)).subset hu
  have hstarts := hrest.starts_lt
  rw [hbefore] at hstarts
  have hlt := (List.pairwise_append.mp hstarts).2.2 u hearlier t hlater
  omega

theorem not_mem_reported {ts : List Token} {t : Token} {fate : Fate} : (t, some fate) ∉ reported ts := by
  simp [reported]

theorem mem_settlesList_iff {walker : Walker} {opening t : Token} {inside after : List Token} {fate fate' : Fate} :
    (t, some fate) ∈ walker.settlesList opening inside after fate' ↔
      t ∈ walker.undeclared (parameters opening 0 inside) ∧ startsWith .leftBrace after = false ∧
        fate = fate' := by
  cases h : startsWith .leftBrace after <;> simp [settlesList, fateOf, h, eq_comm]

/-! ## The fates of a walk -/

/-- Whatever fate a step settles for a name is the one that the tokens around it speak of, if they do,
and it is where the name meets it; a root still has to be counted. -/
theorem Turn.fate_of_mem {walker : Walker} {lines : LineIndex} {prev p : Option Token} {u t : Token}
    {rest ts after : List Token} {step : Step} {settled : List (Token × Option Fate)} {start : Place}
    {events : List Event} {fate : Fate} (h : Turn walker lines prev u rest step settled) (hts : Token.InOrder ts)
    (hreach : start.Reaches lines ⟨walker, prev, u :: rest⟩) (hplace : Token.Stands ts prev u rest)
    (hstands : Token.Stands ts p t after) (hmem : (t, some fate) ∈ settled) :
    (fate = .root ∨ Meets lines start events p t after fate) ∧
      ∀ shape, fateAround p after = some shape → fate = shape := by
  have hrest : rest <:+ ts := (List.suffix_cons u rest).trans hplace.suffix
  -- A parameter ends its item, so the tokens around it speak of no fate.
  have hlisted {behind inside body : List Token} {prev : Token} (hbehind : behind <:+ rest)
      (close : splitAtClose 0 behind = some (inside, body)) (hmem : t ∈ parameters prev 0 inside) :
      ∀ shape, fateAround p after = some shape → fate = shape := by
    intro shape hshape
    rw [fateAround_of_mem_parameters hts (hbehind.trans hrest) close hmem hstands] at hshape
    cases hshape
  cases h with
  | opens | closes | skipsProperty | passes => cases hmem
  | declares => exact absurd hmem not_mem_reported
  | @heads name before behind inside body opening kind isHead list split paren close =>
    have hmem := (List.mem_append.mp hmem).resolve_left not_mem_reported
    obtain ⟨collected, bare, rfl⟩ := mem_settlesList_iff.mp hmem
    obtain ⟨hfound, hfree⟩ := mem_undeclared_iff.mp collected
    have hbehind : behind <:+ rest := split ▸ (List.suffix_cons opening behind).trans (List.suffix_append _ _)
    have hfree : t.span.start ∉ walker.declared := fun hmem => hfree (List.mem_append_right _ hmem)
    exact ⟨.inr (.head hreach isHead list paren close bare (mem_undeclared_iff.mpr ⟨hfound, hfree⟩)),
      hlisted hbehind close hfound⟩
  | @method behind inside body opening name free split paren close head =>
    rcases List.mem_cons.mp hmem with heq | hmem
    · cases heq
      obtain ⟨rfl, rfl⟩ := hstands.unique hplace hts
      exact ⟨.inr (.method head), fun _ hshape => Option.some.inj ((fateAround_of_method head).symm.trans hshape)⟩
    · -- The body of a method has braces, which declare its parameters.
      obtain ⟨-, bare, -⟩ := mem_settlesList_iff.mp hmem
      obtain ⟨_, _, _, -, -, hhead, hbrace⟩ := methodHead?_isSome head
      rw [split, parenthesised, if_pos paren, close] at hhead
      cases hhead
      rw [bare] at hbrace
      cases hbrace
  | @arrow inside body arrow paren close isArrow =>
    obtain ⟨collected, bare, rfl⟩ := mem_settlesList_iff.mp hmem
    exact ⟨.inr (.listed hreach paren close isArrow bare collected),
      hlisted (List.suffix_refl rest) close (mem_undeclared_iff.mp collected).1⟩
  | @lone body arrow name free split isArrow =>
    obtain ⟨rfl, hfate⟩ := Prod.mk.inj (List.mem_singleton.mp hmem)
    obtain ⟨rfl, rfl⟩ := hstands.unique hplace hts
    have harrow : startsWith .arrow after = true := by simp [split, startsWith, isArrow]
    unfold fateOf at hfate
    split at hfate
    · cases hfate
    · rename_i bare
      cases hfate
      refine ⟨.inr (.lone harrow ?_),
        fun _ hshape => Option.some.inj ((fateAround_of_arrow harrow).symm.trans hshape)⟩
      rw [split]
      exact Bool.eq_false_iff.mpr bare
  | key name free key =>
    cases List.mem_singleton.mp hmem
    obtain ⟨rfl, rfl⟩ := hstands.unique hplace hts
    exact ⟨.inr (.key key), fun _ hshape => Option.some.inj ((fateAround_of_key key).symm.trans hshape)⟩
  | reads name free head lone key =>
    cases List.mem_singleton.mp hmem
    obtain ⟨rfl, rfl⟩ := hstands.unique hplace hts
    refine ⟨.inl rfl, fun shape hshape => ?_⟩
    simp [fateAround, head, lone, key] at hshape

theorem Turn.declared {walker : Walker} {lines : LineIndex} {prev : Option Token} {t : Token} {rest : List Token}
    {step : Step} {settled : List (Token × Option Fate)} (h : Turn walker lines prev t rest step settled) :
    ∀ n ∈ step.walker.declared, n ∈ walker.declared ∨ ∃ entry ∈ settled, entry.1.span.start = n := by
  have hmark {marked : Walker} {found : List Token} {entries : List (Token × Option Fate)}
      (hentries : entries.map Prod.fst = marked.undeclared found) :
      ∀ n ∈ (marked.mark found).declared, n ∈ marked.declared ∨
        ∃ entry ∈ entries, entry.1.span.start = n := by
    intro n hn
    refine (List.mem_append.mp hn).symm.imp_right fun hn => ?_
    rw [← hentries, List.map_map] at hn
    exact List.mem_map.mp hn
  have hlist {marked : Walker} (kind : ScopeKind) (opening : Token) (inside after : List Token) (fate : Fate) :
      ∀ n ∈ (marked.list lines kind opening inside after).declared, n ∈ marked.declared ∨
        ∃ entry ∈ marked.settlesList opening inside after fate, entry.1.span.start = n := by
    intro n hn
    rw [list, declared_announce] at hn
    exact hmark (settlesList_fst opening inside after fate) n hn
  intro n hn
  cases h with
  | opens | closes | skipsProperty | passes => exact .inl hn
  | declares => exact hmark (reported_fst _) n hn
  | @heads name _ _ inside after opening kind =>
    rcases hlist kind opening inside after .headParameter n hn with hn | ⟨entry, hentry, hstart⟩
    · refine (hmark (reported_fst _) n hn).imp_right ?_
      rintro ⟨entry, hentry, hstart⟩
      exact ⟨entry, List.mem_append_left _ hentry, hstart⟩
    · exact .inr ⟨entry, List.mem_append_right _ hentry, hstart⟩
  | @method _ inside after opening =>
    refine (hlist .function opening inside after .headParameter n hn).imp_right ?_
    rintro ⟨entry, hentry, hstart⟩
    exact ⟨entry, List.mem_cons_of_mem _ hentry, hstart⟩
  | @arrow inside after => exact hlist .function t inside after .arrowParameter n hn
  | lone =>
    rw [declared_announce] at hn
    exact .inl hn
  | key | reads => exact .inl hn

section

variable {lines : LineIndex} {ts : List Token} {settled : List (Token × Option Fate)} {events : List Event}

theorem Run.declared_of_reaches {a b : Place} (hreach : a.Reaches lines b) (hrun : Run lines a settled events) :
    ∀ n ∈ b.walker.declared, n ∈ a.walker.declared ∨ ∃ entry ∈ settled, entry.1.span.start = n := by
  induction hreach using Relation.ReflTransGen.head_induction_on generalizing settled events with
  | refl => exact fun n hn => .inl hn
  | head hsteps _ ih =>
    obtain ⟨u, us, step, hahead, hstep, rfl⟩ := hsteps
    cases hrun with
    | done => cases hahead
    | turn hstep' hrun =>
      cases hahead
      rw [hstep'] at hstep
      cases hstep
      intro n hn
      rcases ih hrun n hn with hn | ⟨entry, hentry, hstart⟩
      · rcases (turn_of_step hstep').declared n hn with hn | ⟨entry, hentry, hstart⟩
        · exact .inl hn
        · exact .inr ⟨entry, List.mem_append_left _ hentry, hstart⟩
      · exact .inr ⟨entry, List.mem_append_right _ hentry, hstart⟩

theorem countP_namesWith {p : Name → Bool} {t : Token}
    (h : ∀ entry ∈ settled, p (nameOf lines entry.1) = true ↔ entry.1 = t) (fate : Option Fate) :
    (namesWith lines fate settled).countP p = settled.count (t, fate) := by
  rw [namesWith, List.countP_map, List.countP_filter, List.count]
  refine List.countP_congr fun entry hentry => ?_
  simp [h entry hentry, Prod.ext_iff]

theorem Run.mem_of_listed (hrun : Run lines ⟨{}, none, ts⟩ settled events) {walker : Walker}
    {before : Option Token} {opening arrow t : Token} {rest inside body : List Token}
    (reach : Place.Reaches lines ⟨{}, none, ts⟩ ⟨walker, before, opening :: rest⟩)
    (paren : opening.kind = .leftParen) (close : splitAtClose 0 rest = some (inside, arrow :: body))
    (isArrow : arrow.kind = .arrow) (bare : startsWith .leftBrace body = false)
    (collected : t ∈ walker.undeclared (parameters opening 0 inside)) : (t, some .arrowParameter) ∈ settled := by
  refine Run.mem_settled reach hrun rfl _ ?_
  have hsettles : walker.settles before opening rest = walker.settlesList opening inside body .arrowParameter := by
    simp [settles, paren, settlesParen, close, isArrow]
  rw [hsettles]
  exact mem_settlesList_iff.mpr ⟨collected, bare, rfl⟩

section

variable (hrun : Run lines ⟨{}, none, ts⟩ settled events) (hts : Token.InOrder ts)

include hrun hts

theorem Run.names : (bareNames none ts).Perm (settled.map Prod.fst) := by
  have hnames := (hrun.accounts (Place.sound_start hts)).names
  rwa [show (Walker.mk 0 [] []).undeclared (bareNames none ts) = bareNames none ts by simp [undeclared]] at hnames

theorem Run.nodup : (settled.map Prod.fst).Nodup :=
  (hrun.names hts).nodup_iff.mp (hts.nodup.sublist (bareNames_sublist _ _))

theorem Run.mem_bareNames {entry : Token × Option Fate} (h : entry ∈ settled) : entry.1 ∈ bareNames none ts :=
  (hrun.names hts).mem_iff.mpr (List.mem_map_of_mem h)

theorem Run.mem_tokens {entry : Token × Option Fate} (h : entry ∈ settled) : entry.1 ∈ ts :=
  (bareNames_sublist _ _).subset (hrun.mem_bareNames hts h)

theorem Run.exists_fate {t : Token} (h : t ∈ bareNames none ts) : ∃ fate, (t, fate) ∈ settled := by
  obtain ⟨⟨_, fate⟩, hmem, rfl⟩ := List.mem_map.mp ((hrun.names hts).mem_iff.mp h)
  exact ⟨fate, hmem⟩

theorem Run.fate_unique {t : Token} {fate fate' : Option Fate} (h : (t, fate) ∈ settled)
    (h' : (t, fate') ∈ settled) :
    fate = fate' :=
  (Prod.mk.inj (List.inj_on_of_nodup_map (hrun.nodup hts) h h' rfl)).2

theorem Run.count_eq_one_iff (t : Token) (fate : Option Fate) :
    settled.count (t, fate) = 1 ↔ (t, fate) ∈ settled := by
  have hle := List.nodup_iff_count_le_one.mp (List.Nodup.of_map _ (hrun.nodup hts)) (t, fate)
  rw [← List.one_le_count_iff]
  omega

theorem Run.count_declared {p : Name → Bool} {t : Token} (h : ∀ u ∈ ts, p (nameOf lines u) = true ↔ u = t) :
    (Event.declaredNames events).countP p = settled.count (t, none) := by
  rw [(hrun.accounts (Place.sound_start hts)).reports.countP_eq]
  exact countP_namesWith (fun entry hentry => h entry.1 (hrun.mem_tokens hts hentry)) none

theorem Run.count_roots {p : Name → Bool} {t : Token} (h : ∀ u ∈ ts, p (nameOf lines u) = true ↔ u = t) :
    ((Event.chains events).map (·.root)).countP p = settled.count (t, some .root) := by
  rw [(hrun.accounts (Place.sound_start hts)).roots]
  exact countP_namesWith (fun entry hentry => h entry.1 (hrun.mem_tokens hts hentry)) (some .root)

theorem Run.exists_token {name : Name}
    (h : name ∈ Event.declaredNames events ++ (Event.chains events).map (·.root)) :
    ∃ t ∈ ts, t.isIdentifier = true ∧ name = nameOf lines t := by
  obtain ⟨-, hreports, hroots⟩ := hrun.accounts (Place.sound_start hts)
  have hmem : ∃ fate, name ∈ namesWith lines fate settled := by
    rcases List.mem_append.mp h with h | h
    · exact ⟨none, hreports.mem_iff.mp h⟩
    · exact ⟨some .root, hroots ▸ h⟩
  obtain ⟨fate, hmem⟩ := hmem
  obtain ⟨entry, hentry, rfl⟩ := List.mem_map.mp hmem
  have hbare := hrun.mem_bareNames hts (List.mem_filter.mp hentry).1
  exact ⟨entry.1, (bareNames_sublist _ _).subset hbare, isIdentifier_of_mem_bareNames hbare, rfl⟩

theorem Run.countP_declares {t : Token} (ht : t ∈ ts) :
    events.countP (Event.declares t) = settled.count (t, none) := by
  rw [Event.countP_declares]
  exact hrun.count_declared hts fun u hu => decide_eq_true_iff.trans (hts.span_eq_iff hu ht)

theorem Run.countP_isRootedAt {t : Token} (ht : t ∈ ts) :
    events.countP (Event.isRootedAt t) = settled.count (t, some .root) := by
  rw [Event.countP_isRootedAt]
  exact hrun.count_roots hts fun u hu => decide_eq_true_iff.trans (hts.span_eq_iff hu ht)

theorem Run.countP_covers_chain {t : Token} (h : (t, none) ∈ settled) :
    (Event.chains events).countP (·.span.covers t.span) = 0 := by
  refine List.countP_eq_zero.mpr fun c hc hcovers => ?_
  simp only [Span.covers, Bool.and_eq_true, decide_eq_true_eq] at hcovers
  have hroot := hrun.root_of_within hts c hc t (hrun.mem_bareNames hts h) hcovers.1 hcovers.2
  have hcount := hrun.countP_isRootedAt hts (hrun.mem_tokens hts h)
  have hrooted : 0 < events.countP (Event.isRootedAt t) :=
    List.countP_pos_iff.mpr ⟨.chain c, (Event.mem_chains_iff events c).mp hc, decide_eq_true hroot⟩
  rw [hcount, List.count_pos_iff] at hrooted
  cases hrun.fate_unique hts h hrooted

theorem Run.countP_holds_le_one {t : Token} (ht : t ∈ ts) : events.countP (Event.holds t) ≤ 1 := by
  have hdeclared : (Event.declaredNames events).countP (·.span.covers t.span) = settled.count (t, none) := by
    refine hrun.count_declared hts fun u hu => ⟨hts.eq_of_covers hu ht, fun heq => ?_⟩
    simp [heq, nameOf, Span.covers]
  rw [Event.countP_holds, hdeclared]
  -- A declared token is in no chain, and any other one is in the span of one chain at most.
  by_cases hmem : (t, none) ∈ settled
  · rw [hrun.countP_covers_chain hts hmem, Nat.add_zero]
    exact Nat.le_of_eq ((hrun.count_eq_one_iff hts t none).mpr hmem)
  · rw [List.count_eq_zero_of_not_mem hmem, Nat.zero_add]
    exact Chain.countP_covers_le_one (eventsInOrder hrun.events_eq hts).chains_ordered (hts.nonempty t ht)

/-! ## Names and fates -/

theorem Run.meets_of_mem {prev : Option Token} {t : Token} {after : List Token} {fate : Fate}
    (hstands : Token.Stands ts prev t after) (hmem : (t, some fate) ∈ settled) :
    Meets lines ⟨{}, none, ts⟩ events prev t after fate ∧
      ∀ shape, fateAround prev after = some shape → fate = shape := by
  obtain ⟨walker, prev', u, rest, step, hreach, hstep, hentry⟩ := hrun.exists_place hmem
  obtain ⟨before, hahead, hprev⟩ := hreach.exists_before
  have hplace : Token.Stands ts prev' u rest := ⟨before, hahead, by simpa using hprev⟩
  obtain ⟨hmeets, hshape⟩ : (fate = .root ∨ Meets lines ⟨{}, none, ts⟩ events prev t after fate) ∧ _ :=
    (turn_of_step hstep).fate_of_mem hts hreach hplace hstands hentry
  refine ⟨?_, hshape⟩
  rcases hmeets with rfl | hmeets
  · refine .root ?_
    rw [hrun.countP_isRootedAt hts hstands.mem, hrun.count_eq_one_iff hts]
    exact hmem
  · exact hmeets

theorem Run.mem_of_head {walker : Walker} {before : Option Token} {word opening t : Token}
    {rest listed inside body : List Token}
    (reach : Place.Reaches lines ⟨{}, none, ts⟩ ⟨walker, before, word :: rest⟩)
    (isHead : word.kind = .keyword .function ∨ word.kind = .keyword .«catch»)
    (list : headList word rest = opening :: listed) (paren : opening.kind = .leftParen)
    (close : splitAtClose 0 listed = some (inside, body)) (bare : startsWith .leftBrace body = false)
    (collected : t ∈ walker.undeclared (parameters opening 0 inside)) :
    (t, some .headParameter) ∈ settled := by
  have hhead : parenthesised (opening :: listed) = some (inside, body) := by rw [parenthesised, if_pos paren, close]
  refine Run.mem_settled reach hrun rfl _ ?_
  dsimp only
  rcases isHead with hword | hword
  · have hsettles : walker.settles before word rest = reported (walker.undeclared (functionName rest)) ++
        (walker.mark (functionName rest)).settlesList opening inside body .headParameter := by
      rw [settles, hword, list, ← settlesHead_of_some hhead]
    rw [hsettles]
    refine List.mem_append_right _ (mem_settlesList_iff.mpr ⟨?_, bare, rfl⟩)
    obtain ⟨front, hfront, -⟩ := reach.exists_before
    have hrest : rest <:+ ts := ⟨front ++ [word], by simpa using hfront.symm⟩
    exact undeclared_mark_functionName (hts.sublist hrest.sublist) hword list close collected
  · have hsettles : walker.settles before word rest = walker.settlesList opening inside body .headParameter := by
      rw [settles, hword, list, ← settlesHead_of_some hhead]
    rw [hsettles]
    exact mem_settlesList_iff.mpr ⟨collected, bare, rfl⟩

theorem Run.eq_of_meets {prev : Option Token} {t : Token} {after : List Token} {fate fate' : Fate}
    (hstands : Token.Stands ts prev t after) (hmem : (t, some fate) ∈ settled)
    (h : Meets lines ⟨{}, none, ts⟩ events prev t after fate') : fate' = fate := by
  have hshape := (hrun.meets_of_mem hts hstands hmem).2
  -- Roots and collected parameters are settled by the walk; the other cases show around the name.
  have hsettled (hmem' : (t, some fate') ∈ settled) : fate' = fate :=
    Option.some.inj (hrun.fate_unique hts hmem' hmem)
  cases h with
  | root once =>
    rw [hrun.countP_isRootedAt hts hstands.mem, hrun.count_eq_one_iff hts] at once
    exact hsettled once
  | key around => exact (hshape .key (fateAround_of_key around)).symm
  | method head => exact (hshape .method (fateAround_of_method head)).symm
  | lone arrow => exact (hshape .arrowParameter (fateAround_of_arrow arrow)).symm
  | listed reach paren close isArrow bare collected =>
    exact hsettled (hrun.mem_of_listed reach paren close isArrow bare collected)
  | head reach isHead list paren close bare collected =>
    exact hsettled (hrun.mem_of_head hts reach isHead list paren close bare collected)

end

end

end Walker

namespace Event

/-- The account that events give of the tokens that a walk sees: every report is of an identifier, no
token belongs to two reports, a name that is no property is declared once or has one fate, and a
property is neither declared nor the root of a chain, nor does the walk ever take it as declared. -/
structure Accounted (lines : LineIndex) (tokens : List Token) (events : List Event) : Prop where
  named : ∀ name ∈ declaredNames events ++ (chains events).map (·.root),
    ∃ t ∈ tokens, t.isIdentifier = true ∧ name = Walker.nameOf lines t
  once : ∀ t ∈ tokens, events.countP (holds t) ≤ 1
  bare : ∀ prev t after, Token.Stands tokens prev t after → t.isIdentifier = true →
    prev.any Token.isPoint = false →
    events.countP (declares t) = 1 ∨ events.countP (declares t) = 0 ∧
      ∃! fate, Walker.Meets lines ⟨{}, none, tokens⟩ events prev t after fate
  property : ∀ prev t after, Token.Stands tokens prev t after → prev.any Token.isPoint = true →
    events.countP (declares t) = 0 ∧ events.countP (isRootedAt t) = 0 ∧
      ∀ place, Walker.Place.Reaches lines ⟨{}, none, tokens⟩ place → t.span.start ∉ place.walker.declared

theorem accounted_of_run {lines : LineIndex} {tokens : List Token} {settled : List (Token × Option Fate)}
    {events : List Event} (hrun : Walker.Run lines ⟨{}, none, tokens⟩ settled events) (hts : Token.InOrder tokens) :
    Accounted lines tokens events where
  named _ hname := hrun.exists_token hts hname
  once _ ht := hrun.countP_holds_le_one hts ht
  bare prev t after hstands hname hbare := by
    obtain ⟨fate, hmem⟩ := hrun.exists_fate hts ((hstands.mem_bareNames_iff hts).mpr ⟨hname, hbare⟩)
    rw [hrun.countP_declares hts hstands.mem]
    cases fate with
    | none => exact .inl ((hrun.count_eq_one_iff hts t none).mpr hmem)
    | some fate =>
      refine .inr ⟨List.count_eq_zero_of_not_mem fun hmem' => ?_, fate, (hrun.meets_of_mem hts hstands hmem).1,
        fun _ => hrun.eq_of_meets hts hstands hmem⟩
      cases hrun.fate_unique hts hmem' hmem
  property prev t after hstands hpoint := by
    have hnot : t ∉ Walker.bareNames none tokens := by
      intro hmem
      have hbare := ((hstands.mem_bareNames_iff hts).mp hmem).2
      rw [hpoint] at hbare
      cases hbare
    have hcount (fate : Option Fate) : settled.count (t, fate) = 0 :=
      List.count_eq_zero_of_not_mem fun hmem => hnot (hrun.mem_bareNames hts hmem)
    refine ⟨?_, ?_, ?_⟩
    · rw [hrun.countP_declares hts hstands.mem, hcount]
    · rw [hrun.countP_isRootedAt hts hstands.mem, hcount]
    · intro place hreach hdeclared
      obtain ⟨entry, hentry, hstart⟩ := (hrun.declared_of_reaches hreach _ hdeclared).resolve_left List.not_mem_nil
      have heq := hts.eq_of_start (hrun.mem_tokens hts hentry) hstands.mem hstart
      exact hnot (heq ▸ hrun.mem_bareNames hts hentry)

theorem ofSource_accounted {source : String} {events : List Event} (h : ofSource source = .ok events) :
    Accounted (LineIndex.ofChars source.toList) ((Token.ofSource source).filter fun t => t.kind ≠ .eof) events := by
  unfold ofSource at h
  dsimp only at h
  split at h
  · cases h
  · rename_i hvalid
    obtain ⟨settled, hrun⟩ := Walker.exists_run h
    exact accounted_of_run hrun (Token.inOrder_ofSource source hvalid)

theorem ofSource_accounted_arrow :
    let name (text : String) (start stop : Nat) : Name :=
      ⟨text, ⟨start, stop⟩, ⟨⟨1, start⟩, ⟨1, stop⟩⟩⟩
    let events := [Event.declare (name "a" 4 5) .var, .chain ⟨name "b" 15 16, [name "c" 17 18]⟩]
    ofSource "var a = (b) => b.c" = .ok events ∧
      Accounted (LineIndex.ofChars "var a = (b) => b.c".toList)
        ((Token.ofSource "var a = (b) => b.c").filter fun t => t.kind ≠ .eof) events := by
  have hsource : ofSource "var a = (b) => b.c" =
      .ok [.declare ⟨"a", ⟨4, 5⟩, ⟨⟨1, 4⟩, ⟨1, 5⟩⟩⟩ .var,
        .chain ⟨⟨"b", ⟨15, 16⟩, ⟨⟨1, 15⟩, ⟨1, 16⟩⟩⟩,
          [⟨"c", ⟨17, 18⟩, ⟨⟨1, 17⟩, ⟨1, 18⟩⟩⟩]⟩] := by
    decide +kernel
  exact ⟨hsource, ofSource_accounted hsource⟩

end Event

end Nodeless
