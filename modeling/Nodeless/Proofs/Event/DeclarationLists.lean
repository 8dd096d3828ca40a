import Nodeless.Proofs.Event.Lists
import Nodeless.Proofs.Event.Reached

/-!
# Declaration lists

A declaration list declares the names of its items. Its reader counts brackets only, so a comma or a
semicolon in the substitution of a template counts for one of the list: the names behind such commas
are declared as well, and the items behind such a semicolon are not.
-/

namespace Nodeless

/-- What the names of the list behind the word are declared as. -/
def Kind.declares? : Kind → Option DeclarationKind
  | .keyword .var => some .var
  | .keyword .«let» | .keyword .const => some .lexical
  | _ => none

namespace Walker

/-- A name, and the value that it starts with if it has one. -/
structure IsDeclarator (item : Item) : Prop where
  front : item.front = []
  name : item.name.isIdentifier = true
  behind : item.behind = [] ∨ IsValue [.comma, .semicolon] item.behind

/-- A semicolon stands outside of all brackets. -/
def CutsOff (ts : List Token) : Prop :=
  ∃ before mark after, ts = before ++ mark :: after ∧ nestingAfter 0 before = 0 ∧ mark.kind = .semicolon

/-- The identifier stands directly behind a comma outside of all brackets, with no such semicolon in
front. -/
def Stray (ts : List Token) (t : Token) : Prop :=
  ∃ before comma after, ts = before ++ comma :: t :: after ∧ nestingAfter 0 before = 0 ∧ comma.kind = .comma ∧
    ¬CutsOff before ∧ t.isIdentifier = true

/-- No line feed outside of brackets ends the statement. -/
def Unbroken (prev : Token) (ts : List Token) : Prop :=
  ∀ before t after, ts = before ++ t :: after → nestingAfter 0 before = 0 →
    endsStatement (before.getLastD prev) t = false

/-! ## One item -/

section

variable {prev t name stop : Token} {ts us list more : List Token} {item : Item} {items : List Item} {walker : Walker}

theorem Unbroken.left (h : Unbroken prev (ts ++ us)) : Unbroken prev ts := by
  intro before t after hsplit hnesting
  exact h before t (after ++ us) (by rw [hsplit, List.append_assoc, List.cons_append]) hnesting

theorem Unbroken.right (h : Unbroken prev (ts ++ us)) (hts : nestingAfter 0 ts = 0) :
    Unbroken (ts.getLastD prev) us := by
  intro before t after hsplit hnesting
  have := h (ts ++ before) t after (by rw [hsplit, List.append_assoc]) (by rwa [nestingAfter_append, hts])
  rwa [getLastD_append] at this

theorem endsStatement_of_kind (hname : t.isIdentifier = false) (hword : t.kind.isKeyword = false)
    (hvalue : t.kind.isLiteral = false) (prev : Token) : endsStatement prev t = false := by
  unfold endsStatement
  rw [Bool.and_eq_false_iff]
  refine .inr ?_
  unfold Token.isIdentifier Kind.isIdentifier at hname
  unfold Kind.isLiteral at hvalue
  split <;> simp_all

theorem closesBracket_of_balanced {before after : List Token} (h : enclosing? [] (before ++ t :: after) = some [])
    (hnesting : nestingAfter 0 before = 0) : t.kind.closesBracket = false := by
  obtain ⟨outer, hbefore, hmore⟩ := enclosing?_append_eq_some_iff.mp h
  obtain ⟨inner, ht, -⟩ := enclosing?_cons_eq_some_iff.mp hmore
  have hcount := nestingAfter_of_enclosing? hbefore 0
  rw [show 0 + Enclosure.brackets [] = 0 from rfl, hnesting, Nat.zero_add] at hcount
  exact closesBracket_of_encloses (Token.encloses_of_enclosing? ht) hcount.symm

theorem ends_iff_cutsOff (hbalanced : enclosing? [] (ts ++ more) = some []) (hunbroken : Unbroken prev ts) :
    ends prev 0 ts = true ↔ CutsOff ts := by
  rw [ends_iff]
  constructor
  · rintro ⟨before, t, after, rfl, hnesting, hbreak | hclose | hmark⟩
    · rw [hunbroken before t after rfl hnesting] at hbreak
      cases hbreak
    · rw [List.append_assoc, List.cons_append] at hbalanced
      rw [closesBracket_of_balanced hbalanced hnesting] at hclose
      cases hclose
    · exact ⟨before, t, after, rfl, hnesting, hmark⟩
  · rintro ⟨before, mark, after, rfl, hnesting, hmark⟩
    exact ⟨before, mark, after, rfl, hnesting, .inr (.inr hmark)⟩

theorem unbroken_of_ends (h : ends prev 0 ts = false) : Unbroken prev ts := by
  intro before t after hsplit hnesting
  refine Bool.eq_false_iff.mpr fun hbreak => ?_
  rw [ends_iff.mpr ⟨before, t, after, hsplit, hnesting, .inl hbreak⟩] at h
  cases h

theorem mem_strays_iff (hbalanced : enclosing? [] ts = some []) (hunbroken : Unbroken name ts) :
    t ∈ declarators name 0 false ts ↔ Stray ts t := by
  rw [mem_declarators_iff quiet_of_false]
  constructor
  · rintro ⟨before, after, rfl, hname, hends, hawaits⟩
    obtain ⟨more, comma, rfl, hcomma, hnesting⟩ := (awaits_iff.mp hawaits).resolve_left (by simp)
    rw [List.append_assoc, List.singleton_append] at hbalanced hunbroken ⊢
    refine ⟨more, comma, after, rfl, hnesting, hcomma, fun hcuts => ?_, hname⟩
    rw [ends_append, (ends_iff_cutsOff hbalanced hunbroken.left).mpr hcuts] at hends
    cases hends
  · rintro ⟨before, comma, after, rfl, hnesting, hcomma, hcuts, hname⟩
    have hends : ends name 0 before = false :=
      Bool.eq_false_iff.mpr fun h => hcuts ((ends_iff_cutsOff hbalanced hunbroken.left).mp h)
    have hquiet := hunbroken before comma (t :: after) rfl hnesting
    refine ⟨before ++ [comma], after, by simp, hname, ?_,
      awaits_iff.mpr (.inr ⟨before, comma, rfl, hcomma, hnesting⟩)⟩
    rw [ends_append, hends, hnesting, Bool.false_or, ends, endsAt, hquiet]
    simp [ends, hcomma, Kind.closesBracket]

theorem IsDeclarator.tokens_eq (h : IsDeclarator item) : item.tokens = item.name :: item.behind := by
  rw [Item.tokens, h.front, List.nil_append]

theorem IsDeclarator.unbroken_behind (h : IsDeclarator item) (hunbroken : Unbroken prev item.tokens) :
    Unbroken item.name item.behind := by
  rw [h.tokens_eq] at hunbroken
  have hsplit : Unbroken prev ([item.name] ++ item.behind) := hunbroken
  refine hsplit.right ?_
  obtain ⟨text, hkind⟩ := exists_identifier h.name
  simp [Token.nestingBehind, hkind, Kind.opensBracket, Kind.closesBracket]

theorem IsDeclarator.balanced (h : IsDeclarator item) : enclosing? [] item.behind = some [] := by
  rcases h.behind with hnil | hvalue
  · rw [hnil]
    rfl
  · exact hvalue.balanced

theorem IsDeclarator.not_mem_barred (h : IsDeclarator item)
    (hplain : ∀ t ∈ item.behind, ∀ value, t.kind ≠ .template value) {before after : List Token}
    (hsplit : item.behind = before ++ t :: after) (hnesting : nestingAfter 0 before = 0) :
    t.kind ∉ [Kind.comma, .semicolon] := by
  have hvalue := h.behind.resolve_left (by simp [hsplit])
  have hbalanced := h.balanced
  rw [hsplit] at hvalue hbalanced hplain
  exact hvalue.not_mem_barred (by simp)
    (enclosing?_eq_nil hbalanced (fun u hu => hplain u (List.mem_append_left _ hu)) hnesting)

/-- Only a substitution of a template misleads the count of brackets. -/
theorem IsDeclarator.not_cutsOff_not_stray (h : IsDeclarator item)
    (hplain : ∀ t ∈ item.behind, ∀ value, t.kind ≠ .template value) :
    ¬CutsOff item.behind ∧ ∀ t, ¬Stray item.behind t := by
  constructor
  · rintro ⟨before, mark, after, hsplit, hnesting, hmark⟩
    exact h.not_mem_barred hplain hsplit hnesting (by simp [hmark])
  · rintro t ⟨before, comma, after, hsplit, hnesting, hcomma, -⟩
    exact h.not_mem_barred hplain hsplit hnesting (by simp [hcomma])

theorem IsDeclarator.awaits_behind (h : IsDeclarator item) : awaits 0 false item.behind = false := by
  refine Bool.eq_false_iff.mpr fun hawaits => ?_
  obtain ⟨before, comma, hsplit, hcomma, hnesting⟩ := (awaits_iff.mp hawaits).resolve_left (by simp)
  have hvalue := h.behind.resolve_left (by simp [hsplit])
  have hbalanced := hvalue.balanced
  rw [hsplit] at hvalue hbalanced
  obtain ⟨between, hbefore, hlast⟩ := enclosing?_append_eq_some_iff.mp hbalanced
  have hnil : between = [] := by
    obtain ⟨inner, ht, hinner⟩ := enclosing?_cons_eq_some_iff.mp hlast
    rw [enclosing?_nil_eq_some_iff.mp hinner] at ht
    simpa [Token.enclosing?, hcomma] using ht
  exact hvalue.not_mem_barred (by simp) (hnil ▸ hbefore) (by simp [hcomma])

theorem IsDeclarator.declarators_eq (h : IsDeclarator item) (hquiet : Quiet prev) (us : List Token) :
    declarators prev 0 true (item.tokens ++ us) = item.name :: (declarators item.name 0 false item.behind ++
      if ends item.name 0 item.behind then [] else declarators (item.behind.getLastD item.name) 0 false us) := by
  have hend : endsAt prev 0 item.name = false := by
    obtain ⟨text, hkind⟩ := exists_identifier h.name
    simp [endsAt, hquiet item.name, hkind, Kind.closesBracket]
  have hplain : item.name.nestingBehind 0 = 0 ∧ item.name.kind ≠ .comma := by
    obtain ⟨text, hkind⟩ := exists_identifier h.name
    simp [Token.nestingBehind, hkind, Kind.opensBracket, Kind.closesBracket]
  rw [Item.tokens, h.front, List.nil_append, List.cons_append, declarators_cons fun _ => hquiet, hend, h.name, hplain.1,
    show (decide (item.name.kind = .comma) && decide (0 = 0)) = false by simp [hplain.2],
    declarators_append quiet_of_false, nestingAfter_of_balanced h.balanced, h.awaits_behind]
  rfl

theorem declarators_comma (hcomma : t.kind = .comma) (prev : Token) (us : List Token) :
    declarators prev 0 false (t :: us) = declarators t 0 true us := by
  have hend : endsAt prev 0 t = false := by
    have hbreak := endsStatement_of_kind (t := t) (by simp [Token.isIdentifier, hcomma, Kind.isIdentifier])
      (by simp [hcomma, Kind.isKeyword]) (by simp [hcomma, Kind.isLiteral]) prev
    simp [endsAt, hbreak, hcomma, Kind.closesBracket]
  rw [declarators_cons quiet_of_false, hend]
  simp [hcomma, Token.nestingBehind, Kind.opensBracket, Kind.closesBracket]

theorem declarators_stop (hstop : stop.kind = .semicolon ∨ stop.kind.closesBracket = true) (prev : Token)
    (us : List Token) : declarators prev 0 false (stop :: us) = [] := by
  have hend : endsAt prev 0 stop = true := by
    rcases hstop with hstop | hstop <;> simp [endsAt, hstop]
  rw [declarators_cons quiet_of_false, hend]
  rfl

/-! ## All items -/

theorem undeclared_append (ts us : List Token) :
    walker.undeclared (ts ++ us) = walker.undeclared ts ++ walker.undeclared us :=
  List.filter_append ts us

theorem undeclared_eq_nil_iff : walker.undeclared ts = [] ↔ ∀ t ∈ ts, t.span.start ∈ walker.declared := by
  simp [undeclared, List.filter_eq_nil_iff]

theorem undeclared_cons_eq_iff {names : List Token} (hname : t ∉ ts) :
    walker.undeclared (t :: ts) = t :: names ↔ t.span.start ∉ walker.declared ∧ walker.undeclared ts = names := by
  by_cases hdeclared : t.span.start ∈ walker.declared
  · have hdrop : walker.undeclared (t :: ts) = walker.undeclared ts := List.filter_cons_of_neg (by simp [hdeclared])
    rw [hdrop]
    constructor
    · intro h
      have hmem : t ∈ walker.undeclared ts := h ▸ List.mem_cons_self
      exact absurd (mem_undeclared_iff.mp hmem).1 hname
    · exact fun h => absurd hdeclared h.1
  · have hkeep : walker.undeclared (t :: ts) = t :: walker.undeclared ts :=
      List.filter_cons_of_pos (by simp [hdeclared])
    rw [hkeep, List.cons_inj_right]
    exact (and_iff_right hdeclared).symm

theorem append_eq_iff_of_disjoint {α : Type} {as bs cs : List α} (h : ∀ a ∈ as, a ∉ cs) :
    as ++ bs = cs ↔ as = [] ∧ bs = cs := by
  constructor
  · intro heq
    have hnil : as = [] := List.eq_nil_iff_forall_not_mem.mpr fun a ha => h a ha (heq ▸ List.mem_append_left bs ha)
    exact ⟨hnil, by rw [← heq, hnil, List.nil_append]⟩
  · rintro ⟨rfl, rfl⟩
    rfl

theorem declarators_subset {nesting : Nat} {atStart : Bool} (hquiet : atStart = true → Quiet prev) :
    ∀ t ∈ declarators prev nesting atStart ts, t ∈ ts := by
  intro t ht
  obtain ⟨before, after, rfl, -⟩ := (mem_declarators_iff hquiet).mp ht
  simp

/-- What a list declares by its first item, in tokens none of which stands twice: the name alone where the
name is free and the others that are read up to the next item are not. -/
theorem IsDeclarator.undeclared_iff (h : IsDeclarator item) (hunbroken : Unbroken prev item.tokens)
    (hnodup : (item.tokens ++ more).Nodup) {found names : List Token} (hfound : ∀ t ∈ found, t ∈ more)
    (hnames : ∀ t ∈ names, t ∈ more) :
    walker.undeclared (item.name :: (declarators item.name 0 false item.behind ++ found)) = item.name :: names ↔
      item.name.span.start ∉ walker.declared ∧ (∀ t, Stray item.behind t → t.span.start ∈ walker.declared) ∧
        walker.undeclared found = names := by
  have hbehind := h.unbroken_behind hunbroken
  rw [h.tokens_eq] at hnodup
  have hsub := @declarators_subset item.name item.behind 0 false quiet_of_false
  rw [List.cons_append, List.nodup_cons, List.nodup_append] at hnodup
  obtain ⟨hname, -, -, hapart⟩ := hnodup
  rw [undeclared_cons_eq_iff, undeclared_append, append_eq_iff_of_disjoint, undeclared_eq_nil_iff]
  · simp only [mem_strays_iff h.balanced hbehind]
  · intro t ht hmem
    exact hapart t (hsub t (mem_undeclared_iff.mp ht).1) t (hnames t hmem) rfl
  · intro hmem
    refine hname (List.mem_append.mpr ?_)
    exact (List.mem_append.mp hmem).imp (hsub item.name) (hfound item.name)

theorem undeclared_declarators_iff (h : Listed IsDeclarator items list) (hquiet : Quiet prev)
    (hunbroken : Unbroken prev list) (hstop : stop.kind = .semicolon ∨ stop.kind.closesBracket = true)
    {after : List Token} (hnodup : (list ++ stop :: after).Nodup) :
    walker.undeclared (declarators prev 0 true (list ++ stop :: after)) = items.map Item.name ↔
      (∀ item ∈ items, item.name.span.start ∉ walker.declared) ∧
        (∀ item ∈ items.dropLast, ¬CutsOff item.behind) ∧
          ∀ item ∈ items, ∀ t, Stray item.behind t → t.span.start ∈ walker.declared := by
  induction h generalizing prev with
  | @last item hitem =>
    rw [hitem.declarators_eq hquiet, declarators_stop hstop, ite_self, List.map_singleton,
      hitem.undeclared_iff hunbroken hnodup (by simp) (by simp)]
    simp [undeclared]
  | @more item items comma ts hitem hcomma hlisted ih =>
    have hnesting : nestingAfter 0 item.tokens = 0 := by
      obtain ⟨text, hkind⟩ := exists_identifier hitem.name
      rw [hitem.tokens_eq, nestingAfter_cons, Token.nestingBehind_of_plain (by simp [hkind, Kind.opensBracket])
        (by simp [hkind, Kind.closesBracket])]
      exact nestingAfter_of_balanced hitem.balanced 0
    have hlast : (item :: items).dropLast = item :: items.dropLast := List.dropLast_cons_of_ne_nil hlisted.ne_nil
    have hmore : Unbroken comma ts := by
      have hcommas : Unbroken (item.tokens.getLastD prev) ([comma] ++ ts) := hunbroken.right hnesting
      refine hcommas.right ?_
      simp [Token.nestingBehind, hcomma, Kind.opensBracket, Kind.closesBracket]
    have hcommaQuiet : Quiet comma := quiet_of_kind (by rw [hcomma]; rfl) (by simp [hcomma])
    rw [List.append_assoc, List.cons_append] at hnodup ⊢
    have hrest : (ts ++ stop :: after).Nodup := (List.nodup_cons.mp (List.nodup_append.mp hnodup).2.1).2
    have hnames : ∀ t ∈ items.map Item.name, t ∈ comma :: (ts ++ stop :: after) := fun t ht =>
      List.mem_cons_of_mem _ (List.mem_append_left _ (hlisted.names_subset t ht))
    have hbalanced : enclosing? [] (item.behind ++ []) = some [] := by
      rw [List.append_nil]
      exact hitem.balanced
    have hcuts := ends_iff_cutsOff hbalanced (hitem.unbroken_behind hunbroken.left)
    rw [hitem.declarators_eq hquiet, declarators_comma hcomma, List.map_cons, hlast]
    simp only [List.forall_mem_cons]
    cases hend : ends item.name 0 item.behind with
    | true =>
      -- The items behind are not read, though there are some.
      rw [if_pos rfl, hitem.undeclared_iff hunbroken.left hnodup (by simp) hnames]
      have hnone : walker.undeclared [] ≠ items.map Item.name := by simpa [undeclared] using Ne.symm hlisted.ne_nil
      simp [hnone, hcuts.mp hend]
    | false =>
      have hwhole : ¬CutsOff item.behind := fun h => by simp [hcuts.mpr h] at hend
      rw [if_neg Bool.false_ne_true, hitem.undeclared_iff hunbroken.left hnodup
        (fun t ht => List.mem_cons_of_mem _ (declarators_subset (fun _ => hcommaQuiet) t ht)) hnames,
        ih hcommaQuiet hmore hrest]
      tauto

/-! ## The step at the word -/

theorem step_of_declares {lines : LineIndex} {before : Option Token} {word : Token} {kind : DeclarationKind}
    (h : word.kind.declares? = some kind) :
    walker.step lines before word ts = .ok ⟨walker.mark (declarators word 0 true ts),
      declares lines kind (walker.undeclared (declarators word 0 true ts)), 0⟩ := by
  unfold Kind.declares? at h
  split at h
  case h_4 => cases h
  all_goals
    rename_i hkind
    cases h
    unfold step
    rw [hkind]
    rfl

theorem isKeyword_of_declares {kind : DeclarationKind} (h : t.kind.declares? = some kind) :
    t.kind.isKeyword = true := by
  unfold Kind.declares? at h
  split at h
  case h_4 => cases h
  all_goals
    rename_i hkind
    rw [hkind]
    rfl

theorem quiet_of_declares {kind : DeclarationKind} (h : t.kind.declares? = some kind) : Quiet t := by
  unfold Kind.declares? at h
  split at h
  case h_4 => cases h
  all_goals
    rename_i hkind
    exact quiet_of_kind (by rw [hkind]; rfl) (by simp [hkind])

theorem declares_inj {lines : LineIndex} {kind : DeclarationKind} {tokens : List Token} (h : Token.InOrder tokens)
    (hts : ts ⊆ tokens) (hus : us ⊆ tokens) : declares lines kind ts = declares lines kind us ↔ ts = us := by
  refine ⟨fun heq => ?_, fun heq => by rw [heq]⟩
  induction ts generalizing us with
  | nil => exact (List.map_eq_nil_iff.mp heq.symm).symm
  | cons t ts ih =>
    cases us with
    | nil => cases heq
    | cons u us =>
      obtain ⟨hhead, htail⟩ := List.cons.inj heq
      rw [List.cons_subset] at hts hus
      have hspan : t.span = u.span := congrArg Name.span (Event.declare.inj hhead).1
      rw [h.eq_of_start hts.1 hus.1 (congrArg Span.start hspan), ih hts.2 hus.2 htail]

end

end Walker

namespace Event

/-- A list of declarators declares exactly the names of its items, in order, where it is the first to
take these names, where no value but the last is cut off by a semicolon, and where every name that
stands directly behind a comma of a value is taken already. Without a substitution of a template there
are neither such semicolons nor such commas. -/
theorem declares_items_iff {source : String} {events : List Event} (h : ofSource source = .ok events)
    {front list after : List Token} {word stop : Token} {kind : DeclarationKind} {items : List Item}
    (tokens : Token.walked source = front ++ word :: (list ++ stop :: after))
    (isWord : word.kind.declares? = some kind) (bare : front.getLast?.any Token.isPoint = false)
    (listed : Listed Walker.IsDeclarator items list)
    (stops : stop.kind = .semicolon ∨ stop.kind.closesBracket = true) (unbroken : Walker.Unbroken word list) :
    ∃ walker step,
      Walker.Place.Reaches (LineIndex.ofChars source.toList) ⟨{}, none, Token.walked source⟩
        ⟨walker, front.getLast?, word :: (list ++ stop :: after)⟩ ∧
      walker.step (LineIndex.ofChars source.toList) front.getLast? word (list ++ stop :: after) = .ok step ∧
      step.events <:+: events ∧
      (step.events = Walker.declares (LineIndex.ofChars source.toList) kind (items.map Item.name) ↔
        (∀ item ∈ items, item.name.span.start ∉ walker.declared) ∧
          (∀ item ∈ items.dropLast, ¬Walker.CutsOff item.behind) ∧
            ∀ item ∈ items, ∀ t, Walker.Stray item.behind t → t.span.start ∈ walker.declared) := by
  obtain ⟨hts, settled, hrun⟩ := exists_run h
  have hname : word.isName = true := Walker.isName_of_isKeyword (Walker.isKeyword_of_declares isWord)
  obtain ⟨walker, hreach⟩ := hrun.exists_reaches tokens (Walker.isPoint_of_isName hname) fun hpoint => by
    rw [bare] at hpoint
    cases hpoint
  rw [Option.or_none] at hreach
  obtain ⟨step, hstep, hpart⟩ := hrun.exists_step hreach
  refine ⟨walker, step, hreach, hstep, hpart, ?_⟩
  have hquiet := Walker.quiet_of_declares isWord
  have hbehind : list ++ stop :: after ⊆ Token.walked source := by
    rw [tokens]
    exact List.subset_append_of_subset_right _ (List.subset_cons_self _ _)
  have hnodup : (list ++ stop :: after).Nodup := by
    have := hts.nodup
    rw [tokens] at this
    exact (List.nodup_cons.mp (List.nodup_append.mp this).2.1).2
  rw [Walker.step_of_declares isWord] at hstep
  cases hstep
  rw [Walker.declares_inj hts, Walker.undeclared_declarators_iff listed hquiet unbroken stops hnodup]
  · intro t ht
    exact hbehind (Walker.declarators_subset (fun _ => hquiet) t (Walker.mem_undeclared_iff.mp ht).1)
  · intro t ht
    exact hbehind (List.mem_append_left _ (listed.names_subset t ht))

theorem declares_items_bracketed :
    let source := "var a = [b, c];"
    let lines := LineIndex.ofChars source.toList
    let word : Token := ⟨.keyword .var, "var", ⟨0, 3⟩, false⟩
    let a : Token := ⟨.identifier "a", "a", ⟨4, 5⟩, false⟩
    let b : Token := ⟨.identifier "b", "b", ⟨9, 10⟩, false⟩
    let c : Token := ⟨.identifier "c", "c", ⟨12, 13⟩, false⟩
    let item : Item := ⟨[], a, [⟨.equal, "=", ⟨6, 7⟩, false⟩, ⟨.leftBracket, "[", ⟨8, 9⟩, false⟩, b,
      ⟨.comma, ",", ⟨10, 11⟩, false⟩, c, ⟨.rightBracket, "]", ⟨13, 14⟩, false⟩]⟩
    let rest := item.tokens ++ [⟨.semicolon, ";", ⟨14, 15⟩, false⟩]
    let events := [.declare (Walker.nameOf lines a) .var, .chain ⟨Walker.nameOf lines b, []⟩,
      .chain ⟨Walker.nameOf lines c, []⟩]
    Token.walked source = word :: rest ∧ ofSource source = .ok events ∧ ∃ walker step,
      Walker.Place.Reaches lines ⟨{}, none, Token.walked source⟩ ⟨walker, none, word :: rest⟩ ∧
      walker.step lines none word rest = .ok step ∧ step.events <:+: events ∧
      (step.events = Walker.declares lines .var [a] ↔ (∀ i ∈ [item], i.name.span.start ∉ walker.declared) ∧
        (∀ i ∈ [item].dropLast, ¬Walker.CutsOff i.behind) ∧
          ∀ i ∈ [item], ∀ t, Walker.Stray i.behind t → t.span.start ∈ walker.declared) := by
  intro source lines word a b c item rest events
  have hwalked : Token.walked source = [] ++ word :: rest := by decide +kernel
  have hevents : ofSource source = .ok events := by decide +kernel
  refine ⟨hwalked, hevents, declares_items_iff hevents hwalked rfl rfl
    (.last ⟨rfl, rfl, .inr ⟨_, item.behind.tail, rfl, rfl, ?_⟩⟩) (.inl rfl) (Walker.unbroken_of_ends ?_)⟩
  · decide +kernel
  · decide +kernel

/-- The comma in a substitution counts for one of the list. -/
theorem declares_items_substituted :
    let source := "var a = \x60$\x7bx, y\x7d\x60;"
    let lines := LineIndex.ofChars source.toList
    let word : Token := ⟨.keyword .var, "var", ⟨0, 3⟩, false⟩
    let a : Token := ⟨.identifier "a", "a", ⟨4, 5⟩, false⟩
    let x : Token := ⟨.identifier "x", "x", ⟨11, 12⟩, false⟩
    let y : Token := ⟨.identifier "y", "y", ⟨14, 15⟩, false⟩
    let item : Item := ⟨[], a, [⟨.equal, "=", ⟨6, 7⟩, false⟩,
      ⟨.template "", "\x60$\x7b", ⟨8, 11⟩, false⟩, x, ⟨.comma, ",", ⟨12, 13⟩, false⟩, y,
      ⟨.template "", "\x7d\x60", ⟨15, 17⟩, false⟩]⟩
    let rest := item.tokens ++ [⟨.semicolon, ";", ⟨17, 18⟩, false⟩]
    Token.walked source = word :: rest ∧ Listed Walker.IsDeclarator [item] item.tokens ∧
      Walker.Unbroken word item.tokens ∧
      ofSource source = .ok [.declare (Walker.nameOf lines a) .var, .declare (Walker.nameOf lines y) .var,
        .chain ⟨Walker.nameOf lines x, []⟩] ∧
      ∃ step, Walker.step {} lines none word rest = .ok step ∧ step.events ≠ Walker.declares lines .var [a] := by
  intro source lines word a x y item rest
  refine ⟨by decide +kernel, .last ⟨rfl, rfl, .inr ⟨_, item.behind.tail, rfl, rfl, by decide +kernel⟩⟩,
    Walker.unbroken_of_ends (by decide +kernel), by decide +kernel, _,
    Walker.step_of_declares (show word.kind.declares? = some .var from rfl), ?_⟩
  decide +kernel

end Event

end Nodeless
