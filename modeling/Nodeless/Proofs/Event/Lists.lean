import Nodeless.Proofs.Event.Nesting

/-!
# Lists of names

Where in the tokens ahead a declaration list and a parameter list have their names, and how the items
of such a list are written.
-/

namespace Nodeless

/-! ## Items -/

/-- An item of a list: its name, with what stands in front of it and behind it in the item. -/
structure Item where
  front : List Token := []
  name : Token
  behind : List Token := []
  deriving DecidableEq, Repr

def Item.tokens (item : Item) : List Token := item.front ++ item.name :: item.behind

/-- The tokens are those of the items, with commas between them. -/
inductive Listed (shape : Item → Prop) : List Item → List Token → Prop
  | last {item : Item} : shape item → Listed shape [item] item.tokens
  | more {item : Item} {items : List Item} {comma : Token} {ts : List Token} : shape item → comma.kind = .comma →
      Listed shape items ts → Listed shape (item :: items) (item.tokens ++ comma :: ts)

theorem Listed.ne_nil {shape : Item → Prop} {items : List Item} {list : List Token} (h : Listed shape items list) :
    items ≠ [] := by
  cases h <;> simp

theorem Listed.names_subset {shape : Item → Prop} {items : List Item} {list : List Token}
    (h : Listed shape items list) : ∀ t ∈ items.map Item.name, t ∈ list := by
  induction h with
  | last => simp [Item.tokens]
  | more _ _ _ ih =>
    rw [List.map_cons]
    refine List.forall_mem_cons.mpr ⟨by simp [Item.tokens], fun t ht => ?_⟩
    exact List.mem_append_right _ (List.mem_cons_of_mem _ (ih t ht))

theorem Listed.mem_of_mem_behind {shape : Item → Prop} {items : List Item} {list : List Token}
    (h : Listed shape items list) {item : Item} (hitem : item ∈ items) {u : Token} (hu : u ∈ item.behind) :
    u ∈ list := by
  induction h with
  | last =>
    rw [List.mem_singleton.mp hitem] at hu
    exact List.mem_append_right _ (List.mem_cons_of_mem _ hu)
  | more _ _ _ ih =>
    rcases List.mem_cons.mp hitem with rfl | hitem
    · exact List.mem_append_left _ (List.mem_append_right _ (List.mem_cons_of_mem _ hu))
    · exact List.mem_append_right _ (List.mem_cons_of_mem _ (ih hitem))

theorem Listed.not_mem_names {shape : Item → Prop} {items : List Item} {list : List Token}
    (h : Listed shape items list) (hnodup : list.Nodup) :
    ∀ item ∈ items, ∀ u ∈ item.behind, u ∉ items.map Item.name := by
  have hitem {item : Item} (hnodup : item.tokens.Nodup) : ∀ u ∈ item.behind, u ≠ item.name := by
    rintro u hu rfl
    exact (List.nodup_cons.mp (List.nodup_append.mp hnodup).2.1).1 hu
  induction h with
  | last _ =>
    rw [List.forall_mem_singleton]
    intro u hu hmem
    exact hitem hnodup u hu (List.mem_singleton.mp hmem)
  | @more item items comma ts _ _ hlisted ih =>
    obtain ⟨hfirst, hrest, hapart⟩ := List.nodup_append.mp hnodup
    have hname : item.name ∈ item.tokens := by simp [Item.tokens]
    rw [List.forall_mem_cons, List.map_cons]
    refine ⟨fun u hu hmem => ?_, fun other hother u hu hmem => ?_⟩
    · rcases List.mem_cons.mp hmem with rfl | hmem
      · exact hitem hfirst _ hu rfl
      · have hin : u ∈ item.tokens := List.mem_append_right _ (List.mem_cons_of_mem _ hu)
        exact hapart u hin u (List.mem_cons_of_mem _ (hlisted.names_subset u hmem)) rfl
    · rcases List.mem_cons.mp hmem with rfl | hmem
      · exact hapart _ hname _ (List.mem_cons_of_mem _ (hlisted.mem_of_mem_behind hother hu)) rfl
      · exact ih (List.nodup_cons.mp hrest).2 other hother u hu hmem

/-- An equal sign and a value. -/
def IsValue (barred : List Kind) (ts : List Token) : Prop :=
  ∃ equal value, ts = equal :: value ∧ equal.kind = .equal ∧ Enclosed barred value

theorem IsValue.balanced {barred : List Kind} {ts : List Token} (h : IsValue barred ts) :
    enclosing? [] ts = some [] := by
  obtain ⟨equal, value, rfl, hequal, hvalue⟩ := h
  refine enclosing?_cons_eq_some_iff.mpr ⟨[], ?_, hvalue.balanced⟩
  simp [Token.enclosing?, hequal]

theorem IsValue.not_mem_barred {barred : List Kind} {before after : List Token} {t : Token}
    (h : IsValue barred (before ++ t :: after)) (hequal : .equal ∉ barred)
    (hbefore : enclosing? [] before = some []) :
    t.kind ∉ barred := by
  obtain ⟨equal, value, hsplit, hkind, hvalue⟩ := h
  cases before with
  | nil =>
    obtain ⟨rfl, -⟩ := List.cons.inj hsplit
    rwa [hkind]
  | cons u before =>
    obtain ⟨rfl, rfl⟩ := List.cons.inj hsplit
    obtain ⟨between, hu, hmore⟩ := enclosing?_cons_eq_some_iff.mp hbefore
    have hnil : between = [] := by simpa [Token.enclosing?, hkind] using hu.symm
    exact hvalue.outside before t after rfl (hnil ▸ hmore)

namespace Walker

theorem getLastD_append (t : Token) (ts us : List Token) :
    (ts ++ us).getLastD t = us.getLastD (ts.getLastD t) := by
  induction ts generalizing t with
  | nil => rfl
  | cons u ts ih => rw [List.cons_append, List.getLastD_cons, List.getLastD_cons, ih]

/-! ## Declaration lists -/

/-- Whether a list ends at the token, where `nesting` brackets are open and `prev` is the token before
it. -/
def endsAt (prev : Token) (nesting : Nat) (t : Token) : Bool :=
  nesting = 0 && (endsStatement prev t || t.kind.closesBracket || t.kind = .semicolon)

/-- Whether a list ends among the tokens. -/
def ends (prev : Token) (nesting : Nat) : List Token → Bool
  | [] => false
  | t :: ts => endsAt prev nesting t || ends t (t.nestingBehind nesting) ts

/-- Whether a list that has not ended is at the start of an item behind the tokens, where `atStart` says
whether it is in front of them. -/
def awaits (nesting : Nat) (atStart : Bool) : List Token → Bool
  | [] => atStart
  | t :: ts => awaits (t.nestingBehind nesting) (t.kind = .comma && nesting = 0) ts

/-- The list that starts behind the word reads a name behind the tokens. -/
def Awaits (word : Token) (before : List Token) : Prop := ends word 0 before = false ∧ awaits 0 true before = true

/-- No statement ends behind a token after which an operand comes. -/
def Quiet (t : Token) : Prop := ∀ next, endsStatement t next = false

section

variable {prev t comma : Token} {nesting : Nat} {atStart : Bool} {ts us before after : List Token}

theorem quiet_of_kind (hallows : t.kind.allowsRegExpAfter = true) (hbrace : t.kind ≠ .rightBrace) : Quiet t := by
  intro next
  simp [endsStatement, hallows, hbrace]

theorem quiet_of_comma (h : (t.kind = .comma && nesting = 0) = true) : Quiet t := by
  rw [Bool.and_eq_true, decide_eq_true_eq] at h
  exact quiet_of_kind (by rw [h.1]; rfl) (by simp [h.1])

theorem quiet_of_false (h : false = true) : Quiet prev := nomatch h

theorem declarators_cons (hquiet : atStart = true → Quiet prev) :
    declarators prev nesting atStart (t :: ts) = (if atStart && t.isIdentifier then [t] else []) ++
      if endsAt prev nesting t then []
      else declarators t (t.nestingBehind nesting) (t.kind = .comma && nesting = 0) ts := by
  have hends : (!atStart && decide (nesting = 0) && endsStatement prev t) = true ↔
      nesting = 0 ∧ endsStatement prev t = true := by
    cases atStart with
    | false => simp
    | true => simp [hquiet rfl t]
  have hstart : endsStatement prev t = true → atStart = false := by
    intro h
    refine Bool.eq_false_iff.mpr fun hstart => ?_
    rw [hquiet hstart t] at h
    cases h
  rw [declarators]
  simp only [hends, endsAt]
  by_cases hbreak : endsStatement prev t = true
  · by_cases hnesting : nesting = 0
    · simp [hbreak, hnesting, hstart hbreak]
    · by_cases hopen : t.kind.opensBracket = true
      · simp [hnesting, hopen, Token.nestingBehind]
      · by_cases hclose : t.kind.closesBracket = true
        · simp [hnesting, hopen, hclose, Token.nestingBehind]
        · simp [hnesting, hopen, hclose, Token.nestingBehind]
  · by_cases hopen : t.kind.opensBracket = true
    · have hcomma : t.kind ≠ .comma := fun hkind => by simp [hkind, Kind.opensBracket] at hopen
      have hsemicolon : t.kind ≠ .semicolon := fun hkind => by simp [hkind, Kind.opensBracket] at hopen
      simp [hbreak, hopen, hcomma, hsemicolon, Kind.closesBracket_of_opensBracket hopen, Token.nestingBehind]
    · by_cases hclose : t.kind.closesBracket = true
      · have hcomma : t.kind ≠ .comma := fun hkind => by simp [hkind, Kind.closesBracket] at hclose
        by_cases hnesting : nesting = 0 <;> simp [hbreak, hopen, hclose, hnesting, hcomma, Token.nestingBehind]
      · by_cases hnesting : nesting = 0 <;> by_cases hsemicolon : t.kind = .semicolon <;>
          simp_all [Token.nestingBehind]

theorem declarators_append (hquiet : atStart = true → Quiet prev) :
    declarators prev nesting atStart (ts ++ us) = declarators prev nesting atStart ts ++
      if ends prev nesting ts then []
      else declarators (ts.getLastD prev) (nestingAfter nesting ts) (awaits nesting atStart ts) us := by
  induction ts generalizing prev nesting atStart with
  | nil => rfl
  | cons t ts ih =>
    rw [List.cons_append, declarators_cons hquiet, declarators_cons hquiet, ih quiet_of_comma, ends, awaits,
      nestingAfter_cons, List.getLastD_cons]
    cases hend : endsAt prev nesting t with
    | true => simp
    | false => simp

theorem quiet_of_awaits (hquiet : atStart = true → Quiet prev) (h : awaits nesting atStart before = true) :
    Quiet (before.getLastD prev) := by
  induction before generalizing prev nesting atStart with
  | nil => exact hquiet h
  | cons u before ih =>
    rw [List.getLastD_cons]
    exact ih quiet_of_comma h

theorem mem_declarators_iff (hquiet : atStart = true → Quiet prev) :
    t ∈ declarators prev nesting atStart ts ↔
      ∃ before after, ts = before ++ t :: after ∧ t.isIdentifier = true ∧
        ends prev nesting before = false ∧ awaits nesting atStart before = true := by
  constructor
  · intro h
    induction ts generalizing prev nesting atStart with
    | nil => cases h
    | cons u ts ih =>
      rw [declarators_cons hquiet, List.mem_append] at h
      rcases h with h | h
      · split at h
        · rename_i hfound
          rw [Bool.and_eq_true] at hfound
          rw [List.mem_singleton.mp h]
          exact ⟨[], ts, rfl, hfound.2, rfl, hfound.1⟩
        · cases h
      · split at h
        · cases h
        · rename_i hend
          obtain ⟨before, after, rfl, hname, hends, hawaits⟩ := ih quiet_of_comma h
          refine ⟨u :: before, after, rfl, hname, ?_, hawaits⟩
          rw [ends, hends, Bool.or_false]
          exact Bool.eq_false_iff.mpr hend
  · rintro ⟨before, after, rfl, hname, hends, hawaits⟩
    rw [declarators_append hquiet, hends, hawaits, List.mem_append, if_neg Bool.false_ne_true,
      declarators_cons fun _ => quiet_of_awaits hquiet hawaits, hname]
    exact .inr (List.mem_append_left _ List.mem_cons_self)

theorem awaits_cons_iff : awaits nesting atStart (t :: before) = true ↔
    ∃ more comma, t :: before = more ++ [comma] ∧ comma.kind = .comma ∧ nestingAfter nesting more = 0 := by
  induction before generalizing nesting atStart t with
  | nil =>
    rw [awaits, awaits, Bool.and_eq_true, decide_eq_true_eq, decide_eq_true_eq]
    constructor
    · rintro ⟨hcomma, hnesting⟩
      exact ⟨[], t, rfl, hcomma, hnesting⟩
    · rintro ⟨more, comma, hsplit, hcomma, hnesting⟩
      obtain ⟨rfl, rfl⟩ : more = [] ∧ comma = t := by
        cases more with
        | nil => exact ⟨rfl, (List.cons.inj hsplit).1.symm⟩
        | cons u more => simp at hsplit
      exact ⟨hcomma, hnesting⟩
  | cons u before ih =>
    rw [awaits, ih]
    constructor
    · rintro ⟨more, comma, hsplit, hcomma, hnesting⟩
      exact ⟨t :: more, comma, by rw [hsplit]; rfl, hcomma, hnesting⟩
    · rintro ⟨more, comma, hsplit, hcomma, hnesting⟩
      cases more with
      | nil => simp at hsplit
      | cons v more =>
        obtain rfl := (List.cons.inj hsplit).1
        exact ⟨more, comma, (List.cons.inj hsplit).2, hcomma, hnesting⟩

theorem awaits_iff : awaits nesting atStart before = true ↔ before = [] ∧ atStart = true ∨
    ∃ more comma, before = more ++ [comma] ∧ comma.kind = .comma ∧ nestingAfter nesting more = 0 := by
  cases before with
  | nil => simp [awaits]
  | cons t before =>
    rw [awaits_cons_iff]
    simp

theorem nestingAfter_of_awaits (h : awaits 0 atStart before = true) : nestingAfter 0 before = 0 := by
  rcases awaits_iff.mp h with ⟨rfl, -⟩ | ⟨more, comma, rfl, hcomma, hnesting⟩
  · rfl
  · rw [nestingAfter_append, hnesting]
    simp [Token.nestingBehind, hcomma, Kind.opensBracket, Kind.closesBracket]

theorem ends_append : ends prev nesting (ts ++ us) =
    (ends prev nesting ts || ends (ts.getLastD prev) (nestingAfter nesting ts) us) := by
  induction ts generalizing prev nesting with
  | nil => rfl
  | cons t ts ih => rw [List.cons_append, ends, ends, ih, nestingAfter_cons, List.getLastD_cons, Bool.or_assoc]

theorem ends_iff : ends prev nesting ts = true ↔ ∃ before t after, ts = before ++ t :: after ∧
    nestingAfter nesting before = 0 ∧
      (endsStatement (before.getLastD prev) t = true ∨ t.kind.closesBracket = true ∨ t.kind = .semicolon) := by
  induction ts generalizing prev nesting with
  | nil => simp [ends]
  | cons u ts ih =>
    rw [ends, Bool.or_eq_true, ih]
    simp only [endsAt, Bool.and_eq_true, Bool.or_eq_true, decide_eq_true_eq, or_assoc]
    constructor
    · rintro (⟨hnesting, hend⟩ | ⟨before, t, after, rfl, hnesting, hend⟩)
      · exact ⟨[], u, ts, rfl, hnesting, hend⟩
      · exact ⟨u :: before, t, after, rfl, hnesting, by rwa [List.getLastD_cons]⟩
    · rintro ⟨before, t, after, hsplit, hnesting, hend⟩
      cases before with
      | nil =>
        obtain ⟨rfl, -⟩ := List.cons.inj hsplit
        exact .inl ⟨hnesting, hend⟩
      | cons v before =>
        obtain ⟨rfl, rfl⟩ := List.cons.inj hsplit
        rw [List.getLastD_cons] at hend
        exact .inr ⟨before, t, after, rfl, hnesting, hend⟩

/-! ## Parameter lists -/

/-- Whether a parameter may stand behind the token. -/
def startsItem (prev : Token) : Bool := prev.kind = .leftParen || prev.kind = .comma || prev.kind = .ellipsis

/-- Whether a parameter may stand in front of the tokens. -/
def endsName (after : List Token) : Bool := after.isEmpty || startsWith .comma after || startsWith .equal after

theorem parameters_cons : parameters prev nesting (t :: ts) =
    (if t.isIdentifier && nesting = 0 && startsItem prev && endsName ts then [t] else []) ++
      parameters t (t.nestingBehind nesting) ts := by
  have hbracket (h : t.kind.opensBracket = true ∨ t.kind.closesBracket = true) : t.isIdentifier = false := by
    unfold Kind.opensBracket Kind.closesBracket at h
    refine Bool.eq_false_iff.mpr fun hname => ?_
    obtain ⟨text, hkind⟩ := exists_identifier hname
    simp [hkind] at h
  rw [parameters]
  by_cases hopen : t.kind.opensBracket = true
  · simp [hopen, hbracket (.inl hopen), Token.nestingBehind]
  · by_cases hclose : t.kind.closesBracket = true
    · simp [hopen, hclose, hbracket (.inr hclose), Token.nestingBehind]
    · rw [if_neg hopen, if_neg hclose]
      dsimp only
      rw [Token.nestingBehind_of_plain (by simpa using hopen) (by simpa using hclose), startsItem, endsName]
      split <;> rfl

theorem mem_parameters_iff : t ∈ parameters prev nesting ts ↔ ∃ before after, ts = before ++ t :: after ∧
    t.isIdentifier = true ∧ nestingAfter nesting before = 0 ∧ startsItem (before.getLastD prev) = true ∧
      endsName after = true := by
  induction ts generalizing prev nesting with
  | nil => simp [parameters]
  | cons u ts ih =>
    rw [parameters_cons, List.mem_append, ih]
    constructor
    · rintro (h | ⟨before, after, rfl, hname, hnesting, hstarts, hends⟩)
      · split at h
        · rename_i hfound
          simp only [Bool.and_eq_true, decide_eq_true_eq] at hfound
          rw [List.mem_singleton.mp h]
          exact ⟨[], ts, rfl, hfound.1.1.1, hfound.1.1.2, hfound.1.2, hfound.2⟩
        · cases h
      · exact ⟨u :: before, after, rfl, hname, hnesting, by rwa [List.getLastD_cons], hends⟩
    · rintro ⟨before, after, hsplit, hname, hnesting, hstarts, hends⟩
      cases before with
      | nil =>
        obtain ⟨rfl, rfl⟩ := List.cons.inj hsplit
        rw [nestingAfter_nil] at hnesting
        rw [show List.getLastD [] prev = prev from rfl] at hstarts
        exact .inl (by simp [hname, hnesting, hstarts, hends])
      | cons v before =>
        obtain ⟨rfl, rfl⟩ := List.cons.inj hsplit
        rw [List.getLastD_cons] at hstarts
        exact .inr ⟨before, after, rfl, hname, hnesting, hstarts, hends⟩

end

end Walker

end Nodeless
