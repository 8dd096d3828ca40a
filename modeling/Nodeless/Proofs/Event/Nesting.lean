import Nodeless.Proofs.Event.Announced

/-!
# Nesting

The walk counts brackets, and knows neither which bracket closes which nor the substitutions of a
template. Tokens that are balanced in both leave its counts as they were.
-/

namespace Nodeless

/-! ## Brackets as the walk counts them -/

theorem Kind.closesBracket_of_opensBracket {kind : Kind} (h : kind.opensBracket = true) :
    kind.closesBracket = false := by
  unfold Kind.opensBracket at h
  split at h <;> simp_all [Kind.closesBracket]

theorem Kind.opensBracket_of_closesBracket {kind : Kind} (h : kind.closesBracket = true) :
    kind.opensBracket = false := by
  unfold Kind.closesBracket at h
  split at h <;> simp_all [Kind.opensBracket]

/-- The brackets open behind the token, where `nesting` are open in front of it. -/
def Token.nestingBehind (t : Token) (nesting : Nat) : Nat :=
  if t.kind.opensBracket then nesting + 1 else if t.kind.closesBracket then nesting - 1 else nesting

def nestingAfter (nesting : Nat) (ts : List Token) : Nat := ts.foldl (fun n t => t.nestingBehind n) nesting

@[simp]
theorem nestingAfter_nil (nesting : Nat) : nestingAfter nesting [] = nesting := rfl

@[simp]
theorem nestingAfter_cons (nesting : Nat) (t : Token) (ts : List Token) :
    nestingAfter nesting (t :: ts) = nestingAfter (t.nestingBehind nesting) ts := rfl

@[simp]
theorem nestingAfter_append (nesting : Nat) (ts us : List Token) :
    nestingAfter nesting (ts ++ us) = nestingAfter (nestingAfter nesting ts) us :=
  List.foldl_append

theorem Token.nestingBehind_of_opens {t : Token} (h : t.kind.opensBracket = true) (nesting : Nat) :
    t.nestingBehind nesting = nesting + 1 := by
  rw [nestingBehind, if_pos h]

theorem Token.nestingBehind_of_plain {t : Token} (hopen : t.kind.opensBracket = false)
    (hclose : t.kind.closesBracket = false) (nesting : Nat) : t.nestingBehind nesting = nesting := by
  simp [nestingBehind, hopen, hclose]

/-! ## What stands open -/

/-- What tokens may stand in. -/
inductive Enclosure
  | paren
  | bracket
  | brace
  /-- The place between two chunks of a template. -/
  | substitution
  deriving DecidableEq, Repr

/-- Whether the chunk goes on with a template behind a substitution. -/
def Token.resumesTemplate (t : Token) : Bool := t.text.toList.head? = some '}'

/-- Whether a substitution follows the chunk. -/
def Token.opensSubstitution (t : Token) : Bool := ['$', '{'].isSuffixOf t.text.toList

def Enclosure.close? (e : Enclosure) : List Enclosure → Option (List Enclosure)
  | [] => none
  | f :: outer => if f = e then some outer else none

/-- What stands open behind the token, the innermost first, unless the token closes something else. -/
def Token.enclosing? (t : Token) (outer : List Enclosure) : Option (List Enclosure) :=
  match t.kind with
  | .leftParen => some (.paren :: outer)
  | .leftBracket => some (.bracket :: outer)
  | .leftBrace => some (.brace :: outer)
  | .rightParen => Enclosure.paren.close? outer
  | .rightBracket => Enclosure.bracket.close? outer
  | .rightBrace => Enclosure.brace.close? outer
  | .template _ =>
    let outer := if t.resumesTemplate then Enclosure.substitution.close? outer else some outer
    outer.map fun outer => if t.opensSubstitution then .substitution :: outer else outer
  | _ => some outer

def enclosing? (outer : List Enclosure) (ts : List Token) : Option (List Enclosure) :=
  ts.foldlM (fun outer t => t.enclosing? outer) outer

/-- Some tokens that are balanced in brackets and substitutions. No token outside of those is of one of
the kinds. -/
structure Enclosed (barred : List Kind) (ts : List Token) : Prop where
  nonempty : ts ≠ []
  balanced : enclosing? [] ts = some []
  outside : ∀ before t after, ts = before ++ t :: after → enclosing? [] before = some [] → t.kind ∉ barred

theorem enclosed_iff {barred : List Kind} {ts : List Token} : Enclosed barred ts ↔ ts ≠ [] ∧
    enclosing? [] ts = some [] ∧
      ∀ n : Fin ts.length, enclosing? [] (ts.take n) = some [] → (ts.get n).kind ∉ barred := by
  constructor
  · intro h
    refine ⟨h.nonempty, h.balanced, fun n hn => h.outside (ts.take n) (ts.get n) (ts.drop (n + 1)) ?_ hn⟩
    rw [List.get_eq_getElem, List.getElem_cons_drop, List.take_append_drop]
  · rintro ⟨hne, hbalanced, houtside⟩
    refine ⟨hne, hbalanced, ?_⟩
    rintro before t after rfl hbefore
    simpa [hbefore] using houtside ⟨before.length, by simp⟩

instance (barred : List Kind) (ts : List Token) : Decidable (Enclosed barred ts) :=
  decidable_of_iff _ enclosed_iff.symm

theorem enclosing?_append_eq_some_iff {outer inner : List Enclosure} {ts us : List Token} :
    enclosing? outer (ts ++ us) = some inner ↔ ∃ between, enclosing? outer ts = some between ∧
      enclosing? between us = some inner := by
  rw [enclosing?, List.foldlM_append]
  exact Option.bind_eq_some_iff

theorem enclosing?_cons_eq_some_iff {outer inner : List Enclosure} {t : Token} {ts : List Token} :
    enclosing? outer (t :: ts) = some inner ↔ ∃ between, t.enclosing? outer = some between ∧
      enclosing? between ts = some inner := by
  rw [enclosing?, List.foldlM_cons]
  exact Option.bind_eq_some_iff

theorem enclosing?_nil_eq_some_iff {outer inner : List Enclosure} :
    enclosing? outer [] = some inner ↔ outer = inner :=
  Option.some_inj

theorem Enclosure.close?_eq_some_iff {e : Enclosure} {outer inner : List Enclosure} :
    e.close? outer = some inner ↔ outer = e :: inner := by
  cases outer with
  | nil => simp [close?]
  | cons f outer => by_cases h : f = e <;> simp [close?, h]

/-! ## Counts -/

def Enclosure.brackets (es : List Enclosure) : Nat := es.countP (· ≠ .substitution)

/-- What one token does to what stands open. -/
inductive Token.Encloses (t : Token) : List Enclosure → List Enclosure → Prop
  | opens {outer : List Enclosure} (e : Enclosure) (bracket : e ≠ .substitution) (kind : t.kind.opensBracket = true)
      (paren : e = .paren ↔ t.kind = .leftParen) : Encloses t outer (e :: outer)
  | closes {inner : List Enclosure} (e : Enclosure) (bracket : e ≠ .substitution)
      (kind : t.kind.closesBracket = true) (paren : e = .paren ↔ t.kind = .rightParen) :
      Encloses t (e :: inner) inner
  | plain {outer : List Enclosure} (opens : t.kind.opensBracket = false) (closes : t.kind.closesBracket = false) :
      Encloses t outer outer
  /-- A chunk of a template. -/
  | chunk {outer inner : List Enclosure} {value : String} (kind : t.kind = .template value)
      (brackets : inner.filter (· ≠ .substitution) = outer.filter (· ≠ .substitution)) : Encloses t outer inner

theorem Token.encloses_of_enclosing? {t : Token} {outer inner : List Enclosure}
    (h : t.enclosing? outer = some inner) : t.Encloses outer inner := by
  unfold enclosing? at h
  split at h
  case h_1 hkind | h_2 hkind | h_3 hkind =>
    cases h
    exact .opens _ (by simp) (by simp [hkind, Kind.opensBracket]) (by simp [hkind])
  case h_4 hkind | h_5 hkind | h_6 hkind =>
    rw [Enclosure.close?_eq_some_iff] at h
    subst h
    exact .closes _ (by simp) (by simp [hkind, Kind.closesBracket]) (by simp [hkind])
  case h_7 hkind =>
    obtain ⟨between, hbetween, rfl⟩ := Option.map_eq_some_iff.mp h
    have hfilter : between.filter (· ≠ .substitution) = outer.filter (· ≠ .substitution) := by
      split at hbetween
      · rw [Enclosure.close?_eq_some_iff.mp hbetween]
        rfl
      · rw [Option.some_inj.mp hbetween]
    refine .chunk hkind ?_
    rw [← hfilter]
    split <;> rfl
  case h_8 =>
    cases h
    exact .plain (by unfold Kind.opensBracket; split <;> simp_all) (by unfold Kind.closesBracket; split <;> simp_all)

section

variable {outer inner : List Enclosure} {t : Token} {ts : List Token}

theorem Token.Encloses.nestingBehind (h : t.Encloses outer inner) (nesting : Nat) :
    t.nestingBehind (nesting + Enclosure.brackets outer) = nesting + Enclosure.brackets inner := by
  cases h with
  | opens e bracket kind => simp [Token.nestingBehind, kind, Enclosure.brackets, bracket, Nat.add_assoc]
  | closes e bracket kind =>
    simp [Token.nestingBehind, kind, Kind.opensBracket_of_closesBracket kind, Enclosure.brackets, bracket]
  | plain hopen hclose => rw [Token.nestingBehind_of_plain hopen hclose]
  | chunk kind brackets =>
    rw [Token.nestingBehind_of_plain (by simp [kind, Kind.opensBracket]) (by simp [kind, Kind.closesBracket]),
      Enclosure.brackets, Enclosure.brackets, List.countP_eq_length_filter, List.countP_eq_length_filter]
    exact congrArg (nesting + List.length ·) brackets.symm

theorem nestingAfter_of_enclosing? (h : enclosing? outer ts = some inner) (nesting : Nat) :
    nestingAfter (nesting + Enclosure.brackets outer) ts = nesting + Enclosure.brackets inner := by
  induction ts generalizing outer with
  | nil => rw [enclosing?_nil_eq_some_iff.mp h, nestingAfter_nil]
  | cons t ts ih =>
    obtain ⟨between, ht, hts⟩ := enclosing?_cons_eq_some_iff.mp h
    rw [nestingAfter_cons, (Token.encloses_of_enclosing? ht).nestingBehind, ih hts]

theorem nestingAfter_of_balanced (h : enclosing? [] ts = some []) (nesting : Nat) :
    nestingAfter nesting ts = nesting :=
  nestingAfter_of_enclosing? h nesting

theorem closesBracket_of_encloses (h : t.Encloses outer inner) (hnone : Enclosure.brackets outer = 0) :
    t.kind.closesBracket = false := by
  cases h with
  | opens e bracket kind => exact Kind.closesBracket_of_opensBracket kind
  | closes e bracket kind => simp [Enclosure.brackets, bracket] at hnone
  | plain _ hclose => exact hclose
  | chunk kind => simp [kind, Kind.closesBracket]

theorem not_mem_of_enclosing? (hplain : ∀ t ∈ ts, ∀ value, t.kind ≠ .template value)
    (houter : .substitution ∉ outer) (h : enclosing? outer ts = some inner) : .substitution ∉ inner := by
  induction ts generalizing outer with
  | nil => exact enclosing?_nil_eq_some_iff.mp h ▸ houter
  | cons t ts ih =>
    obtain ⟨between, ht, hmore⟩ := enclosing?_cons_eq_some_iff.mp h
    refine ih (fun u hu => hplain u (List.mem_cons_of_mem t hu)) ?_ hmore
    cases Token.encloses_of_enclosing? ht with
    | opens e bracket => simpa [bracket.symm] using houter
    | closes e bracket => exact fun hmem => houter (List.mem_cons_of_mem e hmem)
    | plain => exact houter
    | chunk kind => exact absurd kind (hplain t List.mem_cons_self _)

theorem enclosing?_eq_nil {before after : List Token} (h : enclosing? [] (before ++ after) = some inner)
    (hplain : ∀ t ∈ before, ∀ value, t.kind ≠ .template value) (hnesting : nestingAfter 0 before = 0) :
    enclosing? [] before = some [] := by
  obtain ⟨between, hbefore, -⟩ := enclosing?_append_eq_some_iff.mp h
  have hnone := not_mem_of_enclosing? hplain List.not_mem_nil hbefore
  have hcount := nestingAfter_of_enclosing? hbefore 0
  rw [show 0 + Enclosure.brackets [] = 0 from rfl, hnesting, Nat.zero_add, eq_comm] at hcount
  have hnil : between = [] := by
    refine List.eq_nil_iff_forall_not_mem.mpr fun e he => List.countP_eq_zero.mp hcount e he (decide_eq_true ?_)
    rintro rfl
    exact hnone he
  rw [hbefore, hnil]

end

/-! ## Parentheses -/

namespace Walker

theorem splitAtClose_of_deeper {depth : Nat} {t : Token} (h : t.kind = .rightParen → depth ≠ 0) (ts : List Token) :
    splitAtClose depth (t :: ts) = (splitAtClose (nest t depth) ts).map fun s => (t :: s.1, s.2) := by
  rw [splitAtClose.eq_def]
  unfold nest
  dsimp only
  split
  · exact absurd rfl (h (by assumption))
  · rename_i hclose
    simp [hclose]
  · rename_i hopen
    simp [hopen]
  · rename_i hopen hlast hdeeper
    have hclose : t.kind ≠ .rightParen := fun hkind =>
      (Nat.eq_zero_or_eq_succ_pred _).elim (hlast hkind) (hdeeper _ hkind)
    rw [if_neg hopen, if_neg hclose]

theorem splitAtClose_of_encloses {outer inner : List Enclosure} {t : Token} (h : t.Encloses outer inner)
    (depth : Nat) (ts : List Token) :
    splitAtClose (depth + outer.count .paren) (t :: ts) =
      (splitAtClose (depth + inner.count .paren) ts).map fun s => (t :: s.1, s.2) := by
  have hnest : (t.kind = .rightParen → depth + outer.count .paren ≠ 0) ∧
      nest t (depth + outer.count .paren) = depth + inner.count .paren := by
    unfold nest
    cases h with
    | opens e bracket kind paren =>
      have hclose : t.kind ≠ .rightParen := fun hkind => by simp [hkind, Kind.opensBracket] at kind
      by_cases he : e = .paren <;> simp [hclose, he, ← paren, Nat.add_assoc]
    | closes e bracket kind paren =>
      have hopen : t.kind ≠ .leftParen := fun hkind => by simp [hkind, Kind.closesBracket] at kind
      by_cases he : e = .paren <;> simp [hopen, he, ← paren, ← Nat.add_assoc]
    | plain hopen hclose =>
      have hopen : t.kind ≠ .leftParen := fun hkind => by simp [hkind, Kind.opensBracket] at hopen
      have hclose : t.kind ≠ .rightParen := fun hkind => by simp [hkind, Kind.closesBracket] at hclose
      simp [hopen, hclose]
    | chunk kind brackets =>
      have hcount : outer.count .paren = inner.count .paren := by
        rw [← List.count_filter (p := (· ≠ .substitution)) (by simp), ← brackets, List.count_filter (by simp)]
      simp [kind, hcount]
  rw [splitAtClose_of_deeper hnest.1, hnest.2]

theorem splitAtClose_of_enclosing? {outer inner : List Enclosure} {ts : List Token}
    (h : enclosing? outer ts = some inner) (depth : Nat) (us : List Token) :
    splitAtClose (depth + outer.count .paren) (ts ++ us) =
      (splitAtClose (depth + inner.count .paren) us).map fun s => (ts ++ s.1, s.2) := by
  induction ts generalizing outer with
  | nil =>
    rw [enclosing?_nil_eq_some_iff.mp h]
    simp
  | cons t ts ih =>
    obtain ⟨between, ht, hts⟩ := enclosing?_cons_eq_some_iff.mp h
    rw [List.cons_append, splitAtClose_of_encloses (Token.encloses_of_enclosing? ht), ih hts, Option.map_map]
    rfl

theorem splitAtClose_of_balanced {inside after : List Token} {close : Token} (h : enclosing? [] inside = some [])
    (hclose : close.kind = .rightParen) : splitAtClose 0 (inside ++ close :: after) = some (inside, after) := by
  have hsplit : splitAtClose 0 (close :: after) = some ([], after) := by simp [splitAtClose, hclose]
  have hall := splitAtClose_of_enclosing? h 0 (close :: after)
  rw [show 0 + [].count Enclosure.paren = 0 from rfl, hsplit] at hall
  simpa using hall

end Walker

end Nodeless
