import Mathlib.Data.List.Basic
import Mathlib.Data.List.Nodup
import Nodeless.Proofs.Event.Chains

/-!
# Bare names

An identifier is bare unless it is a property, that is, unless the token before it is a point. The
names that the walk finds by looking ahead are bare, and those that it skips are not, so the bare
names that no declaration holds yet can be counted from step to step.
-/

namespace Nodeless

/-- Whether a name behind the token is a property. -/
def Token.isPoint (t : Token) : Bool := t.kind = .dot || t.kind = .questionDot

def Token.isBrace (t : Token) : Bool := t.kind = .leftBrace || t.kind = .rightBrace

theorem Token.InOrder.starts_lt {ts : List Token} (h : InOrder ts) :
    ts.Pairwise fun a b => a.span.start < b.span.start := by
  refine h.ordered.imp_of_mem ?_
  intro a b ha _ hab
  have := h.nonempty a ha
  omega

theorem Token.InOrder.eq_of_start {ts : List Token} (h : InOrder ts) {a b : Token} (ha : a ∈ ts) (hb : b ∈ ts)
    (hab : a.span.start = b.span.start) : a = b := by
  have hinj := List.inj_on_of_nodup_map (List.nodup_iff_pairwise_ne.mpr (List.pairwise_map.mpr
    (h.starts_lt.imp fun hlt => Nat.ne_of_lt hlt)))
  exact hinj ha hb hab

theorem Token.InOrder.nodup {ts : List Token} (h : InOrder ts) : ts.Nodup :=
  h.starts_lt.imp fun hlt heq => by simp [heq] at hlt

namespace Walker

/-- The identifiers among the tokens that are no properties, where `prev` is the token before them. -/
def bareNames (prev : Option Token) : List Token → List Token
  | [] => []
  | t :: ts =>
    if t.isIdentifier && !prev.any Token.isPoint then t :: bareNames (some t) ts else bareNames (some t) ts

theorem bareNames_sublist (prev : Option Token) (ts : List Token) : (bareNames prev ts).Sublist ts := by
  induction ts generalizing prev with
  | nil => exact .slnil
  | cons t ts ih =>
    rw [bareNames]
    split
    · exact (ih _).cons_cons t
    · exact (ih _).cons t

theorem getLast?_cons_or (t : Token) (ts : List Token) (prev : Option Token) :
    (t :: ts).getLast?.or prev = ts.getLast?.or (some t) := by
  rw [List.getLast?_cons]
  cases ts.getLast? <;> rfl

theorem bareNames_append (prev : Option Token) (ts us : List Token) :
    bareNames prev (ts ++ us) = bareNames prev ts ++ bareNames (ts.getLast?.or prev) us := by
  induction ts generalizing prev with
  | nil => rfl
  | cons t ts ih =>
    rw [List.cons_append, bareNames, bareNames, ih, getLast?_cons_or]
    split <;> rfl

theorem mem_bareNames_iff {prev : Option Token} {ts : List Token} {t : Token} :
    t ∈ bareNames prev ts ↔ ∃ before after, ts = before ++ t :: after ∧ t.isIdentifier = true ∧
      (before.getLast?.or prev).any Token.isPoint = false := by
  constructor
  · intro h
    induction ts generalizing prev with
    | nil => cases h
    | cons u ts ih =>
      have hbehind : t ∈ bareNames (some u) ts → ∃ before after, u :: ts = before ++ t :: after ∧
          t.isIdentifier = true ∧ (before.getLast?.or prev).any Token.isPoint = false := by
        intro h
        obtain ⟨before, after, rfl, hname, hbare⟩ := ih h
        exact ⟨u :: before, after, rfl, hname, by rwa [getLast?_cons_or]⟩
      rw [bareNames] at h
      split at h
      · rename_i hu
        rcases List.mem_cons.mp h with rfl | h
        · rw [Bool.and_eq_true, Bool.not_eq_true'] at hu
          exact ⟨[], ts, rfl, hu⟩
        · exact hbehind h
      · exact hbehind h
  · rintro ⟨before, after, rfl, hname, hbare⟩
    rw [bareNames_append, bareNames, hname, hbare]
    simp

/-! ## Names found by looking ahead -/

theorem bareNames_cons (prev : Option Token) (t : Token) (ts : List Token) :
    (bareNames (some t) ts).Sublist (bareNames prev (t :: ts)) := by
  rw [bareNames]
  split
  · exact List.sublist_cons_self _ _
  · exact .refl _

theorem bareNames_cons_of_name {prev : Option Token} {t : Token} (hname : t.isIdentifier = true)
    (hprev : prev.any Token.isPoint = false) (ts : List Token) :
    bareNames prev (t :: ts) = t :: bareNames (some t) ts := by
  rw [bareNames, hname, hprev]
  rfl

theorem parameters_sublist (prev : Token) (nesting : Nat) (ts : List Token) :
    (parameters prev nesting ts).Sublist (bareNames (some prev) ts) := by
  induction ts generalizing prev nesting with
  | nil => exact .slnil
  | cons t ts ih =>
    have hskip (nesting : Nat) := (ih t nesting).trans (bareNames_cons (some prev) t ts)
    rw [parameters]
    split
    · exact hskip _
    split
    · exact hskip _
    dsimp only
    split
    · rename_i h
      simp only [Bool.and_eq_true, Bool.or_eq_true, decide_eq_true_eq] at h
      have hprev : (some prev).any Token.isPoint = false := by
        rcases h.1.2 with (h | h) | h <;> simp [Token.isPoint, h]
      rw [bareNames_cons_of_name h.1.1.1 hprev]
      exact (ih t nesting).cons_cons t
    · exact hskip _

theorem declarators_sublist {prev : Token} {nesting : Nat} {atStart : Bool} {ts : List Token}
    (hprev : atStart = true → prev.isPoint = false) :
    (declarators prev nesting atStart ts).Sublist (bareNames (some prev) ts) := by
  induction ts generalizing prev nesting atStart with
  | nil => exact .slnil
  | cons t ts ih =>
    have hfound {more : List Token} (hmore : more.Sublist (bareNames (some t) ts)) :
        ((if atStart && t.isIdentifier then [t] else []) ++ more).Sublist (bareNames (some prev) (t :: ts)) := by
      split
      · rename_i h
        rw [Bool.and_eq_true] at h
        have hbare : (some prev).any Token.isPoint = false := hprev h.1
        rw [bareNames_cons_of_name h.2 hbare]
        exact hmore.cons_cons t
      · exact hmore.trans (bareNames_cons (some prev) t ts)
    rw [declarators]
    split
    · exact List.nil_sublist _
    split
    · exact hfound (ih (by simp))
    split
    · split
      · simpa using hfound (List.nil_sublist _)
      · exact hfound (ih (by simp))
    split
    · simpa using hfound (List.nil_sublist _)
    · refine hfound (ih ?_)
      intro h
      simp only [Bool.and_eq_true, decide_eq_true_eq] at h
      simp [Token.isPoint, h.1]

def firstName (ts : List Token) : List Token := (ts.take 1).filter Token.isIdentifier

theorem firstName_append (ts : List Token) : firstName ts ++ ts.drop (firstName ts).length = ts := by
  cases ts with
  | nil => rfl
  | cons t ts => cases hname : t.isIdentifier <;> simp [firstName, hname]

theorem firstName_bare {prev : Option Token} (hprev : prev.any Token.isPoint = false) (ts : List Token) :
    (firstName ts).Sublist (bareNames prev (firstName ts)) := by
  cases ts with
  | nil => exact .slnil
  | cons t ts => cases hname : t.isIdentifier <;> simp [firstName, hname, bareNames, hprev]

theorem firstName_sublist {prev : Option Token} (hprev : prev.any Token.isPoint = false) (ts : List Token) :
    (firstName ts).Sublist (bareNames prev ts) := by
  have hsub := (firstName_bare hprev ts).trans
    (List.sublist_append_left _ (bareNames ((firstName ts).getLast?.or prev) (ts.drop (firstName ts).length)))
  rwa [← bareNames_append, firstName_append] at hsub

/-! ## Names that are skipped -/

theorem bareNames_of_point {t : Token} {ts : List Token} (ht : t.isPoint = true)
    (h : ts.head?.any Token.isName = true) :
    bareNames (some t) ts = bareNames ts.head? (ts.drop 1) := by
  cases ts with
  | nil => cases h
  | cons u ts => simp [bareNames, ht]

theorem bareNames_drop_members (t : Token) (ts : List Token) :
    bareNames (some t) ts =
      bareNames (t :: ts)[2 * (members ts).length]? (ts.drop (2 * (members ts).length)) := by
  fun_induction members ts generalizing t with
  | case1 point u ts h ih =>
    rw [Bool.and_eq_true, decide_eq_true_eq] at h
    have hpoint : point.isPoint = true := by simp [Token.isPoint, h.1]
    have hname : point.isIdentifier = false := by simp [Token.isIdentifier, Kind.isIdentifier, h.1]
    have hskip : bareNames (some t) (point :: u :: ts) = bareNames (some u) ts := by
      simp [bareNames, hname, hpoint]
    rw [hskip, ih u, List.length_cons, Nat.mul_add]
    rfl
  | case2 => rfl
  | case3 => rfl

/-! ## Names that no declaration holds -/

/-- The tokens that are not taken as declarations. -/
def undeclared (walker : Walker) (ts : List Token) : List Token :=
  ts.filter fun t => !walker.declared.contains t.span.start

theorem mem_undeclared_iff {walker : Walker} {ts : List Token} {t : Token} :
    t ∈ walker.undeclared ts ↔ t ∈ ts ∧ t.span.start ∉ walker.declared := by
  simp [undeclared]

/-- The walker with the tokens taken as declarations. -/
def mark (walker : Walker) (ts : List Token) : Walker :=
  { walker with declared := (walker.undeclared ts).map (·.span.start) ++ walker.declared }

theorem mem_declared_mark {walker : Walker} {ts : List Token} {n : Nat} :
    n ∈ (walker.mark ts).declared ↔ (∃ t ∈ ts, t.span.start = n) ∨ n ∈ walker.declared := by
  simp only [mark, List.mem_append, List.mem_map, mem_undeclared_iff]
  constructor
  · rintro (⟨t, ⟨ht, -⟩, rfl⟩ | hn)
    · exact .inl ⟨t, ht, rfl⟩
    · exact .inr hn
  · rintro (⟨t, ht, rfl⟩ | hn)
    · by_cases hdeclared : t.span.start ∈ walker.declared
      · exact .inr hdeclared
      · exact .inl ⟨t, ⟨ht, hdeclared⟩, rfl⟩
    · exact .inr hn

theorem undeclared_perm {walker : Walker} {found names : List Token} (hsub : found.Sublist names)
    (hnames : Token.InOrder names) :
    (walker.undeclared names).Perm (walker.undeclared found ++ (walker.mark found).undeclared names) := by
  -- No name stands twice on either side, so it is enough to compare the members.
  have hnodup := hnames.nodup
  have hleft : (walker.undeclared names).Nodup := hnodup.sublist List.filter_sublist
  have hright : (walker.undeclared found ++ (walker.mark found).undeclared names).Nodup := by
    refine List.nodup_append.mpr
      ⟨(hnodup.sublist hsub).sublist List.filter_sublist, hnodup.sublist List.filter_sublist, ?_⟩
    rintro a ha b hb rfl
    have ha := (mem_undeclared_iff.mp ha).1
    exact (mem_undeclared_iff.mp hb).2 (mem_declared_mark.mpr (.inl ⟨a, ha, rfl⟩))
  refine (List.perm_ext_iff_of_nodup hleft hright).mpr ?_
  intro a
  simp only [List.mem_append, mem_undeclared_iff, mem_declared_mark, not_or, not_exists, not_and]
  constructor
  · rintro ⟨hmem, hfree⟩
    by_cases hfound : a ∈ found
    · exact .inl ⟨hfound, hfree⟩
    · refine .inr ⟨hmem, ?_, hfree⟩
      intro t ht hstart
      exact hfound (hnames.eq_of_start (hsub.subset ht) hmem hstart ▸ ht)
  · rintro (⟨hmem, hfree⟩ | ⟨hmem, -, hfree⟩)
    · exact ⟨hsub.subset hmem, hfree⟩
    · exact ⟨hmem, hfree⟩

end Walker

end Nodeless
