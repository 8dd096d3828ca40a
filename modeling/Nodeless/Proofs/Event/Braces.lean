import Mathlib.Data.List.Basic
import Nodeless.Proofs.Event.Settled
import Nodeless.Proofs.Token.Defect

/-!
# Sources that are refused

A source is refused when a token of it is invalid or a brace of it has no partner. The walk counts
open braces only, so the partners are found here in the text: two braces are partners when what
stands between them is balanced. An open substitution of a template is no reason to refuse a source,
even where the source ends.
-/

namespace Nodeless

/-! ## Balanced tokens -/

inductive Balanced : List Token → Prop
  | nil : Balanced []
  | plain {t : Token} {ts : List Token} : t.isBrace = false → Balanced ts → Balanced (t :: ts)
  | nest {o c : Token} {inner ts : List Token} : o.kind = .leftBrace → c.kind = .rightBrace → Balanced inner →
      Balanced ts → Balanced (o :: (inner ++ c :: ts))

theorem Balanced.append {ts us : List Token} (hts : Balanced ts) (hus : Balanced us) : Balanced (ts ++ us) := by
  induction hts with
  | nil => exact hus
  | plain ht _ ih => exact .plain ht ih
  | nest ho hc hinner _ _ ih =>
    rw [List.cons_append, List.append_assoc, List.cons_append]
    exact .nest ho hc hinner ih

/-- A closing brace behind the tokens closes one of them. -/
def ClosesOne (before : List Token) : Prop :=
  ∃ outer o inner, before = outer ++ o :: inner ∧ o.kind = .leftBrace ∧ Balanced inner

/-- An opening brace in front of the tokens is closed by one of them. -/
def ClosedByOne (after : List Token) : Prop :=
  ∃ inner c outer, after = inner ++ c :: outer ∧ c.kind = .rightBrace ∧ Balanced inner

/-- A closing brace among the tokens closes nothing. -/
def HasUnopened (ts : List Token) : Prop :=
  ∃ before t after, ts = before ++ t :: after ∧ t.kind = .rightBrace ∧ ¬ClosesOne before

/-- An opening brace among the tokens is never closed. -/
def HasUnclosed (ts : List Token) : Prop :=
  ∃ before t after, ts = before ++ t :: after ∧ t.kind = .leftBrace ∧ ¬ClosedByOne after

/-! ## Counting -/

/-- The tokens close as many braces as are open in front of them, and all of their own. -/
def Closes : Nat → List Token → Prop
  | depth, [] => depth = 0
  | depth, t :: ts =>
    if t.kind = .leftBrace then Closes (depth + 1) ts
    else if t.kind = .rightBrace then 0 < depth ∧ Closes (depth - 1) ts
    else Closes depth ts

def decideCloses : (depth : Nat) → (ts : List Token) → Decidable (Closes depth ts)
  | depth, [] => inferInstanceAs (Decidable (depth = 0))
  | depth, t :: ts =>
    have := decideCloses (depth + 1) ts
    have := decideCloses (depth - 1) ts
    have := decideCloses depth ts
    inferInstanceAs (Decidable (if t.kind = .leftBrace then Closes (depth + 1) ts
      else if t.kind = .rightBrace then 0 < depth ∧ Closes (depth - 1) ts
      else Closes depth ts))

instance (depth : Nat) (ts : List Token) : Decidable (Closes depth ts) := decideCloses depth ts

section

variable {depth : Nat} {t : Token} {ts : List Token}

theorem closes_leftBrace (h : t.kind = .leftBrace) : Closes depth (t :: ts) ↔ Closes (depth + 1) ts := by
  simp [Closes, h]

theorem closes_rightBrace (h : t.kind = .rightBrace) :
    Closes depth (t :: ts) ↔ 0 < depth ∧ Closes (depth - 1) ts := by
  simp [Closes, h]

theorem closes_plain (h : t.isBrace = false) : Closes depth (t :: ts) ↔ Closes depth ts := by
  simp only [Token.isBrace, Bool.or_eq_false_iff, decide_eq_false_iff_not] at h
  simp [Closes, h]

theorem brace_cases (t : Token) : t.kind = .leftBrace ∨ t.kind = .rightBrace ∨ t.isBrace = false := by
  by_cases hopen : t.kind = .leftBrace
  · exact .inl hopen
  by_cases hclose : t.kind = .rightBrace
  · exact .inr (.inl hclose)
  · exact .inr (.inr (by simp [Token.isBrace, hopen, hclose]))

end

theorem closes_append_plain {us : List Token} (h : ∀ u ∈ us, u.isBrace = false) (depth : Nat) (ts : List Token) :
    Closes depth (us ++ ts) ↔ Closes depth ts := by
  induction us with
  | nil => rfl
  | cons u us ih =>
    rw [List.cons_append, closes_plain (h u List.mem_cons_self)]
    exact ih fun v hv => h v (List.mem_cons_of_mem _ hv)

theorem Balanced.closes_append {us : List Token} (h : Balanced us) (depth : Nat) (ts : List Token) :
    Closes depth (us ++ ts) ↔ Closes depth ts := by
  induction h generalizing depth ts with
  | nil => rfl
  | plain ht _ ih =>
    rw [List.cons_append, closes_plain ht]
    exact ih depth ts
  | nest ho hc _ _ ihinner ih =>
    rw [List.cons_append, closes_leftBrace ho, List.append_assoc, List.cons_append, ihinner, closes_rightBrace hc,
      Nat.add_sub_cancel, ih]
    exact and_iff_right (Nat.succ_pos depth)

theorem Balanced.closes {us : List Token} (h : Balanced us) : Closes 0 us := by
  have := (h.closes_append 0 []).mpr rfl
  rwa [List.append_nil] at this

theorem Closes.closedByOne {depth : Nat} {ts : List Token} (h : Closes (depth + 1) ts) :
    ∃ inner c outer, ts = inner ++ c :: outer ∧ c.kind = .rightBrace ∧ Balanced inner ∧ Closes depth outer := by
  induction hn : ts.length using Nat.strongRecOn generalizing depth ts with
  | ind n ih =>
    subst hn
    cases ts with
    | nil => cases h
    | cons t ts =>
      rcases brace_cases t with hopen | hclose | hplain
      · rw [closes_leftBrace hopen] at h
        -- The brace has its own partner first, and the one looked for stands behind that.
        obtain ⟨inner, c, rest, rfl, hc, hinner, hrest⟩ := ih ts.length (by simp) h rfl
        obtain ⟨inner', c', outer, rfl, hc', hinner', houter⟩ := ih rest.length (by simp; omega) hrest rfl
        exact ⟨t :: (inner ++ c :: inner'), c', outer, by simp, hc', .nest hopen hc hinner hinner', houter⟩
      · rw [closes_rightBrace hclose] at h
        exact ⟨[], t, ts, rfl, hclose, .nil, h.2⟩
      · rw [closes_plain hplain] at h
        obtain ⟨inner, c, outer, rfl, hc, hinner, houter⟩ := ih ts.length (by simp) h rfl
        exact ⟨t :: inner, c, outer, rfl, hc, .plain hplain hinner, houter⟩

/-! ## Partners -/

/-- The tokens read so far leave `depth` braces open, and what stands behind each is balanced. -/
inductive LeavesOpen : Nat → List Token → Prop
  | none {ts : List Token} : Balanced ts → LeavesOpen 0 ts
  | more {depth : Nat} {ts inner : List Token} {o : Token} : LeavesOpen depth ts → o.kind = .leftBrace →
      Balanced inner → LeavesOpen (depth + 1) (ts ++ o :: inner)

theorem LeavesOpen.append {depth : Nat} {ts us : List Token} (h : LeavesOpen depth ts) (hus : Balanced us) :
    LeavesOpen depth (ts ++ us) := by
  cases h with
  | none hts => exact .none (hts.append hus)
  | more hts ho hinner =>
    rw [List.append_assoc, List.cons_append]
    exact .more hts ho (hinner.append hus)

theorem LeavesOpen.close {depth : Nat} {ts : List Token} {c : Token} (h : LeavesOpen (depth + 1) ts)
    (hc : c.kind = .rightBrace) : LeavesOpen depth (ts ++ [c]) := by
  cases h with
  | more hts ho hinner =>
    rw [List.append_assoc, List.cons_append]
    exact hts.append (.nest ho hc hinner .nil)

theorem LeavesOpen.closesOne {depth : Nat} {ts : List Token} (h : LeavesOpen (depth + 1) ts) : ClosesOne ts := by
  cases h with
  | more _ ho hinner => exact ⟨_, _, _, rfl, ho, hinner⟩

theorem LeavesOpen.read {depth : Nat} {ts us rest : List Token} (h : LeavesOpen depth ts)
    (hcloses : Closes depth (us ++ rest)) : ∃ depth', LeavesOpen depth' (ts ++ us) ∧ Closes depth' rest := by
  induction us generalizing depth ts with
  | nil => exact ⟨depth, by rwa [List.append_nil], hcloses⟩
  | cons u us ih =>
    rw [List.cons_append] at hcloses
    rw [List.append_cons]
    rcases brace_cases u with hopen | hclose | hplain
    · exact ih (.more h hopen .nil) ((closes_leftBrace hopen).mp hcloses)
    · obtain ⟨hpos, hcloses⟩ := (closes_rightBrace hclose).mp hcloses
      obtain ⟨depth, rfl⟩ := Nat.exists_eq_add_one_of_ne_zero (Nat.ne_of_gt hpos)
      exact ih (h.close hclose) hcloses
    · exact ih (h.append (.plain hplain .nil)) ((closes_plain hplain).mp hcloses)

theorem Balanced.not_closesOne {ts : List Token} (h : Balanced ts) : ¬ClosesOne ts := by
  rintro ⟨outer, o, inner, rfl, ho, hinner⟩
  obtain ⟨depth, -, hcloses⟩ := (LeavesOpen.none .nil).read h.closes
  have hend := (hinner.closes_append (depth + 1) []).mp (by
    rw [List.append_nil]
    exact (closes_leftBrace ho).mp hcloses)
  exact Nat.succ_ne_zero depth hend

theorem Balanced.not_closedByOne {ts : List Token} (h : Balanced ts) : ¬ClosedByOne ts := by
  rintro ⟨inner, c, outer, rfl, hc, hinner⟩
  have hcloses := (hinner.closes_append 0 (c :: outer)).mp h.closes
  exact Nat.lt_irrefl 0 ((closes_rightBrace hc).mp hcloses).1

theorem Closes.not_unpaired {ts : List Token} (h : Closes 0 ts) : ¬(HasUnopened ts ∨ HasUnclosed ts) := by
  rintro (⟨before, t, after, rfl, ht, hopen⟩ | ⟨before, t, after, rfl, ht, hclosed⟩)
  · obtain ⟨depth, hleft, hcloses⟩ := (LeavesOpen.none .nil).read h
    obtain ⟨hpos, -⟩ := (closes_rightBrace ht).mp hcloses
    obtain ⟨depth, rfl⟩ := Nat.exists_eq_add_one_of_ne_zero (Nat.ne_of_gt hpos)
    exact hopen hleft.closesOne
  · obtain ⟨depth, -, hcloses⟩ := (LeavesOpen.none .nil).read h
    obtain ⟨inner, c, outer, hafter, hc, hinner, -⟩ := ((closes_leftBrace ht).mp hcloses).closedByOne
    exact hclosed ⟨inner, c, outer, hafter, hc, hinner⟩

theorem LeavesOpen.unpaired {depth : Nat} {ts us : List Token} (h : LeavesOpen depth ts)
    (hcloses : ¬Closes depth us) : HasUnopened (ts ++ us) ∨ HasUnclosed (ts ++ us) := by
  induction us generalizing depth ts with
  | nil =>
    -- At the end, a brace that is left open has no partner.
    cases h with
    | none => exact absurd rfl hcloses
    | more _ ho hinner => exact .inr ⟨_, _, _, List.append_nil _, ho, hinner.not_closedByOne⟩
  | cons u us ih =>
    rcases brace_cases u with hopen | hclose | hplain
    · rw [List.append_cons]
      exact ih (.more h hopen .nil) fun hrest => hcloses ((closes_leftBrace hopen).mpr hrest)
    · cases depth with
      | zero =>
        cases h with
        | none hts => exact .inl ⟨ts, u, us, rfl, hclose, hts.not_closesOne⟩
      | succ depth =>
        rw [List.append_cons]
        exact ih (h.close hclose) fun hrest => hcloses ((closes_rightBrace hclose).mpr ⟨Nat.succ_pos _, hrest⟩)
    · rw [List.append_cons]
      exact ih (h.append (.plain hplain .nil)) fun hrest => hcloses ((closes_plain hplain).mpr hrest)

theorem not_closes_iff (ts : List Token) : ¬Closes 0 ts ↔ HasUnopened ts ∨ HasUnclosed ts := by
  constructor
  · exact fun h => (LeavesOpen.none .nil).unpaired h
  · exact fun h hcloses => hcloses.not_unpaired h

/-! ## The walk -/

namespace Walker

section

variable {walker : Walker} {lines : LineIndex} {prev : Option Token} {t : Token} {rest : List Token} {step : Step}

theorem events_ok_of_step (h : walker.step lines prev t rest = .ok step) :
    (∃ events, Walker.events lines walker prev (t :: rest) = .ok events) ↔
      ∃ more, Walker.events lines step.walker (t :: rest)[step.skip]? (rest.drop step.skip) = .ok more := by
  constructor
  · rintro ⟨events, hevents⟩
    obtain ⟨step', more, hstep, hmore, -⟩ := events_cons_eq_ok_iff.mp hevents
    rw [h] at hstep
    cases hstep
    exact ⟨more, hmore⟩
  · rintro ⟨more, hmore⟩
    exact ⟨_, events_cons_eq_ok_iff.mpr ⟨step, more, h, hmore, rfl⟩⟩

end

theorem events_ok_iff (lines : LineIndex) (walker : Walker) (prev : Option Token) (ts : List Token) :
    (∃ events, Walker.events lines walker prev ts = .ok events) ↔ Closes walker.depth ts := by
  induction hn : ts.length using Nat.strongRecOn generalizing walker prev ts with
  | ind n ih =>
    subst hn
    cases ts with
    | nil =>
      rw [Walker.events, Closes]
      split <;> simp_all
    | cons t rest =>
      have hlt (k : Nat) : (rest.drop k).length < (t :: rest).length := by
        rw [List.length_drop, List.length_cons]
        omega
      rcases brace_cases t with hopen | hclose | hplain
      · have hstep : walker.step lines prev t rest = .ok (walker.openBrace t) := by simp [Walker.step, hopen]
        rw [events_ok_of_step hstep, closes_leftBrace hopen]
        exact ih _ (hlt 0) _ _ _ rfl
      · rw [closes_rightBrace hclose]
        by_cases hdepth : walker.depth = 0
        · have hstep : walker.step lines prev t rest = .error (.unexpectedBrace (lines.position t.span.start)) := by
            simp [Walker.step, hclose, hdepth]
          rw [Walker.events, hstep, hdepth]
          simp [bind, Except.bind]
        · have hstep : walker.step lines prev t rest =
              .ok { walker := { walker with depth := walker.depth - 1 }, events := [.exit t.span] } := by
            simp [Walker.step, hclose, hdepth]
          rw [events_ok_of_step hstep, and_iff_right (Nat.pos_of_ne_zero hdepth)]
          exact ih _ (hlt 0) _ _ _ rfl
      · have hclose : t.kind ≠ .rightBrace := by
          intro hkind
          simp [Token.isBrace, hkind] at hplain
        -- What the step skips holds no brace, so it counts for nothing.
        obtain ⟨step, hstep⟩ := @exists_step walker lines prev t rest fun hkind => absurd hkind hclose
        have hturn := turn_of_step hstep
        have hsplit := closes_append_plain hturn.isBrace_of_mem_skipped walker.depth (rest.drop step.skip)
        rw [List.take_append_drop] at hsplit
        rw [events_ok_of_step hstep, closes_plain hplain, hsplit, ← hturn.depth_eq hplain]
        exact ih _ (hlt step.skip) _ _ _ rfl

end Walker

/-! ## Refused sources -/

theorem closes_filter_eof (depth : Nat) (ts : List Token) :
    Closes depth (ts.filter fun t => t.kind ≠ .eof) ↔ Closes depth ts := by
  induction ts generalizing depth with
  | nil => rfl
  | cons t ts ih =>
    by_cases heof : t.kind = .eof
    · have hplain : t.isBrace = false := by simp [Token.isBrace, heof]
      rw [List.filter_cons_of_neg (by simp [heof]), closes_plain hplain]
      exact ih depth
    · rw [List.filter_cons_of_pos (by simp [heof])]
      unfold Closes
      simp only [ih]

namespace Event

/-- A source is refused for a defect that its lexer comes to, or for a brace without a partner. -/
theorem ofSource_fails_iff (source : String) :
    (∃ e, ofSource source = .error e) ↔
      (∃ place, (Lexer.ofChars source.toList).Reaches place ∧ place.Defective) ∨
        HasUnopened (Token.ofSource source) ∨ HasUnclosed (Token.ofSource source) := by
  rw [← Lexer.exists_invalid_iff, ← not_closes_iff, ← closes_filter_eof,
    ← Walker.events_ok_iff (LineIndex.ofChars source.toList) {} none]
  unfold ofSource
  dsimp only
  have hfound : (∃ t ∈ (Lexer.ofChars source.toList).tokens, t.kind = .invalid) ↔
      ((Token.ofSource source).find? fun t => t.kind = .invalid).isSome = true := by
    rw [List.find?_isSome]
    simp [Token.ofSource]
  rw [hfound]
  split
  · rename_i hfind
    simp [hfind]
  · rename_i hfind
    rw [hfind]
    simp only [Option.isSome_none, Bool.false_eq_true, false_or]
    cases Walker.events (LineIndex.ofChars source.toList) {} none
        ((Token.ofSource source).filter fun t => t.kind ≠ .eof) with
    | error e => simp
    | ok events => simp

/-- The substitution that the source leaves open is not noticed. -/
theorem ofSource_open_substitution :
    ofSource "\x60$\x7b" = .ok [] ∧
      ∃ place, (Lexer.ofChars "\x60$\x7b".toList).Reaches place ∧ place.next.1.kind = .eof ∧
        place.context.substitutions = [0] := by
  refine ⟨by decide +kernel, (Lexer.ofChars "\x60$\x7b".toList).next.2, .single ⟨?_, ?_, rfl⟩, ?_, ?_⟩
  all_goals decide +kernel

end Event

end Nodeless
