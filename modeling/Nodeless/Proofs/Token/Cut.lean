import Nodeless.Token.Gap
import Nodeless.Token.Lexeme

/-!
# What the end of the text cuts

Strings, patterns, templates and comments that stop before their own mark. Each is a body in which
nothing ends it, and then a place where it cannot go on.
-/

namespace Nodeless

/-! ## Bodies -/

/-- A body, and behind it a place where the piece stops. -/
def Cut (Body Stop : List Char → Prop) (cs : List Char) : Prop :=
  ∃ body stop, cs = body ++ stop ∧ Body body ∧ Stop stop

theorem Cut.of_stop {Body Stop : List Char → Prop} {cs : List Char} (hbody : Body []) (h : Stop cs) :
    Cut Body Stop cs :=
  ⟨[], cs, rfl, hbody, h⟩

theorem Cut.behind {Body Body' Stop : List Char → Prop} {cs : List Char} (read : List Char)
    (h : Cut Body Stop cs) (hread : ∀ body stop, cs = body ++ stop → Body body → Body' (read ++ body)) :
    Cut Body' Stop (read ++ cs) := by
  obtain ⟨body, stop, hcs, hbody, hstop⟩ := h
  exact ⟨read ++ body, stop, by simp [hcs], hread body stop hcs hbody, hstop⟩

namespace Piece

@[simp]
theorem ending_after (text value : List Char) (piece : Piece) :
    (piece.after text value).ending = piece.ending := rfl

/-! ## Strings -/

/-- A string between its quotes. A backslash takes the next character with it. -/
inductive StringBody (quote : Char) : List Char → Prop
  | nil : StringBody quote []
  | plain {c : Char} {cs : List Char} : c ≠ quote → c ≠ '\\' → c ≠ '\n' → StringBody quote cs →
      StringBody quote (c :: cs)
  | escape {c : Char} {cs : List Char} : StringBody quote cs → StringBody quote ('\\' :: c :: cs)

/-- The end of the text, or of the line. -/
def StringStop (cs : List Char) : Prop := cs = [] ∨ cs = ['\\'] ∨ cs.head? = some '\n'

/-- What stands behind the quote of a string that is not closed. -/
abbrev CutString (quote : Char) : List Char → Prop := Cut (StringBody quote) StringStop

section

variable {quote : Char} (hquote : quote ≠ '\\')

include hquote

theorem ending_string_body {body : List Char} (h : StringBody quote body) (stop : List Char) :
    (string quote (body ++ stop)).ending = (string quote stop).ending := by
  induction h with
  | nil => rfl
  | plain hc hslash hline _ ih =>
    rw [List.cons_append, string.eq_def]
    simp [hc, hslash, hline, ih]
  | escape _ ih =>
    rw [List.cons_append, List.cons_append, string.eq_def]
    simp [hquote.symm, ih]

theorem ending_string_stop {stop : List Char} (h : StringStop stop) : (string quote stop).ending = .cut := by
  rcases h with rfl | rfl | h
  · rfl
  · rw [string.eq_def]
    simp [hquote.symm]
  · obtain ⟨cs, rfl⟩ := List.head?_eq_some_iff.mp h
    rw [string.eq_def]
    simp

theorem ending_string_ne_complete_iff (cs : List Char) :
    (string quote cs).ending ≠ .complete ↔ CutString quote cs := by
  constructor
  · intro h
    fun_induction string quote cs with
    | case1 => exact .of_stop .nil (.inl rfl)
    | case2 cs => exact .of_stop .nil (.inr (.inr rfl))
    | case3 cs => exact absurd rfl h
    | case4 => exact .of_stop .nil (.inr (.inl rfl))
    | case5 c d ds _ ih => exact (ih h).behind ['\\', c] fun _ _ _ hbody => .escape hbody
    | case6 c cs hline hc hslash ih => exact (ih h).behind [c] fun _ _ _ hbody => .plain hc hslash hline hbody
  · rintro ⟨body, stop, rfl, hbody, hstop⟩
    rw [ending_string_body hquote hbody, ending_string_stop hquote hstop]
    decide

end

/-! ## Patterns -/

/-- Whether what stands behind the character is in a class. -/
def classBehind (inClass : Bool) (c : Char) : Bool :=
  if c = '[' then true else if c = ']' then false else inClass

/-- A pattern between its slashes, where `inClass` tells whether it starts in a class. No line feed
stands in it, not even behind a backslash. -/
inductive PatternBody : Bool → List Char → Prop
  | nil {inClass : Bool} : PatternBody inClass []
  | plain {inClass : Bool} {c : Char} {cs : List Char} : c ≠ '\n' → c ≠ '\\' → (c = '/' → inClass = true) →
      PatternBody (classBehind inClass c) cs → PatternBody inClass (c :: cs)
  | escape {inClass : Bool} {c : Char} {cs : List Char} : c ≠ '\n' → PatternBody inClass cs →
      PatternBody inClass ('\\' :: c :: cs)

/-- The end of the text, or of the line. -/
def PatternStop (cs : List Char) : Prop := StringStop cs ∨ ['\\', '\n'] <+: cs

/-- What stands behind the first slash of a pattern that is not closed. -/
abbrev CutPattern (inClass : Bool) : List Char → Prop := Cut (PatternBody inClass) PatternStop

theorem ending_pattern_body {inClass : Bool} {body stop : List Char} (h : PatternBody inClass body)
    (hstop : ∀ inClass, (pattern inClass stop).ending = .cut) : (pattern inClass (body ++ stop)).ending = .cut := by
  induction h with
  | nil => exact hstop _
  | @plain inClass c cs hline hslash hclass _ ih =>
    rw [List.cons_append, pattern.eq_def]
    have hgoes : ¬(c = '/' && !inClass) = true := by
      intro h
      simp only [Bool.and_eq_true, decide_eq_true_eq, Bool.not_eq_true'] at h
      exact Bool.false_ne_true (h.2.symm.trans (hclass h.1))
    dsimp only
    rw [if_neg hline, if_neg hgoes, if_neg hslash]
    exact ih
  | escape hline _ ih =>
    rw [List.cons_append, List.cons_append, pattern.eq_def]
    simp [hline, ih]

theorem ending_pattern_stop {stop : List Char} (h : PatternStop stop) (inClass : Bool) :
    (pattern inClass stop).ending = .cut := by
  rcases h with (rfl | rfl | h) | ⟨cs, rfl⟩
  · rfl
  · rw [pattern.eq_def]
    simp
  · obtain ⟨cs, rfl⟩ := List.head?_eq_some_iff.mp h
    rw [pattern.eq_def]
    simp
  · rw [List.cons_append, List.cons_append, pattern.eq_def]
    simp

theorem ending_pattern_ne_complete_iff (inClass : Bool) (cs : List Char) :
    (pattern inClass cs).ending ≠ .complete ↔ CutPattern inClass cs := by
  constructor
  · intro h
    fun_induction pattern inClass cs with
    | case1 => exact .of_stop .nil (.inl (.inl rfl))
    | case2 => exact .of_stop .nil (.inl (.inr (.inr rfl)))
    | case3 => exact absurd rfl h
    | case4 => exact .of_stop .nil (.inl (.inr (.inl rfl)))
    | case5 inClass ds => exact .of_stop .nil (.inr ⟨ds, rfl⟩)
    | case6 inClass d ds hline _ _ ih =>
      exact (ih h).behind ['\\', d] fun _ _ _ hbody => .escape hline hbody
    | case7 inClass c cs hline hgoes hslash inside ih =>
      refine (ih h).behind [c] fun _ _ _ hbody => .plain hline hslash ?_ hbody
      intro hc
      simpa [hc] using hgoes
  · rintro ⟨body, stop, rfl, hbody, hstop⟩
    rw [ending_pattern_body hbody (ending_pattern_stop hstop)]
    decide

/-! ## Templates -/

/-- A chunk of a template between its marks. -/
inductive TemplateBody : List Char → Prop
  | nil : TemplateBody []
  | plain {c : Char} {cs : List Char} : c ≠ '\x60' → c ≠ '\\' → ¬(c = '$' ∧ cs.head? = some '{') →
      TemplateBody cs → TemplateBody (c :: cs)
  | escape {c : Char} {cs : List Char} : TemplateBody cs → TemplateBody ('\\' :: c :: cs)

def TemplateStop (cs : List Char) : Prop := cs = [] ∨ cs = ['\\']

/-- What stands behind the opening mark of a chunk that is not closed. -/
abbrev CutTemplate : List Char → Prop := Cut TemplateBody TemplateStop

theorem template_plain {c : Char} {cs : List Char} (hmark : c ≠ '\x60') (hslash : c ≠ '\\')
    (hopens : ¬(c = '$' ∧ cs.head? = some '{')) : template (c :: cs) = (template cs).after [c] [c] := by
  rw [template.eq_def]
  split
  case h_1 h => cases h
  case h_2 h => exact absurd (List.cons.inj h).1 hmark
  case h_3 h =>
    obtain ⟨hc, hcs⟩ := List.cons.inj h
    exact absurd ⟨hc, by rw [hcs]; rfl⟩ hopens
  case h_4 h => exact absurd (List.cons.inj h).1 hslash
  case h_5 h => exact absurd (List.cons.inj h).1 hslash
  case h_6 h =>
    obtain ⟨rfl, rfl⟩ := List.cons.inj h
    rfl

theorem ending_template_body {body stop : List Char} (h : TemplateBody body) (hstop : TemplateStop stop) :
    (template (body ++ stop)).ending = .cut := by
  induction h with
  | nil => rcases hstop with rfl | rfl <;> rfl
  | @plain c cs hmark hslash hopens _ ih =>
    have hopens : ¬(c = '$' ∧ (cs ++ stop).head? = some '{') := by
      rw [List.head?_append]
      rcases hstop with rfl | rfl <;> cases cs <;> simp_all
    rw [List.cons_append, template_plain hmark hslash hopens]
    exact ih
  | escape _ ih =>
    rw [List.cons_append, List.cons_append, template]
    exact ih

theorem ending_template_eq_cut_iff (cs : List Char) : (template cs).ending = .cut ↔ CutTemplate cs := by
  constructor
  · intro h
    fun_induction template cs with
    | case1 => exact .of_stop .nil (.inl rfl)
    | case2 => cases h
    | case3 => cases h
    | case4 => exact .of_stop .nil (.inr rfl)
    | case5 d cs ih => exact (ih h).behind ['\\', d] fun _ _ _ hbody => .escape hbody
    | case6 c cs hmark hopens hlast hescape ih =>
      have hslash : c ≠ '\\' := by
        intro hc
        cases cs with
        | nil => exact hlast hc rfl
        | cons d cs => exact hescape d cs hc rfl
      refine (ih h).behind [c] fun body stop heq hbody => .plain hmark hslash ?_ hbody
      rintro ⟨hc, hhead⟩
      obtain ⟨ds, rfl⟩ := List.head?_eq_some_iff.mp hhead
      exact hopens (ds ++ stop) hc heq
  · rintro ⟨body, stop, rfl, hbody, hstop⟩
    exact ending_template_body hbody hstop

end Piece

/-! ## Gaps -/

/-- The end of a block comment stands in the text. -/
abbrev ClosesComment (cs : List Char) : Prop := ['*', '/'] <:+: cs

/-- A text that starts with a comment. -/
def StartsComment (cs : List Char) : Prop := ['/', '/'] <+: cs ∨ ['/', '*'] <+: cs

theorem not_startsComment_of_ne {c : Char} {cs : List Char} (hc : c ≠ '/') : ¬StartsComment (c :: cs) := by
  rintro (hfront | hfront)
  · exact hc (List.cons_prefix_cons.mp hfront).1.symm
  · exact hc (List.cons_prefix_cons.mp hfront).1.symm

/-- Blanks and comments, each of them whole. -/
inductive Skipped : List Char → Prop
  | nil : Skipped []
  | blank {c : Char} {gap : List Char} : Text.isBlank c = true → Skipped gap → Skipped (c :: gap)
  | line {body gap : List Char} {c : Char} : (∀ d ∈ body, Text.endsLine d = false) → Text.endsLine c = true →
      Skipped gap → Skipped ('/' :: '/' :: (body ++ c :: gap))
  | block {body gap : List Char} : ¬ClosesComment (body ++ ['*']) → Skipped gap →
      Skipped ('/' :: '*' :: (body ++ '*' :: '/' :: gap))

/-- What can stand behind a gap: nothing, a comment that the text ends in, or a lexeme. -/
inductive Halts : List Char → Prop
  | nil : Halts []
  | line {body : List Char} : (∀ d ∈ body, Text.endsLine d = false) → Halts ('/' :: '/' :: body)
  | block {body : List Char} : ¬ClosesComment body → Halts ('/' :: '*' :: body)
  | lexeme {c : Char} {cs : List Char} : Text.isBlank c = false → ¬StartsComment (c :: cs) → Halts (c :: cs)

theorem ClosesComment.first {cs : List Char} (h : ClosesComment cs) :
    ∃ body rest, cs = body ++ '*' :: '/' :: rest ∧ ¬ClosesComment (body ++ ['*']) := by
  induction cs with
  | nil => exact absurd (List.infix_nil.mp h) (List.cons_ne_nil _ _)
  | cons c cs ih =>
    by_cases hfront : ['*', '/'] <+: c :: cs
    · obtain ⟨rest, hrest⟩ := hfront
      exact ⟨[], rest, hrest.symm, by decide⟩
    · obtain ⟨body, rest, rfl, hbody⟩ := ih ((List.infix_cons_iff.mp h).resolve_left hfront)
      refine ⟨c :: body, rest, rfl, ?_⟩
      intro hclose
      rcases List.infix_cons_iff.mp hclose with hclose | hclose
      · apply hfront
        have := hclose.trans (List.prefix_append (c :: (body ++ ['*'])) ('/' :: rest))
        simpa using this
      · exact hbody hclose

theorem exists_endsLine (cs : List Char) :
    (∀ d ∈ cs, Text.endsLine d = false) ∨
      ∃ body c rest, cs = body ++ c :: rest ∧ (∀ d ∈ body, Text.endsLine d = false) ∧
        Text.endsLine c = true := by
  induction cs with
  | nil => exact .inl (by simp)
  | cons c cs ih =>
    cases hc : Text.endsLine c with
    | true => exact .inr ⟨[], c, cs, rfl, by simp, hc⟩
    | false =>
      rcases ih with hall | ⟨body, d, rest, rfl, hbody, hd⟩
      · exact .inl (List.forall_mem_cons.mpr ⟨hc, hall⟩)
      · exact .inr ⟨c :: body, d, rest, rfl, List.forall_mem_cons.mpr ⟨hc, hbody⟩, hd⟩

theorem exists_skipped (cs : List Char) : ∃ gap start, cs = gap ++ start ∧ Skipped gap ∧ Halts start := by
  induction hn : cs.length using Nat.strongRecOn generalizing cs with
  | ind n ih =>
    subst hn
    by_cases hline : ['/', '/'] <+: cs
    · obtain ⟨rest, rfl⟩ := hline
      rcases exists_endsLine rest with hall | ⟨body, c, rest, rfl, hbody, hc⟩
      · exact ⟨[], _, rfl, .nil, .line hall⟩
      · obtain ⟨gap, start, rfl, hgap, hstart⟩ := ih rest.length (by simp; omega) rest rfl
        exact ⟨_, start, by simp, .line hbody hc hgap, hstart⟩
    by_cases hblock : ['/', '*'] <+: cs
    · obtain ⟨rest, rfl⟩ := hblock
      by_cases hclose : ClosesComment rest
      · obtain ⟨body, rest, rfl, hbody⟩ := hclose.first
        obtain ⟨gap, start, rfl, hgap, hstart⟩ := ih rest.length (by simp; omega) rest rfl
        exact ⟨_, start, by simp, .block hbody hgap, hstart⟩
      · exact ⟨[], _, rfl, .nil, .block hclose⟩
    cases cs with
    | nil => exact ⟨[], [], rfl, .nil, .nil⟩
    | cons c rest =>
      cases hblank : Text.isBlank c with
      | true =>
        obtain ⟨gap, start, rfl, hgap, hstart⟩ := ih rest.length (by simp) rest rfl
        exact ⟨c :: gap, start, rfl, .blank hblank hgap, hstart⟩
      | false => exact ⟨[], c :: rest, rfl, .nil, .lexeme hblank (not_or.mpr ⟨hline, hblock⟩)⟩

namespace Gap

@[simp]
theorem closed_after (text : List Char) (gap : Gap) : (gap.after text).closed = gap.closed := rfl

theorem after_after (text text' : List Char) (gap : Gap) :
    (gap.after text').after text = gap.after (text ++ text') := by
  simp [after]

theorem read_between {c : Char} {cs : List Char} (h : ¬StartsComment (c :: cs)) :
    read .between (c :: cs) =
      if Text.isBlank c then (read .between cs).after [c] else ⟨[], c :: cs, true⟩ := by
  rw [read.eq_def]
  split
  case h_1 heq => exact absurd (.inl (heq ▸ List.prefix_append ['/', '/'] _)) h
  case h_2 heq => exact absurd (.inr (heq ▸ List.prefix_append ['/', '*'] _)) h
  case h_3 heq =>
    obtain ⟨rfl, rfl⟩ := List.cons.inj heq
    rfl
  all_goals contradiction

theorem read_line {body : List Char} (h : ∀ d ∈ body, Text.endsLine d = false) {c : Char}
    (hc : Text.endsLine c = true) (rest : List Char) :
    read .lineComment (body ++ c :: rest) = (read .between rest).after (body ++ [c]) := by
  induction body with
  | nil =>
    rw [List.nil_append, read, if_pos hc]
    rfl
  | cons d body ih =>
    rw [List.cons_append, read, h d List.mem_cons_self, if_neg Bool.false_ne_true,
      ih fun e he => h e (List.mem_cons_of_mem _ he), after_after]
    rfl

theorem read_lastLine {body : List Char} (h : ∀ d ∈ body, Text.endsLine d = false) :
    read .lineComment body = ⟨body, [], true⟩ := by
  induction body with
  | nil => rfl
  | cons d body ih =>
    rw [read, h d List.mem_cons_self, if_neg Bool.false_ne_true, ih fun e he => h e (List.mem_cons_of_mem _ he)]
    rfl

/-- The star that a block comment has just read, if any. -/
def starRead (star : Bool) : List Char := if star then ['*'] else []

theorem starRead_append_within (c : Char) (cs : List Char) : starRead (c = '*') ++ cs <:+: c :: cs := by
  by_cases hc : c = '*'
  · simp [starRead, hc]
  · simp only [starRead, hc]
    exact (List.suffix_cons c cs).isInfix

section

variable {star : Bool} {c : Char} {cs : List Char} (h : ¬ClosesComment (starRead star ++ c :: cs))

include h

theorem not_closes_of : ¬(star && decide (c = '/')) = true := by
  intro hc
  simp only [Bool.and_eq_true, decide_eq_true_eq] at hc
  apply h
  rw [hc.1, hc.2]
  exact (List.prefix_append ['*', '/'] cs).isInfix

theorem not_closesComment_rest : ¬ClosesComment (starRead (c = '*') ++ cs) := by
  intro hclose
  exact h ((hclose.trans (starRead_append_within c cs)).trans (List.suffix_append (starRead star) _).isInfix)

end

theorem read_block {body : List Char} {star : Bool} (h : ¬ClosesComment (starRead star ++ (body ++ ['*'])))
    (rest : List Char) :
    read (.blockComment star) (body ++ '*' :: '/' :: rest) = (read .between rest).after (body ++ ['*', '/']) := by
  induction body generalizing star with
  | nil => simp [read, after_after]
  | cons c body ih =>
    rw [List.cons_append, read, if_neg (not_closes_of h), ih (not_closesComment_rest h), after_after]
    rfl

theorem closed_read_block {body : List Char} {star : Bool} (h : ¬ClosesComment (starRead star ++ body)) :
    (read (.blockComment star) body).closed = false := by
  induction body generalizing star with
  | nil => rfl
  | cons c body ih =>
    rw [read, if_neg (not_closes_of h), closed_after]
    exact ih (not_closesComment_rest h)

theorem read_skipped {gap : List Char} (h : Skipped gap) (start : List Char) :
    read .between (gap ++ start) = (read .between start).after gap := by
  induction h with
  | nil => rfl
  | @blank c gap hblank _ ih =>
    have hc : c ≠ '/' := by
      rintro rfl
      exact absurd hblank (by decide)
    rw [List.cons_append, read_between (not_startsComment_of_ne hc), if_pos hblank, ih, after_after]
    rfl
  | line hbody hc _ ih =>
    simp only [List.cons_append, List.append_assoc, read]
    rw [read_line hbody hc, ih]
    simp [after]
  | block hbody _ ih =>
    simp only [List.cons_append, List.append_assoc, read]
    rw [@read_block _ false hbody, ih]
    simp [after]

end Gap

end Nodeless
