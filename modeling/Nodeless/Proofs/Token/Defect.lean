import Mathlib.Logic.Relation
import Nodeless.Proofs.Token.Run

/-!
# Defects of a source

What makes a token invalid, told from the text alone: a piece that is cut, a comment that never
ends, or a character that no lexeme starts with. A source has an invalid token when its lexer comes
to such a place by whole tokens.
-/

namespace Nodeless

/-! ## Kinds -/

namespace Lexeme

theorem kind_dot_ne_invalid (cs : List Char) : (dot cs).kind ≠ .invalid := by
  fun_cases dot cs <;> exact Kind.noConfusion

theorem kind_equal_ne_invalid (cs : List Char) : (equal cs).kind ≠ .invalid := by
  fun_cases equal cs <;> exact Kind.noConfusion

theorem kind_question_ne_invalid (cs : List Char) : (question cs).kind ≠ .invalid := by
  fun_cases question cs <;> exact Kind.noConfusion

theorem reserved?_ne_invalid (word : String) : Kind.reserved? word ≠ some .invalid := by
  unfold Kind.reserved?
  repeat' split
  all_goals simp

theorem kind_word_ne_invalid (c : Char) (cs : List Char) : (word c cs).kind ≠ .invalid := by
  intro h
  simp only [word, spanning] at h
  rcases Option.getD_eq_iff.mp h with hreserved | ⟨-, hname⟩
  · exact reserved?_ne_invalid _ hreserved
  · cases hname

theorem kind_string_eq_invalid_iff {quote : Char} (hquote : quote ≠ '\\') (cs : List Char) :
    (string quote cs).kind = .invalid ↔ Piece.CutString quote cs := by
  rw [← Piece.ending_string_ne_complete_iff hquote]
  simp only [string]
  split <;> simp_all

theorem kind_regExp_eq_invalid_iff (cs : List Char) :
    (regExp cs).kind = .invalid ↔ Piece.CutPattern false cs := by
  rw [← Piece.ending_pattern_ne_complete_iff]
  simp only [regExp]
  split <;> simp_all [spanning]

theorem kind_template_eq_invalid_iff (mark : Char) (cs : List Char) :
    (template mark cs).1.kind = .invalid ↔ Piece.CutTemplate cs := by
  rw [← Piece.ending_template_eq_cut_iff]
  simp only [template]
  split <;> simp_all

theorem kind_privateName_eq_invalid_iff (cs : List Char) :
    (privateName cs).kind = .invalid ↔ cs.head?.any Text.isIdentifierContinue = false := by
  simp only [privateName, spanning]
  cases cs with
  | nil => simp
  | cons c cs => cases hc : Text.isIdentifierContinue c <;> simp [hc]

end Lexeme

/-! ## Lexemes -/

/-- The marks that start a lexeme, operators apart. -/
def marks : List Char :=
  ['{', '}', '(', ')', '[', ']', ';', ',', ':', '.', '=', '?', '\x22', '\x27', '\x60']

/-- A character that no lexeme starts with. A number sign stands in front of a name. -/
structure Stray (c : Char) (cs : List Char) : Prop where
  blank : Text.isBlank c = false
  mark : c ∉ marks
  operator : Lexeme.startsOperator c = false
  digit : c.isDigit = false
  name : Text.isIdentifierStart c = false
  privateName : c = '#' → cs.head?.any Text.isIdentifierContinue = false

namespace Lexer

/-- A text that starts with no whole lexeme, where a slash may start a regular expression and a
closing brace may end a substitution as the context tells. -/
inductive Faulty (context : Context) : List Char → Prop
  | string {quote : Char} {cs : List Char} : quote = '\x22' ∨ quote = '\x27' → Piece.CutString quote cs →
      Faulty context (quote :: cs)
  | regExp {cs : List Char} : context.regExpAllowed = true → ¬StartsComment ('/' :: cs) →
      Piece.CutPattern false cs → Faulty context ('/' :: cs)
  | template {cs : List Char} : Piece.CutTemplate cs → Faulty context ('\x60' :: cs)
  | chunk {cs : List Char} : context.substitutions.head? = some 0 → Piece.CutTemplate cs →
      Faulty context ('}' :: cs)
  | stray {c : Char} {cs : List Char} : Stray c cs → Faulty context (c :: cs)

theorem kind_lexeme_of_faulty {context : Context} {c : Char} {cs : List Char}
    (h : Faulty context (c :: cs)) : (lexeme context c cs).1.kind = .invalid := by
  cases h with
  | string hquote hcut =>
    rcases hquote with rfl | rfl <;>
    · simp only [lexeme, Lexeme.plain]
      exact (Lexeme.kind_string_eq_invalid_iff (by decide) cs).mpr hcut
  | regExp hallowed _ hcut =>
    simp only [lexeme, Lexeme.plain, hallowed]
    exact (Lexeme.kind_regExp_eq_invalid_iff cs).mpr hcut
  | template hcut => exact (Lexeme.kind_template_eq_invalid_iff _ cs).mpr hcut
  | chunk hopen hcut =>
    obtain ⟨ns, hns⟩ := List.head?_eq_some_iff.mp hopen
    simp only [lexeme, hns]
    exact (Lexeme.kind_template_eq_invalid_iff _ cs).mpr hcut
  | stray h =>
    have hmark := h.mark
    simp only [marks, List.mem_cons, List.not_mem_nil, or_false, not_or] at hmark
    have hslash : c ≠ '/' := by
      rintro rfl
      exact absurd h.operator (by decide)
    by_cases hc : c = '#'
    · subst hc
      exact (Lexeme.kind_privateName_eq_invalid_iff cs).mpr (h.privateName rfl)
    · simp [lexeme, Lexeme.plain, hmark, hslash, h.operator, h.digit, h.name, hc]

theorem lexeme_eq_plain {context : Context} {c : Char} (cs : List Char) (hmark : c ≠ '\x60')
    (hopen : c = '}' → context.substitutions.head? ≠ some 0) :
    (lexeme context c cs).1 = Lexeme.plain context.regExpAllowed c cs := by
  unfold lexeme
  dsimp only
  split
  · split <;> rfl
  · split
    · rename_i hc
      split
      · rfl
      · rename_i hsub
        exact absurd (by rw [hsub]; rfl) (hopen hc)
      · rfl
    · rfl

theorem faulty_of_kind_plain {context : Context} {c : Char} {cs : List Char} (hblank : Text.isBlank c = false)
    (hcomment : ¬StartsComment (c :: cs)) (hmark : c ≠ '\x60')
    (h : (Lexeme.plain context.regExpAllowed c cs).kind = .invalid) : Faulty context (c :: cs) := by
  revert h
  fun_cases Lexeme.plain context.regExpAllowed c cs
  case case10 => exact fun h => absurd h (Lexeme.kind_dot_ne_invalid cs)
  case case11 => exact fun h => absurd h (Lexeme.kind_equal_ne_invalid cs)
  case case12 => exact fun h => absurd h (Lexeme.kind_question_ne_invalid cs)
  case case13 hslash =>
    intro h
    rw [Bool.and_eq_true, decide_eq_true_eq] at hslash
    obtain ⟨rfl, hallowed⟩ := hslash
    exact .regExp hallowed hcomment ((Lexeme.kind_regExp_eq_invalid_iff cs).mp h)
  case case15 hquote =>
    intro h
    rw [Bool.or_eq_true, decide_eq_true_eq, decide_eq_true_eq] at hquote
    refine .string hquote ((Lexeme.kind_string_eq_invalid_iff ?_ cs).mp h)
    rintro rfl
    exact absurd hquote (by decide)
  case case17 => exact fun h => absurd h (Lexeme.kind_word_ne_invalid c cs)
  case case18 hhash =>
    intro h
    subst hhash
    have hprivate := (Lexeme.kind_privateName_eq_invalid_iff cs).mp h
    exact .stray ⟨by decide, by decide, by decide, by decide, by decide, fun _ => hprivate⟩
  case case19 =>
    intro _
    refine .stray ⟨hblank, ?_, ?_, ?_, ?_, ?_⟩
    all_goals simp_all [marks]
  all_goals exact fun h => Kind.noConfusion h

theorem faulty_of_kind_lexeme {context : Context} {c : Char} {cs : List Char} (hblank : Text.isBlank c = false)
    (hcomment : ¬StartsComment (c :: cs)) (h : (lexeme context c cs).1.kind = .invalid) :
    Faulty context (c :: cs) := by
  by_cases hmark : c = '\x60'
  · subst hmark
    exact .template ((Lexeme.kind_template_eq_invalid_iff _ cs).mp h)
  by_cases hopen : c = '}' ∧ context.substitutions.head? = some 0
  · obtain ⟨rfl, hopen⟩ := hopen
    obtain ⟨ns, hns⟩ := List.head?_eq_some_iff.mp hopen
    simp only [lexeme, hns] at h
    exact .chunk hopen ((Lexeme.kind_template_eq_invalid_iff _ cs).mp h)
  rw [lexeme_eq_plain cs hmark fun hc hhead => hopen ⟨hc, hhead⟩] at h
  exact faulty_of_kind_plain hblank hcomment hmark h

/-! ## Tokens -/

/-- A place in front of which the text is wrong: behind a gap, there is a comment that never ends
or no whole lexeme. -/
inductive Defective (lexer : Lexer) : Prop
  | comment {gap body : List Char} : Skipped gap → ¬ClosesComment body →
      lexer.rest = gap ++ '/' :: '*' :: body → Defective lexer
  | lexeme {gap start : List Char} : Skipped gap → Faulty lexer.context start → lexer.rest = gap ++ start →
      Defective lexer

theorem Faulty.exists_lexeme {context : Context} {start : List Char} (h : Faulty context start) :
    ∃ c cs, start = c :: cs ∧ Text.isBlank c = false ∧ ¬StartsComment (c :: cs) := by
  cases h with
  | @string quote cs hquote _ =>
    refine ⟨quote, cs, rfl, ?_⟩
    rcases hquote with rfl | rfl <;> exact ⟨by decide, not_startsComment_of_ne (by decide)⟩
  | regExp _ hcomment _ => exact ⟨_, _, rfl, by decide, hcomment⟩
  | template _ => exact ⟨_, _, rfl, by decide, not_startsComment_of_ne (by decide)⟩
  | chunk _ _ => exact ⟨_, _, rfl, by decide, not_startsComment_of_ne (by decide)⟩
  | @stray c cs h =>
    refine ⟨c, cs, rfl, h.blank, not_startsComment_of_ne ?_⟩
    rintro rfl
    exact absurd h.operator (by decide)

theorem next_invalid_iff (lexer : Lexer) : lexer.next.1.kind = .invalid ↔ lexer.Defective := by
  constructor
  · intro h
    rcases exists_ahead_or lexer.rest with ⟨gap, c, cs, hahead⟩ | hlast | ⟨gap, body, hrest, hgap, hbody⟩
    · rw [next_of_ahead hahead] at h
      exact .lexeme hahead.skipped (faulty_of_kind_lexeme hahead.blank hahead.comment h) hahead.text
    · rw [next_of_lastGap hlast] at h
      cases h
    · exact .comment hgap hbody hrest
  · intro h
    cases h with
    | comment hgap hbody hrest => exact kind_of_openGap ⟨_, _, hrest, hgap, hbody⟩
    | lexeme hgap hfaulty hrest =>
      obtain ⟨c, cs, rfl, hblank, hcomment⟩ := hfaulty.exists_lexeme
      rw [next_of_ahead ⟨hrest, hgap, hblank, hcomment⟩]
      exact kind_lexeme_of_faulty hfaulty

/-! ## All tokens -/

/-- One whole token on. -/
def Advances (lexer after : Lexer) : Prop :=
  lexer.next.1.kind ≠ .invalid ∧ lexer.next.1.kind ≠ .eof ∧ after = lexer.next.2

/-- The places that a lexer comes to by whole tokens. -/
abbrev Reaches : Lexer → Lexer → Prop := Relation.ReflTransGen Advances

theorem exists_invalid_iff (lexer : Lexer) :
    (∃ t ∈ lexer.tokens, t.kind = .invalid) ↔ ∃ place, lexer.Reaches place ∧ place.Defective := by
  constructor
  · fun_induction tokens lexer with
    | case1 lexer step heof =>
      rintro ⟨t, ht, hkind⟩
      rw [List.mem_singleton.mp ht, heof] at hkind
      cases hkind
    | case2 lexer step heof ih =>
      rintro ⟨t, ht, hkind⟩
      by_cases hstep : step.1.kind = .invalid
      · exact ⟨lexer, .refl, (next_invalid_iff lexer).mp hstep⟩
      · have ht := (List.mem_cons.mp ht).resolve_left fun heq => hstep (heq ▸ hkind)
        obtain ⟨place, hreach, hdefect⟩ := ih ⟨t, ht, hkind⟩
        exact ⟨place, hreach.head ⟨hstep, heof, rfl⟩, hdefect⟩
  · rintro ⟨place, hreach, hdefect⟩
    induction hreach using Relation.ReflTransGen.head_induction_on with
    | refl =>
      have hkind := (next_invalid_iff place).mpr hdefect
      rw [tokens_of_ne_eof (by rw [hkind]; simp)]
      exact ⟨_, List.mem_cons_self, hkind⟩
    | head hadv _ ih =>
      obtain ⟨-, heof, rfl⟩ := hadv
      obtain ⟨t, ht, hkind⟩ := ih
      rw [tokens_of_ne_eof heof]
      exact ⟨t, List.mem_cons_of_mem _ ht, hkind⟩

end Lexer
end Nodeless
