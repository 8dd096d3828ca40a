import Nodeless.Proofs.Token.Cut
import Nodeless.Proofs.Token.Spelling
import Nodeless.Token.Lexer

/-!
# Reading token after token

What stands in front of a lexer is a gap and a lexeme, a gap that the text ends with, or a comment
that never ends. Its next token follows from that. A run is what a lexer reads on its way from one
place to another.
-/

namespace Nodeless

/-! ## What stands in front -/

/-- A gap, and behind it a text that a lexeme starts. -/
structure Ahead (rest gap : List Char) (c : Char) (cs : List Char) : Prop where
  text : rest = gap ++ c :: cs
  skipped : Skipped gap
  blank : Text.isBlank c = false
  comment : ¬StartsComment (c :: cs)

/-- A gap that the text ends with. A line comment at its end has no line end behind it. -/
inductive LastGap : List Char → Prop
  | whole {gap : List Char} : Skipped gap → LastGap gap
  | line {gap body : List Char} : Skipped gap → (∀ d ∈ body, Text.endsLine d = false) →
      LastGap (gap ++ '/' :: '/' :: body)

/-- A gap that the text ends in, within a block comment. -/
def OpenGap (cs : List Char) : Prop :=
  ∃ gap body, cs = gap ++ '/' :: '*' :: body ∧ Skipped gap ∧ ¬ClosesComment body

theorem exists_ahead_or (cs : List Char) :
    (∃ gap c more, Ahead cs gap c more) ∨ LastGap cs ∨ OpenGap cs := by
  obtain ⟨gap, start, rfl, hgap, hstart⟩ := exists_skipped cs
  cases hstart with
  | nil => exact .inr (.inl (by simpa using .whole hgap))
  | line hbody => exact .inr (.inl (.line hgap hbody))
  | block hbody => exact .inr (.inr ⟨gap, _, rfl, hgap, hbody⟩)
  | lexeme hblank hcomment => exact .inl ⟨gap, _, _, rfl, hgap, hblank, hcomment⟩

theorem Skipped.append {gap more : List Char} (hgap : Skipped gap) (hmore : Skipped more) :
    Skipped (gap ++ more) := by
  induction hgap with
  | nil => exact hmore
  | blank hc _ ih => exact .blank hc ih
  | line hbody hc _ ih =>
    rw [List.cons_append, List.cons_append, List.append_assoc, List.cons_append]
    exact .line hbody hc ih
  | block hbody _ ih =>
    rw [List.cons_append, List.cons_append, List.append_assoc, List.cons_append, List.cons_append]
    exact .block hbody ih

theorem LastGap.skipped {gap : List Char} (h : LastGap gap) : Skipped (gap ++ ['\n']) := by
  cases h with
  | whole hgap => exact hgap.append (.blank (by decide) .nil)
  | line hgap hbody =>
    rw [List.append_assoc]
    exact hgap.append (.line hbody (by decide) .nil)

namespace Gap

theorem ofChars_of_ahead {rest gap : List Char} {c : Char} {cs : List Char} (h : Ahead rest gap c cs) :
    ofChars rest = ⟨gap, c :: cs, true⟩ := by
  rw [h.text, ofChars, read_skipped h.skipped, read_between h.comment, h.blank]
  simp [after]

theorem ofChars_of_lastGap {rest : List Char} (h : LastGap rest) : ofChars rest = ⟨rest, [], true⟩ := by
  cases h with
  | @whole gap hgap =>
    have := read_skipped hgap []
    rw [List.append_nil] at this
    rw [ofChars, this]
    simp [read, after]
  | line hgap hbody =>
    rw [ofChars, read_skipped hgap, read, read_lastLine hbody]
    rfl

theorem closed_of_openGap {rest : List Char} (h : OpenGap rest) : (ofChars rest).closed = false := by
  obtain ⟨gap, body, rfl, hgap, hbody⟩ := h
  rw [ofChars, read_skipped hgap, closed_after, read, closed_after]
  exact @closed_read_block body false hbody

theorem rest_of_not_closed (place : Place) (cs : List Char) (h : (read place cs).closed = false) :
    (read place cs).rest = [] := by
  fun_induction read place cs <;> simp_all [after]

end Gap

namespace Lexer

variable {lexer : Lexer}

theorem next_of_ahead {gap : List Char} {c : Char} {cs : List Char} (h : Ahead lexer.rest gap c cs) :
    lexer.next = lexer.tokenAt gap c cs := by
  unfold next
  rw [Gap.ofChars_of_ahead h]

theorem next_of_lastGap (h : LastGap lexer.rest) : lexer.next = lexer.emptyToken lexer.rest .eof := by
  unfold next
  rw [Gap.ofChars_of_lastGap h]

theorem next_of_openGap (h : OpenGap lexer.rest) : lexer.next = lexer.emptyToken lexer.rest .invalid := by
  have hclosed := Gap.closed_of_openGap h
  have hread := Gap.read_text_append_rest .between lexer.rest
  have hrest := Gap.rest_of_not_closed .between lexer.rest hclosed
  rw [hrest, List.append_nil] at hread
  unfold next
  split
  case h_1 heq | h_2 heq =>
    rw [heq] at hclosed
    cases hclosed
  case h_3 gap _ heq =>
    rw [show Gap.read .between lexer.rest = _ from heq] at hread
    rw [show gap = lexer.rest from hread]

theorem kind_of_ahead {gap : List Char} {c : Char} {cs : List Char} (h : Ahead lexer.rest gap c cs) :
    lexer.next.1.kind ≠ .eof := by
  rw [next_of_ahead h]
  exact kind_lexeme_ne_eof lexer.context c cs

theorem kind_of_openGap (h : OpenGap lexer.rest) : lexer.next.1.kind = .invalid := by
  rw [next_of_openGap h]
  rfl

theorem lastGap_of_eof (h : lexer.next.1.kind = .eof) : LastGap lexer.rest := by
  rcases exists_ahead_or lexer.rest with ⟨gap, c, cs, hahead⟩ | hlast | hopen
  · exact absurd h (kind_of_ahead hahead)
  · exact hlast
  · rw [kind_of_openGap hopen] at h
    cases h

theorem tokens_of_eof (h : lexer.next.1.kind = .eof) : lexer.tokens = [lexer.next.1] := by
  rw [tokens]
  simp [h]

theorem tokens_of_ne_eof (h : lexer.next.1.kind ≠ .eof) : lexer.tokens = lexer.next.1 :: lexer.next.2.tokens := by
  rw [tokens]
  simp [h]

theorem exists_tokens_eq_cons (lexer : Lexer) : ∃ more, lexer.tokens = lexer.next.1 :: more := by
  by_cases h : lexer.next.1.kind = .eof
  · exact ⟨[], tokens_of_eof h⟩
  · exact ⟨_, tokens_of_ne_eof h⟩

/-- What holds at the end, and at every place whose next one has it, holds at every place. -/
@[elab_as_elim]
theorem reading_induction {motive : Lexer → Prop} (lexer : Lexer)
    (eof : ∀ lexer : Lexer, lexer.next.1.kind = .eof → motive lexer)
    (next : ∀ lexer : Lexer, lexer.next.1.kind ≠ .eof → motive lexer.next.2 → motive lexer) : motive lexer := by
  fun_induction tokens lexer with
  | case1 lexer step heof => exact eof lexer heof
  | case2 lexer step hkind ih => exact next lexer hkind ih

/-! ## Runs -/

/-- Reading from a place gives these tokens, none of them the end, and leads to another place. -/
inductive Run : Lexer → List Token → Lexer → Prop
  | done {lexer : Lexer} : Run lexer [] lexer
  | step {lexer place : Lexer} {ts : List Token} : lexer.next.1.kind ≠ .eof → Run lexer.next.2 ts place →
      Run lexer (lexer.next.1 :: ts) place

theorem Run.cons {t : Token} {after place : Lexer} {ts : List Token} (hnext : lexer.next = (t, after))
    (hkind : t.kind ≠ .eof) (h : Run after ts place) : Run lexer (t :: ts) place := by
  have hstep := @Run.step lexer place ts
  rw [hnext] at hstep
  exact hstep hkind h

theorem Run.append {between place : Lexer} {ts more : List Token} (h : Run lexer ts between)
    (hmore : Run between more place) : Run lexer (ts ++ more) place := by
  induction h with
  | done => exact hmore
  | step hkind _ ih => exact .step hkind (ih hmore)

theorem Run.tokens_eq {ts : List Token} {place : Lexer} (h : Run lexer ts place) :
    lexer.tokens = ts ++ place.tokens := by
  induction h with
  | done => rfl
  | step hkind _ ih => rw [tokens_of_ne_eof hkind, ih, List.cons_append]

theorem Run.kind_ne_eof {ts : List Token} {place : Lexer} (h : Run lexer ts place) : ∀ t ∈ ts, t.kind ≠ .eof := by
  induction h with
  | done => simp
  | step hkind _ ih => exact List.forall_mem_cons.mpr ⟨hkind, ih⟩

theorem Run.length_le {ts : List Token} {place : Lexer} (h : Run lexer ts place) :
    ts.length + place.rest.length ≤ lexer.rest.length := by
  induction h with
  | done => simp
  | @step lexer _ _ hkind _ ih =>
    have hlt := lexer.next_shrinks.resolve_left hkind
    simp only [List.length_cons]
    omega

theorem exists_run_to_eof (lexer : Lexer) : ∃ ts place, Run lexer ts place ∧ place.next.1.kind = .eof := by
  induction lexer using reading_induction with
  | eof lexer heof => exact ⟨[], lexer, .done, heof⟩
  | next lexer hkind ih =>
    obtain ⟨ts, place, hrun, heof⟩ := ih
    exact ⟨_, place, .step hkind hrun, heof⟩

theorem exists_run_to {front back : List Token} {t : Token} (h : lexer.tokens = front ++ t :: back) :
    ∃ place, Run lexer front place ∧ place.tokens = t :: back := by
  induction front generalizing lexer with
  | nil => exact ⟨lexer, .done, h⟩
  | cons u front ih =>
    by_cases heof : lexer.next.1.kind = .eof
    · rw [tokens_of_eof heof] at h
      simp at h
    · rw [tokens_of_ne_eof heof, List.cons_append, List.cons.injEq] at h
      obtain ⟨rfl, h⟩ := h
      obtain ⟨place, hrun, hplace⟩ := ih h
      exact ⟨place, .step heof hrun, hplace⟩

end Lexer

end Nodeless
