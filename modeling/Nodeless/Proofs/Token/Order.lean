import Nodeless.Token.Lexer

/-!
# The order of tokens

Tokens lie one behind the other in their source, and each but the last holds some of its text. A
token that can name a property is spelled in identifier characters.
-/

namespace Nodeless

/-! ## Names -/

namespace Text

theorem isIdentifierContinue_of_start {c : Char} (h : isIdentifierStart c = true) :
    isIdentifierContinue c = true := by
  simp [isIdentifierContinue, h]

end Text

/-- Whether a token of the kind can name a property. -/
def Kind.isName : Kind → Bool
  | identifier _ | boolean _ | null | keyword _ => true
  | _ => false

theorem Token.isName_eq (t : Token) : t.isName = t.kind.isName := rfl

/-- Spelled in the characters of identifiers only. -/
def Text.Plain (cs : List Char) : Prop := ∀ c ∈ cs, Text.isIdentifierContinue c = true

namespace Lexeme

def NamesPlainly (lexeme : Lexeme) : Prop := lexeme.kind.isName = true → Text.Plain lexeme.text

theorem namesPlainly_word {c : Char} (cs : List Char) (hc : Text.isIdentifierStart c = true) :
    (word c cs).NamesPlainly := by
  intro _ d hd
  simp only [word, spanning, List.cons_append, List.nil_append, List.mem_cons] at hd
  rcases hd with rfl | hd
  · exact Text.isIdentifierContinue_of_start hc
  · exact List.all_eq_true.mp List.all_takeWhile d hd

theorem namesPlainly_of_kind {lexeme : Lexeme} (h : lexeme.kind.isName = false) : lexeme.NamesPlainly := by
  intro h'
  rw [h] at h'
  cases h'

theorem isName_dot (cs : List Char) : (dot cs).kind.isName = false := by
  fun_cases dot cs <;> rfl

theorem isName_equal (cs : List Char) : (equal cs).kind.isName = false := by
  fun_cases equal cs <;> rfl

theorem isName_question (cs : List Char) : (question cs).kind.isName = false := by
  fun_cases question cs <;> rfl

theorem isName_string (quote : Char) (cs : List Char) : (string quote cs).kind.isName = false := by
  simp only [string]
  split <;> rfl

theorem isName_regExp (cs : List Char) : (regExp cs).kind.isName = false := by
  simp only [regExp]
  split <;> rfl

theorem isName_privateName (cs : List Char) : (privateName cs).kind.isName = false := by
  simp only [privateName, spanning]
  split <;> rfl

theorem isName_template (mark : Char) (cs : List Char) : (template mark cs).1.kind.isName = false := by
  simp only [template]
  split <;> rfl

theorem namesPlainly_plain (regExpAllowed : Bool) (c : Char) (cs : List Char) :
    (plain regExpAllowed c cs).NamesPlainly := by
  fun_cases plain regExpAllowed c cs
  case case10 => exact namesPlainly_of_kind (isName_dot cs)
  case case11 => exact namesPlainly_of_kind (isName_equal cs)
  case case12 => exact namesPlainly_of_kind (isName_question cs)
  case case13 => exact namesPlainly_of_kind (isName_regExp cs)
  case case15 => exact namesPlainly_of_kind (isName_string c cs)
  case case17 h => exact namesPlainly_word cs h
  case case18 => exact namesPlainly_of_kind (isName_privateName cs)
  all_goals exact namesPlainly_of_kind rfl

end Lexeme

namespace Lexer

open Source

theorem namesPlainly_lexeme (context : Context) (c : Char) (cs : List Char) :
    (lexeme context c cs).1.NamesPlainly := by
  unfold lexeme
  repeat' split
  all_goals first
    | exact Lexeme.namesPlainly_plain _ _ _
    | exact Lexeme.namesPlainly_of_kind (Lexeme.isName_template _ _)

/-! ## One token -/

/-- What the lexer at `lexer.offset` can say of its next token. -/
structure Reads (lexer : Lexer) (t : Token) (after : Lexer) : Prop where
  behind : lexer.offset ≤ t.span.start
  forward : t.span.start ≤ t.span.stop
  upTo : t.span.stop = after.offset
  holds : t.kind = .eof ∨ t.kind = .invalid ∨ t.span.start < t.span.stop
  plain : t.isName = true → Text.Plain t.text.toList

theorem reads_tokenAt (lexer : Lexer) (gap : List Char) (c : Char) (cs : List Char) :
    lexer.Reads (lexer.tokenAt gap c cs).1 (lexer.tokenAt gap c cs).2 := by
  obtain ⟨more, htext, -⟩ := reads_lexeme lexer.context c cs
  have hc := Char.utf8Size_pos c
  refine ⟨?_, ?_, rfl, .inr (.inr ?_), ?_⟩
  · simp only [tokenAt]
    omega
  · simp only [tokenAt]
    omega
  · simp only [tokenAt, htext, byteLength]
    omega
  · intro hname
    simp only [tokenAt, String.toList_ofList]
    exact namesPlainly_lexeme lexer.context c cs hname

theorem reads_emptyToken (lexer : Lexer) (gap : List Char) {kind : Kind} (h : kind = .eof ∨ kind = .invalid) :
    lexer.Reads (lexer.emptyToken gap kind).1 (lexer.emptyToken gap kind).2 := by
  refine ⟨Nat.le_add_right _ _, Nat.le_refl _, rfl, ?_, ?_⟩
  · rcases h with rfl | rfl
    · exact .inl rfl
    · exact .inr (.inl rfl)
  · rcases h with rfl | rfl <;> (intro hname; cases hname)

theorem reads_next (lexer : Lexer) : lexer.Reads lexer.next.1 lexer.next.2 := by
  unfold next
  split
  · exact lexer.reads_tokenAt _ _ _
  · exact lexer.reads_emptyToken _ (.inl rfl)
  · exact lexer.reads_emptyToken _ (.inr rfl)

/-! ## All tokens -/

theorem offset_le_start (lexer : Lexer) : ∀ t ∈ lexer.tokens, lexer.offset ≤ t.span.start := by
  fun_induction tokens lexer with
  | case1 lexer step _ =>
    intro t ht
    rw [List.mem_singleton.mp ht]
    exact lexer.reads_next.behind
  | case2 lexer step _ ih =>
    have hread := lexer.reads_next
    intro t ht
    rcases List.mem_cons.mp ht with rfl | ht
    · exact hread.behind
    · have hle := ih t ht
      rw [← hread.upTo] at hle
      exact Nat.le_trans hread.behind (Nat.le_trans hread.forward hle)

theorem pairwise_tokens (lexer : Lexer) :
    lexer.tokens.Pairwise fun a b => a.span.stop ≤ b.span.start := by
  fun_induction tokens lexer with
  | case1 => exact List.pairwise_singleton _ _
  | case2 lexer step _ ih =>
    refine List.pairwise_cons.mpr ⟨?_, ih⟩
    intro t ht
    rw [lexer.reads_next.upTo]
    exact offset_le_start _ t ht

theorem reads_of_mem_tokens (lexer : Lexer) : ∀ t ∈ lexer.tokens, ∃ before after, Reads before t after := by
  fun_induction tokens lexer with
  | case1 lexer step _ =>
    intro t ht
    rw [List.mem_singleton.mp ht]
    exact ⟨_, _, lexer.reads_next⟩
  | case2 lexer step _ ih =>
    intro t ht
    rcases List.mem_cons.mp ht with rfl | ht
    · exact ⟨_, _, lexer.reads_next⟩
    · exact ih t ht

end Lexer

/-- Tokens in the order of their text, none of them empty, with plain names. -/
structure Token.InOrder (ts : List Token) : Prop where
  ordered : ts.Pairwise fun a b => a.span.stop ≤ b.span.start
  nonempty : ∀ t ∈ ts, t.span.start < t.span.stop
  plain : ∀ t ∈ ts, t.isName = true → Text.Plain t.text.toList

theorem Token.InOrder.sublist {ts us : List Token} (h : InOrder us) (hsub : ts.Sublist us) : InOrder ts where
  ordered := h.ordered.sublist hsub
  nonempty t ht := h.nonempty t (hsub.subset ht)
  plain t ht := h.plain t (hsub.subset ht)

theorem Token.inOrder_ofSource (source : String)
    (hvalid : (Token.ofSource source).find? (fun t => t.kind = .invalid) = none) :
    InOrder ((Token.ofSource source).filter fun t => t.kind ≠ .eof) where
  ordered := (Lexer.pairwise_tokens _).sublist List.filter_sublist
  nonempty t ht := by
    obtain ⟨ht, heof⟩ := List.mem_filter.mp ht
    have hinvalid := List.find?_eq_none.mp hvalid t ht
    obtain ⟨_, _, hread⟩ := Lexer.reads_of_mem_tokens _ t ht
    simp only [decide_eq_true_eq, ne_eq] at heof hinvalid
    exact (hread.holds.resolve_left heof).resolve_left hinvalid
  plain t ht := by
    obtain ⟨_, _, hread⟩ := Lexer.reads_of_mem_tokens _ t (List.mem_filter.mp ht).1
    exact hread.plain

end Nodeless
