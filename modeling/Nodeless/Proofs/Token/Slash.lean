import Nodeless.Proofs.Token.Behind

/-!
# What a slash is taken for

A lexer tells by its context whether a slash starts a regular expression. Two lexers that stand before
one text and disagree on that alone read the same tokens of it, unless a slash comes next: the first
token that is no update operator settles it for both. So it is with the parenthesis that closes a
head, where they disagree on which heads are open.
-/

namespace Nodeless

namespace Token

/-- What a token is taken for, and where. -/
def looks (t : Token) : Kind × Span := (t.kind, t.span)

def isUpdate (t : Token) : Bool := t.kind = .operator && (t.text = "++" || t.text = "--")

def startsWithSlash (t : Token) : Bool := t.text.toList.head? = some '/'

/-- A slash comes next, behind update operators at most. -/
def slashNext (ts : List Token) : Bool := (ts.dropWhile isUpdate).head?.any startsWithSlash

/-- The tokens behind the parenthesis that closes all of `depth` open ones and one more. -/
def behindClose : Nat → List Token → List Token
  | _, [] => []
  | depth, t :: ts =>
    if t.kind = .leftParen then behindClose (depth + 1) ts
    else if t.kind = .rightParen then
      match depth with
      | 0 => ts
      | depth + 1 => behindClose depth ts
    else behindClose depth ts

theorem slashNext_cons (t : Token) (ts : List Token) :
    slashNext (t :: ts) = if t.isUpdate then slashNext ts else t.startsWithSlash := by
  unfold slashNext
  rw [List.dropWhile_cons]
  split <;> rfl

theorem slashNext_of_startsWithSlash {t : Token} (h : t.startsWithSlash = true) (ts : List Token) :
    slashNext (t :: ts) = true := by
  have hupdate : t.isUpdate = false := by
    unfold startsWithSlash at h
    unfold isUpdate
    by_cases hplus : t.text = "++"
    · simp [hplus] at h
    by_cases hminus : t.text = "--"
    · simp [hminus] at h
    · simp [hplus, hminus]
  rw [slashNext_cons, hupdate, h]
  rfl

end Token

/-! ## Lexemes -/

theorem Lexeme.plain_congr {a b : Bool} {c : Char} (h : c = '/' → a = b) (cs : List Char) :
    plain a c cs = plain b c cs := by
  by_cases hc : c = '/'
  · rw [h hc]
  · simp [plain, hc]

attribute [ext] Lexer Lexer.Context

namespace Lexer

theorem lexeme_congr {a b : Context} {c : Char} (hslash : c = '/' → a.regExpAllowed = b.regExpAllowed)
    (hsubstitutions : a.substitutions = b.substitutions) (cs : List Char) : lexeme a c cs = lexeme b c cs := by
  unfold lexeme
  rw [Lexeme.plain_congr hslash cs, hsubstitutions]

theorem kind_operator_ne_regExp (cs : List Char) : (Lexeme.operator '/' cs).kind ≠ (Lexeme.regExp cs).kind := by
  unfold Lexeme.regExp
  dsimp only
  split <;> simp [Lexeme.operator, Lexeme.spanning]

theorem lexeme_slash (context : Context) (cs : List Char) :
    (lexeme context '/' cs).1 = if context.regExpAllowed then Lexeme.regExp cs else Lexeme.operator '/' cs := by
  cases h : context.regExpAllowed <;> simp [lexeme, Lexeme.plain, Lexeme.startsOperator, h]

theorem kind_lexeme_slash_ne {a b : Context} (h : b.regExpAllowed = !a.regExpAllowed) (cs : List Char) :
    (lexeme b '/' cs).1.kind ≠ (lexeme a '/' cs).1.kind := by
  rw [lexeme_slash, lexeme_slash, h]
  cases a.regExpAllowed
  · exact (kind_operator_ne_regExp cs).symm
  · exact kind_operator_ne_regExp cs

/-! ## Contexts -/

/-- The token is an update operator, and leaves it open what a slash behind it starts. -/
def Updates (kind : Kind) (text : List Char) : Prop := kind = .operator ∧ (text = ['+', '+'] ∨ text = ['-', '-'])

theorem afterToken_congr {a b : Context} {kind : Kind} {text : List Char}
    (hheads : a.heads = b.heads) (hsubstitutions : a.substitutions = b.substitutions)
    (hword : kind = .leftParen → a.afterHeadWord = b.afterHeadWord)
    (hupdate : Updates kind text → a.regExpAllowed = b.regExpAllowed) :
    a.afterToken kind text = b.afterToken kind text := by
  unfold Context.afterToken
  cases kind with
  | leftParen => simp [hheads, hsubstitutions, hword]
  | operator =>
    by_cases htext : text = ['+', '+'] ∨ text = ['-', '-']
    · simp [htext, hheads, hsubstitutions, hupdate ⟨rfl, htext⟩]
    · simp [htext, hheads, hsubstitutions]
  | _ => simp [hheads, hsubstitutions]

theorem afterToken_of_updates {kind : Kind} {text : List Char} (h : Updates kind text) (context : Context) :
    context.afterToken kind text = { context with afterHeadWord := false } := by
  obtain ⟨rfl, htext⟩ := h
  simp [Context.afterToken, htext]

theorem afterToken_heads {kind : Kind} (hopen : kind ≠ .leftParen) (hclose : kind ≠ .rightParen) (context : Context)
    (heads : List Bool) (text : List Char) :
    { context with heads := heads }.afterToken kind text = { context.afterToken kind text with heads := heads } := by
  cases kind with
  | leftParen => exact absurd rfl hopen
  | rightParen => exact absurd rfl hclose
  | operator =>
    simp only [Context.afterToken]
    split <;> rfl
  | _ => rfl

/-! ## Tokens -/

theorem startsWithSlash_tokenOf (lexer : Lexer) (gap : List Char) (context : Context) (c : Char) (cs : List Char) :
    (lexer.tokenOf gap (lexeme context c cs)).1.startsWithSlash = true ↔ c = '/' := by
  obtain ⟨more, htext, -⟩ := reads_lexeme context c cs
  simp [tokenOf, Token.startsWithSlash, htext]

section

variable {lexer other : Lexer}

/-- Two lexers read one token, of one text. Their contexts behind it come of the same step. -/
structure Agree (lexer other : Lexer) (read : List Char) (substitutions : List Nat) : Prop where
  token : other.next.1 = lexer.next.1
  text : lexer.next.1.text = String.ofList read
  offset : other.next.2.offset = lexer.next.2.offset
  rest : other.next.2.rest = lexer.next.2.rest
  context : lexer.next.2.context =
    { lexer.context with substitutions := substitutions }.afterToken lexer.next.1.kind read
  context_other : other.next.2.context =
    { other.context with substitutions := substitutions }.afterToken lexer.next.1.kind read

theorem agree_emptyToken {kind : Kind} (hoffset : other.offset = lexer.offset) (hrest : other.rest = lexer.rest)
    (hsubstitutions : other.context.substitutions = lexer.context.substitutions)
    (hnext : lexer.next = lexer.emptyToken lexer.rest kind) (hother : other.next = other.emptyToken other.rest kind) :
    lexer.Agree other [] lexer.context.substitutions where
  token := by simp only [hnext, hother, emptyToken, hoffset, hrest]
  text := by simp only [hnext, emptyToken]
  offset := by simp only [hnext, hother, emptyToken, hoffset, hrest]
  rest := by simp only [hnext, hother, emptyToken]
  context := by simp only [hnext, emptyToken]
  context_other := by simp only [hnext, hother, emptyToken, ← hsubstitutions]

theorem exists_agree (hoffset : other.offset = lexer.offset) (hrest : other.rest = lexer.rest)
    (hsubstitutions : other.context.substitutions = lexer.context.substitutions)
    (hslash : lexer.next.1.startsWithSlash = true → other.context.regExpAllowed = lexer.context.regExpAllowed) :
    ∃ read substitutions, lexer.Agree other read substitutions := by
  rcases exists_ahead_or lexer.rest with ⟨gap, c, cs, hahead⟩ | hlast | hopen
  · have hnext := next_eq_tokenOf hahead
    have hother : other.next = _ := next_eq_tokenOf (hrest.symm ▸ hahead)
    rw [hnext, startsWithSlash_tokenOf] at hslash
    rw [lexeme_congr hslash hsubstitutions] at hother
    refine ⟨(lexeme lexer.context c cs).1.text, (lexeme lexer.context c cs).2, ?_⟩
    constructor <;> simp only [hnext, hother, tokenOf, hoffset]
  · exact ⟨_, _, agree_emptyToken hoffset hrest hsubstitutions (next_of_lastGap hlast)
      (next_of_lastGap (hrest.symm ▸ hlast))⟩
  · exact ⟨_, _, agree_emptyToken hoffset hrest hsubstitutions (next_of_openGap hopen)
      (next_of_openGap (hrest.symm ▸ hopen))⟩

/-! ## Slashes apart -/

theorem isUpdate_iff {t : Token} {text : List Char} (h : t.text = String.ofList text) :
    t.isUpdate = true ↔ Updates t.kind text := by
  have hspell (s : String) : t.text = s ↔ text = s.toList := by
    rw [h, ← String.toList_inj, String.toList_ofList]
  simp [Token.isUpdate, Updates, hspell]

/-- Two lexers that stand before one text. One takes a slash there for a division, and the other for
the start of a regular expression. -/
structure SlashApart (lexer other : Lexer) : Prop where
  offset : other.offset = lexer.offset
  rest : other.rest = lexer.rest
  regExpAllowed : other.context.regExpAllowed = !lexer.context.regExpAllowed
  heads : other.context.heads = lexer.context.heads
  substitutions : other.context.substitutions = lexer.context.substitutions
  /-- The mark of a head counts for a parenthesis only. -/
  afterHeadWord : lexer.next.1.kind = .leftParen → other.context.afterHeadWord = lexer.context.afterHeadWord

theorem SlashApart.kind_ne (h : SlashApart lexer other) (hslash : lexer.next.1.startsWithSlash = true) :
    other.next.1.kind ≠ lexer.next.1.kind := by
  rcases exists_ahead_or lexer.rest with ⟨gap, c, cs, hahead⟩ | hlast | hopen
  · rw [next_eq_tokenOf hahead, startsWithSlash_tokenOf] at hslash
    subst hslash
    have hother : other.next = _ := next_eq_tokenOf (h.rest.symm ▸ hahead)
    rw [next_eq_tokenOf hahead, hother]
    exact kind_lexeme_slash_ne h.regExpAllowed cs
  · rw [next_of_lastGap hlast] at hslash
    cases hslash
  · rw [next_of_openGap hopen] at hslash
    cases hslash

theorem SlashApart.next (h : SlashApart lexer other) (hslash : lexer.next.1.startsWithSlash = false) :
    other.next.1 = lexer.next.1 ∧
      if lexer.next.1.isUpdate then SlashApart lexer.next.2 other.next.2 else other.next.2 = lexer.next.2 := by
  obtain ⟨read, substitutions, hagree⟩ :=
    exists_agree h.offset h.rest h.substitutions fun hs => by rw [hslash] at hs; cases hs
  have hupdate := isUpdate_iff hagree.text
  refine ⟨hagree.token, ?_⟩
  split
  case isTrue hup =>
    have hlexer := hagree.context
    have hother := hagree.context_other
    rw [afterToken_of_updates (hupdate.mp hup)] at hlexer hother
    refine ⟨hagree.offset, hagree.rest, ?_, ?_, ?_, fun _ => ?_⟩
    all_goals rw [hlexer, hother]
    · exact h.regExpAllowed
    · exact h.heads
  case isFalse hup =>
    refine Lexer.ext hagree.offset hagree.rest ?_
    rw [hagree.context, hagree.context_other]
    exact afterToken_congr h.heads rfl h.afterHeadWord fun hu => absurd (hupdate.mpr hu) hup

theorem looks_iff_of_token (hkind : lexer.next.1.kind ≠ .eof) (htoken : other.next.1 = lexer.next.1) :
    other.tokens.map Token.looks = lexer.tokens.map Token.looks ↔
      other.next.2.tokens.map Token.looks = lexer.next.2.tokens.map Token.looks := by
  rw [tokens_of_ne_eof hkind, tokens_of_ne_eof (by rwa [htoken]), htoken, List.map_cons, List.map_cons,
    List.cons_inj_right]

theorem looks_ne_of_kind_ne (h : other.next.1.kind ≠ lexer.next.1.kind) :
    other.tokens.map Token.looks ≠ lexer.tokens.map Token.looks := by
  obtain ⟨more, hlexer⟩ := lexer.exists_tokens_eq_cons
  obtain ⟨more', hother⟩ := other.exists_tokens_eq_cons
  rw [hlexer, hother]
  intro hlooks
  exact h (congrArg Prod.fst (List.cons.inj hlooks).1)

theorem looks_iff_of_slash (hslash : lexer.next.1.startsWithSlash = true)
    (hkinds : other.next.1.kind ≠ lexer.next.1.kind) :
    other.tokens.map Token.looks = lexer.tokens.map Token.looks ↔ Token.slashNext lexer.tokens = false := by
  obtain ⟨more, hmore⟩ := lexer.exists_tokens_eq_cons
  have hnext := Token.slashNext_of_startsWithSlash hslash more
  rw [← hmore] at hnext
  exact iff_of_false (looks_ne_of_kind_ne hkinds) (by simp [hnext])

theorem SlashApart.looks_eq_iff (h : SlashApart lexer other) :
    other.tokens.map Token.looks = lexer.tokens.map Token.looks ↔ Token.slashNext lexer.tokens = false := by
  induction lexer using reading_induction generalizing other with
  | eof lexer heof =>
    by_cases hslash : lexer.next.1.startsWithSlash = true
    · exact looks_iff_of_slash hslash (h.kind_ne hslash)
    · obtain ⟨htoken, -⟩ := h.next (by simpa using hslash)
      rw [tokens_of_eof heof, tokens_of_eof (by rwa [htoken]), htoken, Token.slashNext_cons]
      simp [hslash, Token.isUpdate, heof]
  | next lexer hkind ih =>
    by_cases hslash : lexer.next.1.startsWithSlash = true
    · exact looks_iff_of_slash hslash (h.kind_ne hslash)
    · obtain ⟨htoken, hafter⟩ := h.next (by simpa using hslash)
      rw [looks_iff_of_token hkind htoken, tokens_of_ne_eof hkind, Token.slashNext_cons]
      split at hafter
      case isTrue hup =>
        rw [if_pos hup]
        exact ih hafter
      case isFalse hup => simp [hafter, hup, hslash]

/-! ## Heads apart -/

/-- Two lexers that stand before one text. One takes an open parenthesis, with `depth` others open in
it, for a head and the other does not. -/
structure HeadApart (depth : Nat) (lexer other : Lexer) : Prop where
  offset : other.offset = lexer.offset
  rest : other.rest = lexer.rest
  context : ∃ inner head outer, inner.length = depth ∧ lexer.context.heads = inner ++ head :: outer ∧
    other.context = { lexer.context with heads := inner ++ (!head) :: outer }

theorem HeadApart.next {depth : Nat} (h : HeadApart depth lexer other) :
    other.next.1 = lexer.next.1 ∧
      if lexer.next.1.kind = .leftParen then HeadApart (depth + 1) lexer.next.2 other.next.2
      else if lexer.next.1.kind = .rightParen then
        match depth with
        | 0 => SlashApart lexer.next.2 other.next.2
        | depth + 1 => HeadApart depth lexer.next.2 other.next.2
      else HeadApart depth lexer.next.2 other.next.2 := by
  obtain ⟨inner, head, outer, rfl, hheads, hcontext⟩ := h.context
  obtain ⟨read, substitutions, hagree⟩ := exists_agree h.offset h.rest (by rw [hcontext]) fun _ => by rw [hcontext]
  have hlexer := hagree.context
  have hother := hagree.context_other
  refine ⟨hagree.token, ?_⟩
  generalize lexer.next.1.kind = kind at hlexer hother ⊢
  split
  case isTrue hopen =>
    subst hopen
    refine ⟨hagree.offset, hagree.rest, lexer.context.afterHeadWord :: inner, head, outer, rfl, ?_, ?_⟩
    · simp [hlexer, Context.afterToken, hheads]
    · simp [hlexer, hother, Context.afterToken, hcontext]
  split
  case isTrue hclose =>
    subst hclose
    cases inner with
    | nil =>
      refine ⟨hagree.offset, hagree.rest, ?_, ?_, ?_, fun _ => ?_⟩
      all_goals simp [hlexer, hother, Context.afterToken, hcontext, hheads]
    | cons h inner =>
      refine ⟨hagree.offset, hagree.rest, inner, head, outer, rfl, ?_, ?_⟩
      · simp [hlexer, Context.afterToken, hheads]
      · simp [hlexer, hother, Context.afterToken, hcontext, hheads]
  case isFalse hopen hclose =>
    have hkept := afterToken_heads hopen hclose { lexer.context with substitutions := substitutions }
    refine ⟨hagree.offset, hagree.rest, inner, head, outer, rfl, ?_, ?_⟩
    · rw [hlexer, ← hheads]
      exact congrArg (·.heads) (hkept lexer.context.heads read)
    · rw [hlexer, hother, hcontext]
      exact hkept (inner ++ (!head) :: outer) read

theorem HeadApart.looks_eq_iff {depth : Nat} (h : HeadApart depth lexer other) :
    other.tokens.map Token.looks = lexer.tokens.map Token.looks ↔
      Token.slashNext (Token.behindClose depth lexer.tokens) = false := by
  induction lexer using reading_induction generalizing other depth with
  | eof lexer heof =>
    obtain ⟨htoken, -⟩ := h.next
    rw [tokens_of_eof heof, tokens_of_eof (by rwa [htoken]), htoken]
    simp [Token.behindClose, heof, Token.slashNext]
  | next lexer hkind ih =>
    obtain ⟨htoken, hafter⟩ := h.next
    rw [looks_iff_of_token hkind htoken, tokens_of_ne_eof hkind, Token.behindClose.eq_def]
    dsimp only
    split
    case isTrue hopen =>
      rw [if_pos hopen] at hafter
      exact ih hafter
    rename_i hopen
    rw [if_neg hopen] at hafter
    split
    case isTrue hclose =>
      rw [if_pos hclose] at hafter
      cases depth with
      | zero => exact SlashApart.looks_eq_iff hafter
      | succ depth => exact ih hafter
    case isFalse hclose =>
      rw [if_neg hclose] at hafter
      exact ih hafter

end

end Lexer

end Nodeless
