import Nodeless.Proofs.Token.Defect
import Nodeless.Proofs.Token.Reach
import Nodeless.Proofs.Token.Slash

/-!
# Where a regular expression starts

What a slash starts follows from the tokens in front of it: from the parenthesis that the last of them
matches, from what held before it, or from its kind. A lexer keeps no tokens, but its context remembers
as much of them as that takes.
-/

namespace Nodeless

open Source

/-- Whether the token is a keyword that a head in parentheses follows. -/
def Kind.opensHead : Kind → Bool
  | .keyword word => word.opensHead
  | _ => false

/-! ## The tokens in front -/

namespace Token

/-- The tokens in front of the parenthesis that is matched behind the tokens, where `depth` more have been
closed. The latest token comes first, and none but parentheses count. -/
def beforeMatch? : Nat → List Token → Option (List Token)
  | _, [] => none
  | depth, t :: earlier =>
    if t.kind = .rightParen then beforeMatch? (depth + 1) earlier
    else if t.kind = .leftParen then
      match depth with
      | 0 => some earlier
      | depth + 1 => beforeMatch? depth earlier
    else beforeMatch? depth earlier

/-- A parenthesis behind the tokens opens a head. -/
def headNext (earlier : List Token) : Bool := earlier.head?.any fun t => t.kind.opensHead

/-- Whether a slash behind the tokens, the latest first, starts a regular expression. A closing parenthesis
asks for the head that it closes, an update operator for what held in front of it, and any other token
for its kind. -/
def slashStarts : List Token → Bool
  | [] => true
  | t :: earlier =>
    if t.isUpdate then slashStarts earlier
    else if t.kind = .rightParen then (beforeMatch? 0 earlier).any headNext
    else t.kind.allowsRegExpAfter

end Token

/-! ## What a context remembers -/

namespace Lexer

open Token

/-- The context behind the tokens, the latest first. -/
structure Remembers (earlier : List Token) (context : Context) : Prop where
  regExpAllowed : context.regExpAllowed = slashStarts earlier
  afterHeadWord : context.afterHeadWord = headNext earlier
  heads : ∀ depth : Nat, context.heads[depth]? = (beforeMatch? depth earlier).map headNext

theorem remembers_start : Remembers [] {} := ⟨rfl, rfl, fun _ => rfl⟩

section

variable {earlier : List Token} {context : Context} {t : Token} {text : List Char}

theorem Remembers.openParen (h : Remembers earlier context) (hkind : t.kind = .leftParen) :
    Remembers (t :: earlier) (context.afterToken t.kind text) := by
  have hupdate : t.isUpdate = false := by simp [isUpdate, hkind]
  refine ⟨?_, ?_, ?_⟩
  · simp [Context.afterToken, slashStarts, hupdate, hkind, Kind.allowsRegExpAfter, Kind.isLiteral]
  · simp [Context.afterToken, headNext, hkind, Kind.opensHead]
  · intro depth
    cases depth with
    | zero => simp [Context.afterToken, beforeMatch?, hkind, h.afterHeadWord]
    | succ depth => simp [Context.afterToken, beforeMatch?, hkind, h.heads]

theorem Remembers.closeParen (h : Remembers earlier context) (hkind : t.kind = .rightParen) :
    Remembers (t :: earlier) (context.afterToken t.kind text) := by
  have hupdate : t.isUpdate = false := by simp [isUpdate, hkind]
  refine ⟨?_, ?_, ?_⟩
  · have hhead := h.heads 0
    rw [← List.head?_eq_getElem?] at hhead
    simp only [Context.afterToken, slashStarts, hupdate, hkind, List.headD_eq_head?_getD, hhead]
    cases beforeMatch? 0 earlier <;> rfl
  · simp [Context.afterToken, headNext, hkind, Kind.opensHead]
  · intro depth
    simp [Context.afterToken, beforeMatch?, hkind, h.heads]

theorem beforeMatch?_cons (hopen : t.kind ≠ .leftParen) (hclose : t.kind ≠ .rightParen) (depth : Nat) :
    beforeMatch? depth (t :: earlier) = beforeMatch? depth earlier := by
  simp [beforeMatch?, hopen, hclose]

theorem Remembers.update (h : Remembers earlier context) (htext : t.text = String.ofList text)
    (hupdate : t.isUpdate = true) : Remembers (t :: earlier) (context.afterToken t.kind text) := by
  have hupdates := (isUpdate_iff htext).mp hupdate
  rw [afterToken_of_updates hupdates]
  refine ⟨?_, ?_, ?_⟩
  · simp [slashStarts, hupdate, h.regExpAllowed]
  · simp [headNext, hupdates.1, Kind.opensHead]
  · intro depth
    rw [beforeMatch?_cons (by simp [hupdates.1]) (by simp [hupdates.1])]
    exact h.heads depth

theorem afterToken_of_other {kind : Kind} (hopen : kind ≠ .leftParen) (hclose : kind ≠ .rightParen)
    (hupdate : ¬Updates kind text) (context : Context) :
    context.afterToken kind text =
      { context with regExpAllowed := kind.allowsRegExpAfter, afterHeadWord := kind.opensHead } := by
  cases kind with
  | leftParen => exact absurd rfl hopen
  | rightParen => exact absurd rfl hclose
  | operator =>
    have htext : ¬(text = ['+', '+'] ∨ text = ['-', '-']) := fun htext => hupdate ⟨rfl, htext⟩
    simp only [Context.afterToken, if_neg htext]
    rfl
  | _ => rfl

theorem Remembers.other (h : Remembers earlier context) (htext : t.text = String.ofList text)
    (hopen : t.kind ≠ .leftParen) (hclose : t.kind ≠ .rightParen) (hupdate : t.isUpdate = false) :
    Remembers (t :: earlier) (context.afterToken t.kind text) := by
  have hupdates : ¬Updates t.kind text := by
    rw [← isUpdate_iff htext, hupdate]
    exact Bool.false_ne_true
  rw [afterToken_of_other hopen hclose hupdates]
  refine ⟨?_, ?_, ?_⟩
  · simp [slashStarts, hupdate, hclose]
  · simp [headNext]
  · intro depth
    rw [beforeMatch?_cons hopen hclose]
    exact h.heads depth

theorem Remembers.afterToken (h : Remembers earlier context) (htext : t.text = String.ofList text) :
    Remembers (t :: earlier) (context.afterToken t.kind text) := by
  by_cases hopen : t.kind = .leftParen
  · exact h.openParen hopen
  by_cases hclose : t.kind = .rightParen
  · exact h.closeParen hclose
  cases hupdate : t.isUpdate with
  | true => exact h.update htext hupdate
  | false => exact h.other htext hopen hclose hupdate

end

theorem Remembers.next {earlier : List Token} {lexer : Lexer} (h : Remembers earlier lexer.context) :
    Remembers (lexer.next.1 :: earlier) lexer.next.2.context := by
  obtain ⟨read, substitutions, hagree⟩ := @exists_agree lexer lexer rfl rfl rfl fun _ => rfl
  rw [hagree.context]
  have hkept : Remembers earlier { lexer.context with substitutions := substitutions } :=
    ⟨h.regExpAllowed, h.afterHeadWord, h.heads⟩
  exact hkept.afterToken hagree.text

theorem Run.remembers {earlier ts : List Token} {lexer place : Lexer} (hrun : Run lexer ts place)
    (h : Remembers earlier lexer.context) : Remembers (ts.reverse ++ earlier) place.context := by
  induction hrun generalizing earlier with
  | done => exact h
  | step _ _ ih =>
    rw [List.reverse_cons, List.append_assoc, List.singleton_append]
    exact ih h.next

end Lexer

/-! ## The slash -/

theorem Lexeme.kind_regExp (cs : List Char) :
    (∃ pattern flags, (regExp cs).kind = .regExp pattern flags) ∨
      (regExp cs).kind = .invalid ∧ Piece.CutPattern false cs := by
  by_cases hcut : Piece.CutPattern false cs
  · exact .inr ⟨(kind_regExp_eq_invalid_iff cs).mpr hcut, hcut⟩
  · refine .inl ?_
    rw [← Piece.ending_pattern_ne_complete_iff, ne_eq, not_not] at hcut
    simp only [regExp, hcut, ↓reduceIte, spanning]
    exact ⟨_, _, rfl⟩

namespace Token

/-- The token is a regular expression, or the start of one that is not closed. `cs` is the text behind its
slash. -/
def TakenForRegExp (t : Token) (cs : List Char) : Prop :=
  (∃ pattern flags, t.kind = .regExp pattern flags) ∨ t.kind = .invalid ∧ Piece.CutPattern false cs

theorem TakenForRegExp.kind_ne {t : Token} {cs : List Char} (h : TakenForRegExp t cs) : t.kind ≠ .operator := by
  rcases h with ⟨pattern, flags, h⟩ | ⟨h, -⟩ <;> simp [h]

theorem exists_token_behind {source : String} {ts back : List Token} {done gap cs : List Char}
    (htokens : ofSource source = ts ++ back) (hsource : source.toList = done ++ (gap ++ '/' :: cs))
    (hdone : byteLength done = reach source.toList ts) : ∃ u more, back = u :: more := by
  refine List.exists_cons_of_ne_nil ?_
  rintro rfl
  rw [List.append_nil] at htokens
  have hend := reach_ofSource source
  have hslash : '/'.utf8Size = 1 := rfl
  rw [htokens, ← hdone, hsource] at hend
  simp only [byteLength_append, byteLength, hslash] at hend
  omega

/-- A slash that comes next behind tokens and the gap behind them starts a regular expression exactly where
the tokens say so, and is an operator elsewhere. -/
theorem slash_starts_regExp_iff {source : String} {ts back : List Token} {done gap cs : List Char}
    (htokens : ofSource source = ts ++ back) (hsource : source.toList = done ++ (gap ++ '/' :: cs))
    (hdone : byteLength done = reach source.toList ts) (hgap : Skipped gap)
    (hcomment : ¬StartsComment ('/' :: cs)) :
    ∃ u more, back = u :: more ∧ u.span.start = byteLength (done ++ gap) ∧
      (TakenForRegExp u cs ↔ slashStarts ts.reverse = true) ∧
      (u.kind = .operator ↔ slashStarts ts.reverse = false) := by
  obtain ⟨u, back, rfl⟩ := exists_token_behind htokens hsource hdone
  refine ⟨u, back, rfl, ?_⟩
  obtain ⟨place, hrun, hplace⟩ := Lexer.exists_run_to htokens
  have hnext := Lexer.next_eq_tokenOf ⟨hrun.rest_eq hsource hdone, hgap, by decide, hcomment⟩
  obtain ⟨more, htokens⟩ := place.exists_tokens_eq_cons
  obtain rfl : u = place.next.1 := (List.cons.inj (hplace.symm.trans htokens)).1
  have hremembers := hrun.remembers Lexer.remembers_start
  rw [List.append_nil] at hremembers
  have hkind : place.next.1.kind =
      (if slashStarts ts.reverse then Lexeme.regExp cs else Lexeme.operator '/' cs).kind := by
    rw [hnext, ← hremembers.regExpAllowed, ← Lexer.lexeme_slash]
    rfl
  refine ⟨?_, ?_⟩
  · rw [hnext, byteLength_append, hdone, ← hrun.offset_eq_reach]
    rfl
  · cases hstarts : slashStarts ts.reverse with
    | true =>
      have htaken : TakenForRegExp place.next.1 cs := by
        rw [TakenForRegExp, hkind, hstarts]
        exact Lexeme.kind_regExp cs
      exact ⟨iff_of_true htaken rfl, iff_of_false htaken.kind_ne Bool.noConfusion⟩
    | false =>
      have hoperator : place.next.1.kind = .operator := by
        rw [hkind, hstarts]
        rfl
      exact ⟨iff_of_false (fun htaken => htaken.kind_ne hoperator) Bool.noConfusion, iff_of_true hoperator rfl⟩

/-- Behind an update operator, the parenthesis of a nested head and a comment, with a stray character in
front of it all. -/
theorem slash_starts_regExp_behind_update :
    ∃ ts u back, ofSource "# if ((a)) ++ /*c*/ /b/" = ts ++ u :: back ∧ ts.getLast?.any isUpdate = true ∧
      u.span.start = 20 ∧ TakenForRegExp u "b/".toList := by
  have htokens := (List.take_append_drop 8 (ofSource "# if ((a)) ++ /*c*/ /b/")).symm
  have hsource : "# if ((a)) ++ /*c*/ /b/".toList =
      "# if ((a)) ++".toList ++ (" /*c*/ ".toList ++ '/' :: "b/".toList) := by decide
  have hbody : ¬ClosesComment ("c".toList ++ ['*']) := by decide
  have hgap : Skipped " /*c*/ ".toList := .blank (by decide) (.block hbody (.blank (by decide) .nil))
  have hcomment : ¬StartsComment ('/' :: "b/".toList) := by
    rintro (⟨body, hbody⟩ | ⟨body, hbody⟩) <;> simp at hbody
  obtain ⟨u, more, hback, hstart, htaken, -⟩ :=
    slash_starts_regExp_iff htokens hsource (by decide +kernel) hgap hcomment
  rw [hback] at htokens
  exact ⟨_, u, more, htokens, by decide +kernel, hstart, htaken.mpr (by decide +kernel)⟩

end Token

end Nodeless
