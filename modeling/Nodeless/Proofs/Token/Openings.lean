import Nodeless.Proofs.Token.Defect
import Nodeless.Proofs.Token.Reach
import Nodeless.Proofs.Token.Substitution

/-!
# What a closing brace closes

Braces and substitutions open and close in one order, which the tokens tell: as a stack, the innermost
on top. A lexer keeps one count for each substitution in place of the stack, and none for the braces
outside of all of them. It closes the same.
-/

namespace Nodeless

inductive Opening
  | brace
  | substitution
  deriving DecidableEq, Repr

/-- How many backslashes a text starts with. -/
def Piece.backslashes (cs : List Char) : Nat := (cs.takeWhile (· = '\\')).length

/-! ## The stack -/

/-- Whether the kind is that of a whole chunk of a template. -/
def Kind.isChunk : Kind → Bool
  | .template _ => true
  | _ => false

namespace Token

/-- The token starts with a closing brace. -/
def startsWithBrace (t : Token) : Bool := t.text.toList.head? = some '}'

/-- The text of the token ends with the mark of a substitution, and no backslash takes the mark: the
backslashes in front of it go in pairs. -/
def endsOpening (t : Token) : Bool :=
  match t.text.toList.reverse with
  | '{' :: '$' :: before => Piece.backslashes before % 2 = 0
  | _ => false

/-- What is open behind one more token, the innermost first. -/
def openBehind (outer : List Opening) (t : Token) : List Opening :=
  if t.kind = .leftBrace then .brace :: outer
  else if t.kind = .rightBrace then outer.erase .brace
  else if t.kind.isChunk then
    let outer := if t.startsWithBrace then outer.erase .substitution else outer
    if t.endsOpening then .substitution :: outer else outer
  else outer

def openings (ts : List Token) : List Opening := ts.foldl openBehind []

end Token

/-- The braces open directly in each substitution, the innermost substitution first, where `within` more
braces are open inside them all. -/
def bracesWithin : (within : Nat) → List Opening → List Nat
  | _, [] => []
  | within, .brace :: outer => bracesWithin (within + 1) outer
  | within, .substitution :: outer => within :: bracesWithin 0 outer

theorem bracesWithin_succ (within : Nat) (outer : List Opening) :
    bracesWithin (within + 1) outer =
      match bracesWithin within outer with
      | [] => []
      | n :: ns => (n + 1) :: ns := by
  induction outer generalizing within with
  | nil => rfl
  | cons opening outer ih =>
    cases opening with
    | brace => exact ih (within + 1)
    | substitution => rfl

/-! ## Chunks -/

namespace Piece

theorem exists_template_body {cs : List Char} (h : (template cs).ending ≠ .cut) :
    ∃ body, TemplateBody body ∧ (template cs).text =
      body ++ if (template cs).ending = .substitution then ['$', '{'] else ['\x60'] := by
  fun_induction template cs with
  | case1 => exact absurd rfl h
  | case2 => exact ⟨[], .nil, rfl⟩
  | case3 => exact ⟨[], .nil, rfl⟩
  | case4 => exact absurd rfl h
  | case5 d cs ih =>
    obtain ⟨body, hbody, htext⟩ := ih h
    exact ⟨'\\' :: d :: body, .escape hbody, by simp [after, htext]⟩
  | case6 c cs hmark hopens hlast hescape ih =>
    obtain ⟨body, hbody, htext⟩ := ih h
    have hslash : c ≠ '\\' := by
      intro hc
      cases cs with
      | nil => exact hlast hc rfl
      | cons d cs => exact hescape d cs hc rfl
    refine ⟨c :: body, .plain hmark hslash ?_ hbody, by simp [after, htext]⟩
    rintro ⟨hc, hhead⟩
    obtain ⟨ds, rfl⟩ := List.head?_eq_some_iff.mp hhead
    have hcs := template_text_append_rest cs
    rw [htext] at hcs
    exact hopens _ hc hcs.symm

theorem backslashes_append_cons {c : Char} (hc : c ≠ '\\') (front rest : List Char) :
    backslashes (front ++ c :: rest) = backslashes (front ++ [c]) := by
  unfold backslashes
  induction front with
  | nil => simp [hc]
  | cons d front ih => by_cases hd : d = '\\' <;> simp [hd, ih]

theorem backslashes_append_pair {c : Char} (hc : c ≠ '\\') (front : List Char) :
    backslashes (front ++ ['\\', '\\', c]) % 2 = backslashes (front ++ [c]) % 2 := by
  unfold backslashes
  induction front with
  | nil => simp [hc]
  | cons d front ih =>
    by_cases hd : d = '\\'
    · simp only [hd, List.cons_append, decide_true, List.takeWhile_cons_of_pos, List.length_cons]
      omega
    · simp [hd]

/-- The backslashes at the end of a body go in pairs, since each takes the next character with it. `c`
is what stands in front of the body. -/
theorem TemplateBody.even {body : List Char} (h : TemplateBody body) {c : Char} (hc : c ≠ '\\') :
    backslashes (body.reverse ++ [c]) % 2 = 0 := by
  induction h generalizing c with
  | nil => simp [backslashes, hc]
  | @plain d body _ hslash _ _ ih =>
    rw [List.reverse_cons, List.append_assoc, List.singleton_append, backslashes_append_cons hslash]
    exact ih hslash
  | @escape d body _ ih =>
    rw [List.reverse_cons, List.reverse_cons, List.append_assoc, List.append_assoc, List.singleton_append,
      List.singleton_append]
    by_cases hd : d = '\\'
    · rw [hd, backslashes_append_pair hc]
      exact ih hc
    · rw [backslashes_append_cons hd]
      exact ih hd

end Piece

namespace Lexeme

theorem isChunk_template (mark : Char) (cs : List Char) :
    (template mark cs).1.kind.isChunk = true ↔ (Piece.template cs).ending ≠ .cut := by
  simp only [template]
  split <;> simp_all [Kind.isChunk]

theorem isChunk_dot (cs : List Char) : (dot cs).kind.isChunk = false := by
  fun_cases dot cs <;> rfl

theorem isChunk_equal (cs : List Char) : (equal cs).kind.isChunk = false := by
  fun_cases equal cs <;> rfl

theorem isChunk_question (cs : List Char) : (question cs).kind.isChunk = false := by
  fun_cases question cs <;> rfl

theorem isChunk_word (c : Char) (cs : List Char) : (word c cs).kind.isChunk = false := by
  cases hchunk : (word c cs).kind with
  | template value =>
    have hspelled : (word c cs).kind.spelling? ≠ none := by
      simp only [word, spanning]
      cases h : Kind.reserved? (String.ofList (c :: cs.takeWhile Text.isIdentifierContinue)) with
      | none => simp [Kind.spelling?]
      | some kind => simp [Kind.spelling?_of_reserved? h]
    rw [hchunk] at hspelled
    exact absurd rfl hspelled
  | _ => rfl

theorem isChunk_plain (regExpAllowed : Bool) (c : Char) (cs : List Char) :
    (plain regExpAllowed c cs).kind.isChunk = false := by
  fun_cases plain regExpAllowed c cs
  case case10 => exact isChunk_dot cs
  case case11 => exact isChunk_equal cs
  case case12 => exact isChunk_question cs
  case case13 =>
    simp only [regExp]
    split <;> rfl
  case case15 =>
    simp only [string]
    split <;> rfl
  case case17 => exact isChunk_word c cs
  case case18 =>
    simp only [privateName, spanning]
    split <;> rfl
  all_goals rfl

theorem endsOpening_of_template {mark : Char} (hmark : mark ≠ '\\') {cs : List Char} {t : Token}
    (htext : t.text = String.ofList (template mark cs).1.text) (h : (Piece.template cs).ending ≠ .cut) :
    t.endsOpening = (template mark cs).2 := by
  obtain ⟨body, hbody, hpiece⟩ := Piece.exists_template_body h
  have hreverse : t.text.toList.reverse =
      (if (Piece.template cs).ending = .substitution then ['{', '$'] else ['\x60']) ++ (body.reverse ++ [mark]) := by
    rw [htext]
    simp only [template, String.toList_ofList, hpiece]
    split <;> simp
  unfold Token.endsOpening
  rw [hreverse]
  by_cases hopens : (Piece.template cs).ending = .substitution
  · simp [template, hopens, hbody.even hmark]
  · simp [template, hopens]

end Lexeme

theorem Piece.rest_of_cut {cs : List Char} (h : (template cs).ending = .cut) : (template cs).rest = [] := by
  fun_induction template cs <;> simp_all [after]

/-! ## One token -/

namespace Lexer

open Token

section

variable {context : Context} {outer : List Opening} {cs : List Char} {t : Token}

/-- The token is the lexeme that starts with `c`. -/
structure IsLexeme (t : Token) (context : Context) (c : Char) (cs : List Char) : Prop where
  kind : t.kind = (lexeme context c cs).1.kind
  text : t.text = String.ofList (lexeme context c cs).1.text

theorem IsLexeme.startsWithBrace {c : Char} (h : IsLexeme t context c cs) :
    t.startsWithBrace = true ↔ c = '}' := by
  obtain ⟨more, htext, -⟩ := reads_lexeme context c cs
  simp [Token.startsWithBrace, h.text, htext]

theorem openBehind_chunk {mark : Char} (hmark : mark = '}' ∨ mark = '\x60')
    (hkind : t.kind = (Lexeme.template mark cs).1.kind)
    (htext : t.text = String.ofList (Lexeme.template mark cs).1.text) (hwhole : (Piece.template cs).ending ≠ .cut)
    (outer : List Opening) :
    openBehind outer t =
      let outer := if mark = '}' then outer.erase .substitution else outer
      if (Lexeme.template mark cs).2 then .substitution :: outer else outer := by
  have hchunk : t.kind.isChunk = true := by rw [hkind, Lexeme.isChunk_template]; exact hwhole
  have hopen : t.kind ≠ .leftBrace := by
    intro h
    rw [h] at hchunk
    cases hchunk
  have hclose : t.kind ≠ .rightBrace := by
    intro h
    rw [h] at hchunk
    cases hchunk
  have hstarts : t.startsWithBrace = decide (mark = '}') := by
    simp [Token.startsWithBrace, htext, Lexeme.template]
  have hslash : mark ≠ '\\' := by rcases hmark with rfl | rfl <;> decide
  rw [openBehind, if_neg hopen, if_neg hclose, if_pos hchunk, hstarts,
    Lexeme.endsOpening_of_template hslash htext hwhole]
  simp

theorem counts_leftBrace (h : context.substitutions = bracesWithin 0 outer) (ht : IsLexeme t context '{' cs) :
    (lexeme context '{' cs).2 = bracesWithin 0 (openBehind outer t) := by
  have hlexeme : lexeme context '{' cs = (⟨.leftBrace, ['{'], cs⟩, bracesWithin 1 outer) := by
    rw [bracesWithin_succ, ← h]
    cases hcounts : context.substitutions <;> simp [lexeme, hcounts, Lexeme.plain]
  have hkind := ht.kind
  rw [hlexeme] at hkind ⊢
  rw [openBehind, if_pos hkind]
  rfl

theorem lexeme_rightBrace (h : context.substitutions = bracesWithin 0 outer)
    (htop : outer.head? ≠ some .substitution) (cs : List Char) :
    lexeme context '}' cs = (⟨.rightBrace, ['}'], cs⟩, bracesWithin 0 (outer.erase .brace)) := by
  cases outer with
  | nil => simp [lexeme, h, bracesWithin, Lexeme.plain]
  | cons opening outer =>
    cases opening with
    | brace =>
      rw [bracesWithin, bracesWithin_succ] at h
      rw [List.erase_cons_head]
      cases hcounts : bracesWithin 0 outer <;> simp [lexeme, h, hcounts, Lexeme.plain]
    | substitution => exact absurd rfl htop

theorem counts_rightBrace (h : context.substitutions = bracesWithin 0 outer) (ht : IsLexeme t context '}' cs)
    (hrest : (lexeme context '}' cs).1.rest ≠ []) :
    (lexeme context '}' cs).2 = bracesWithin 0 (openBehind outer t) := by
  obtain ⟨hkind, htext⟩ := ht
  by_cases htop : outer.head? = some .substitution
  · obtain ⟨outer, rfl⟩ := List.head?_eq_some_iff.mp htop
    rw [lexeme_resume h] at hkind htext hrest ⊢
    have hwhole : (Piece.template cs).ending ≠ .cut := fun hcut => hrest (Piece.rest_of_cut hcut)
    rw [openBehind_chunk (.inl rfl) hkind htext hwhole, if_pos rfl, List.erase_cons_head]
    dsimp only
    split <;> rfl
  · rw [lexeme_rightBrace h htop] at hkind ⊢
    rw [openBehind, hkind]
    rfl

theorem counts_template (h : context.substitutions = bracesWithin 0 outer) (ht : IsLexeme t context '\x60' cs)
    (hrest : (lexeme context '\x60' cs).1.rest ≠ []) :
    (lexeme context '\x60' cs).2 = bracesWithin 0 (openBehind outer t) := by
  have hwhole : (Piece.template cs).ending ≠ .cut := fun hcut => hrest (Piece.rest_of_cut hcut)
  rw [openBehind_chunk (.inr rfl) ht.kind ht.text hwhole]
  have hlexeme : (lexeme context '\x60' cs).2 =
      if (Lexeme.template '\x60' cs).2 then 0 :: context.substitutions else context.substitutions := rfl
  rw [hlexeme, h]
  simp only [Char.reduceEq, ↓reduceIte]
  split <;> rfl

theorem counts_other {c : Char} (h : context.substitutions = bracesWithin 0 outer) (ht : IsLexeme t context c cs)
    (hopen : c ≠ '{') (hclose : c ≠ '}') (hmark : c ≠ '\x60') :
    (lexeme context c cs).2 = bracesWithin 0 (openBehind outer t) := by
  have hbrace := isBrace_lexeme hopen hclose ht.kind
  have hchunk : t.kind.isChunk = false := by
    rw [ht.kind, lexeme_eq_plain cs hmark fun hc => absurd hc hclose]
    exact Lexeme.isChunk_plain _ _ _
  simp only [Token.isBrace, Bool.or_eq_false_iff, decide_eq_false_iff_not] at hbrace
  simp [openBehind, hbrace, hchunk, lexeme, hopen, hclose, hmark, h]

/-- The counts of a lexer stay those of the stack, so long as no chunk is cut. That leaves nothing to read. -/
theorem counts_lexeme {c : Char} (h : context.substitutions = bracesWithin 0 outer) (ht : IsLexeme t context c cs)
    (hrest : (lexeme context c cs).1.rest ≠ []) :
    (lexeme context c cs).2 = bracesWithin 0 (openBehind outer t) := by
  by_cases hopen : c = '{'
  · subst hopen
    exact counts_leftBrace h ht
  by_cases hclose : c = '}'
  · subst hclose
    exact counts_rightBrace h ht hrest
  by_cases hmark : c = '\x60'
  · subst hmark
    exact counts_template h ht hrest
  · exact counts_other h ht hopen hclose hmark

end

theorem isLexeme_next {lexer : Lexer} {gap : List Char} {c : Char} {cs : List Char} (h : Ahead lexer.rest gap c cs) :
    IsLexeme lexer.next.1 lexer.context c cs := by
  rw [next_eq_tokenOf h]
  exact ⟨rfl, rfl⟩

theorem ahead_of_startsWithBrace {lexer : Lexer} (h : lexer.next.1.startsWithBrace = true) :
    ∃ gap cs, Ahead lexer.rest gap '}' cs := by
  rcases exists_ahead_or lexer.rest with ⟨gap, c, cs, hahead⟩ | hlast | hopen
  · rw [(isLexeme_next hahead).startsWithBrace] at h
    exact ⟨gap, cs, h ▸ hahead⟩
  · rw [next_of_lastGap hlast] at h
    cases h
  · rw [next_of_openGap hopen] at h
    cases h

/-! ## All tokens -/

theorem Run.counts {lexer place : Lexer} {ts : List Token} (hrun : Run lexer ts place) {outer : List Opening}
    (h : lexer.context.substitutions = bracesWithin 0 outer) (hrest : place.rest ≠ []) :
    place.context.substitutions = bracesWithin 0 (ts.foldl openBehind outer) := by
  induction hrun generalizing outer with
  | done => exact h
  | @step lexer place ts heof hrun ih =>
    rw [List.foldl_cons]
    refine ih ?_ hrest
    rcases exists_ahead_or lexer.rest with ⟨gap, c, cs, hahead⟩ | hlast | hopen
    · have hnext := next_eq_tokenOf hahead
      have hleft : (lexeme lexer.context c cs).1.rest ≠ [] := by
        obtain ⟨read, hread, -⟩ := hrun.exists_read
        rw [hnext] at hread
        rw [show (lexeme lexer.context c cs).1.rest = read ++ place.rest from hread]
        simp [hrest]
      have hcontext : lexer.next.2.context.substitutions = (lexeme lexer.context c cs).2 := by
        rw [hnext]
        exact substitutions_afterToken _ _ _
      rw [hcontext]
      exact counts_lexeme h (isLexeme_next hahead) hleft
    · exact absurd (congrArg (·.1.kind) (next_of_lastGap hlast)) heof
    · obtain ⟨read, hread, -⟩ := hrun.exists_read
      rw [next_of_openGap hopen] at hread
      simp [emptyToken, hrest] at hread

end Lexer

namespace Token

/-- The token goes on with a template: it is a chunk, or the start of one that is not closed. -/
def ResumesTemplate (t : Token) : Prop :=
  t.kind.isChunk = true ∨ t.kind = .invalid ∧ Piece.CutTemplate t.text.toList.tail

theorem ResumesTemplate.kind_ne {t : Token} (h : t.ResumesTemplate) : t.kind ≠ .rightBrace := by
  intro hkind
  rcases h with h | ⟨h, -⟩
  · rw [hkind] at h
    cases h
  · rw [hkind] at h
    cases h

theorem resumesTemplate_of_template {t : Token} {cs : List Char} (hkind : t.kind = (Lexeme.template '}' cs).1.kind)
    (htext : t.text = String.ofList (Lexeme.template '}' cs).1.text) : t.ResumesTemplate := by
  by_cases hcut : (Piece.template cs).ending = .cut
  · have hpiece := Piece.template_text_append_rest cs
    rw [Piece.rest_of_cut hcut, List.append_nil] at hpiece
    have htail : t.text.toList.tail = cs := by
      rw [htext, String.toList_ofList]
      exact hpiece
    refine .inr ⟨?_, ?_⟩
    · rw [hkind, Lexeme.kind_template_eq_invalid_iff, ← Piece.ending_template_eq_cut_iff, hcut]
    · rw [htail, ← Piece.ending_template_eq_cut_iff, hcut]
  · refine .inl ?_
    rw [hkind, Lexeme.isChunk_template]
    exact hcut

/-- A closing brace that starts a token goes on with a template exactly where a substitution is on top of
the stack, and is a brace elsewhere. The lexer holds the counts of that stack. -/
theorem closing_brace_resumes_iff {source : String} {ts back : List Token} {t : Token}
    (htokens : ofSource source = ts ++ t :: back) (hbrace : t.startsWithBrace = true) :
    (t.ResumesTemplate ↔ (openings ts).head? = some .substitution) ∧
      (t.kind = .rightBrace ↔ (openings ts).head? ≠ some .substitution) ∧
      ∃ place, Lexer.Run (.ofChars source.toList) ts place ∧ place.tokens = t :: back ∧
        place.context.substitutions = bracesWithin 0 (openings ts) := by
  obtain ⟨place, hrun, hplace⟩ := Lexer.exists_run_to htokens
  obtain ⟨more, hmore⟩ := place.exists_tokens_eq_cons
  obtain rfl : t = place.next.1 := (List.cons.inj (hplace.symm.trans hmore)).1
  obtain ⟨gap, cs, hahead⟩ := Lexer.ahead_of_startsWithBrace hbrace
  obtain ⟨hkind, htext⟩ := Lexer.isLexeme_next hahead
  have hcounts := @Lexer.Run.counts _ _ _ hrun [] rfl (by rw [hahead.text]; simp)
  change place.context.substitutions = bracesWithin 0 (openings ts) at hcounts
  by_cases htop : (openings ts).head? = some .substitution
  · obtain ⟨outer, houter⟩ := List.head?_eq_some_iff.mp htop
    have hsubstitutions : place.context.substitutions = 0 :: bracesWithin 0 outer := by rw [hcounts, houter]; rfl
    rw [Lexer.lexeme_resume hsubstitutions] at hkind htext
    have hresumes := resumesTemplate_of_template hkind htext
    exact ⟨iff_of_true hresumes htop, iff_of_false hresumes.kind_ne (not_not_intro htop), place, hrun,
      hplace, hcounts⟩
  · rw [Lexer.lexeme_rightBrace hcounts htop] at hkind
    exact ⟨iff_of_false (fun hresumes => hresumes.kind_ne hkind) htop, iff_of_true hkind htop, place, hrun, hplace,
      hcounts⟩

/-- The last brace of two templates, one in a substitution of the other, behind a brace that closes nothing,
one that is never closed and an object. -/
theorem closing_brace_resumes_nested :
    ∃ ts t back, ofSource "\x7d\x7b\x60a$\x7b\x60b$\x7b\x7b\x7d\x7dc\x60\x7dd" = ts ++ t :: back ∧
      t.text = "\x7dc\x60" ∧ openings ts = [.substitution, .substitution, .brace] ∧ t.ResumesTemplate := by
  have htokens : ofSource "\x7d\x7b\x60a$\x7b\x60b$\x7b\x7b\x7d\x7dc\x60\x7dd" =
      (ofSource "\x7d\x7b\x60a$\x7b\x60b$\x7b\x7b\x7d\x7dc\x60\x7dd").take 6 ++
        (ofSource "\x7d\x7b\x60a$\x7b\x60b$\x7b\x7b\x7d\x7dc\x60\x7dd")[6]! ::
          (ofSource "\x7d\x7b\x60a$\x7b\x60b$\x7b\x7b\x7d\x7dc\x60\x7dd").drop 7 := by decide +kernel
  have hresumes := closing_brace_resumes_iff htokens (by decide +kernel)
  exact ⟨_, _, _, htokens, by decide +kernel, by decide +kernel, hresumes.1.mpr (by decide +kernel)⟩

end Token

end Nodeless
