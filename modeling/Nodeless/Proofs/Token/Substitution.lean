import Mathlib.Algebra.GroupWithZero.Nat
import Nodeless.Proofs.Event.Braces
import Nodeless.Proofs.Token.Slash
import Nodeless.Proofs.Token.Spaced

/-!
# Texts in a substitution

A text in the substitution of a template is read as it is read alone, where reading starts in one
context. It does not: behind the chunk that opens a substitution no regular expression may start, as
if the template ended there.
-/

namespace Nodeless

open Source

def Span.behind (bytes : Nat) (s : Span) : Span := ⟨bytes + s.start, bytes + s.stop⟩

namespace Token

/-- The token of a text, where so many bytes stand in front of that text. -/
def behind (bytes : Nat) (t : Token) : Token := { t with span := t.span.behind bytes }

theorem slashNext_append_congr {us vs : List Token} (h : slashNext us = slashNext vs) (bytes : Nat) (ts : List Token) :
    slashNext (ts.map (behind bytes) ++ us) = slashNext (ts ++ vs) := by
  induction ts with
  | nil => exact h
  | cons t ts ih =>
    rw [List.map_cons, List.cons_append, List.cons_append, slashNext_cons, slashNext_cons, ih]
    rfl

/-- The tokens behind a text in a substitution: the last chunk of the template, and the end. -/
def templateEnd (stop : Nat) : List Token :=
  [⟨.template "b", "\x7db\x60", ⟨stop, stop + 3⟩, true⟩, ⟨.eof, "", ⟨stop + 3, stop + 3⟩, false⟩]

end Token

namespace Lexer

/-! ## Contexts -/

theorem cons_of_spelling? (context : Context) {c d : Char} (cs : List Char) {ds : List Char} {s : String}
    (h : (lexeme context c cs).1.kind.spelling? = some s) (hs : s.toList = d :: ds) : c = d := by
  obtain ⟨more, htext, -⟩ := reads_lexeme context c cs
  rw [spelled_lexeme context c cs s h, hs] at htext
  exact (List.cons.inj htext).1.symm

theorem isBrace_lexeme {context : Context} {c : Char} {cs : List Char} {t : Token} (hopen : c ≠ '{')
    (hclose : c ≠ '}') (h : t.kind = (lexeme context c cs).1.kind) : t.isBrace = false := by
  have hleft : t.kind ≠ .leftBrace := by
    intro hkind
    exact hopen (cons_of_spelling? context cs (by rw [← h, hkind]; rfl) rfl)
  have hright : t.kind ≠ .rightBrace := by
    intro hkind
    exact hclose (cons_of_spelling? context cs (by rw [← h, hkind]; rfl) rfl)
  simp [Token.isBrace, hleft, hright]

theorem lexeme_resume {context : Context} {ns : List Nat} (h : context.substitutions = 0 :: ns) (cs : List Char) :
    lexeme context '}' cs =
      ((Lexeme.template '}' cs).1, if (Lexeme.template '}' cs).2 then 0 :: ns else ns) := by
  simp [lexeme, h]

/-! ## One substitution more -/

/-- Around the open substitutions of a context there is one more, with `depth` braces open in it that
none of the others counts. The tokens behind close the braces of all. -/
def Context.within (context : Context) (depth : Nat) : Context :=
  { context with substitutions := context.substitutions ++ [depth] }

theorem substitutions_afterToken (context : Context) (kind : Kind) (text : List Char) :
    (context.afterToken kind text).substitutions = context.substitutions := by
  cases kind with
  | operator =>
    simp only [Context.afterToken]
    split <;> rfl
  | _ => rfl

theorem afterToken_within (context : Context) (depth : Nat) (kind : Kind) (text : List Char) :
    (context.within depth).afterToken kind text = (context.afterToken kind text).within depth := by
  cases kind with
  | operator =>
    simp only [Context.afterToken, Context.within]
    split <;> rfl
  | _ => rfl

/-- The lexeme is read in the substitution as it is outside. -/
def StaysWithin (context : Context) (c : Char) (cs : List Char) (depth : Nat) (ts : List Token) : Prop :=
  ∃ depth', lexeme (context.within depth) c cs =
      ((lexeme context c cs).1, (lexeme context c cs).2 ++ [depth']) ∧
    Closes (depth' + (lexeme context c cs).2.sum) ts

section

variable {context : Context} {c : Char} {cs : List Char} {depth : Nat} {t : Token} {ts : List Token}

theorem staysWithin_leftBrace (hkind : t.kind = (lexeme context '{' cs).1.kind)
    (h : Closes (depth + context.substitutions.sum) (t :: ts)) : StaysWithin context '{' cs depth ts := by
  unfold StaysWithin Context.within
  cases hsub : context.substitutions with
  | nil =>
    rw [closes_leftBrace (by simp [hkind, lexeme, hsub, Lexeme.plain])] at h
    exact ⟨depth + 1, by simp [lexeme, hsub, Lexeme.plain], by simpa [lexeme, hsub] using h⟩
  | cons n ns =>
    rw [closes_leftBrace (by simp [hkind, lexeme, hsub, Lexeme.plain])] at h
    refine ⟨depth, by simp [lexeme, hsub, Lexeme.plain], ?_⟩
    rw [hsub, List.sum_cons] at h
    simp only [lexeme, hsub, ↓reduceIte, List.sum_cons]
    rwa [Nat.add_right_comm n, ← Nat.add_assoc]

theorem staysWithin_rightBrace (hkind : t.kind = (lexeme context '}' cs).1.kind)
    (h : Closes (depth + context.substitutions.sum) (t :: ts)) : StaysWithin context '}' cs depth ts := by
  unfold StaysWithin Context.within
  cases hsub : context.substitutions with
  | nil =>
    obtain ⟨hpos, h⟩ := (closes_rightBrace (by simp [hkind, lexeme, hsub, Lexeme.plain])).mp h
    simp only [hsub, List.sum_nil, Nat.add_zero] at hpos h
    obtain ⟨depth, rfl⟩ := Nat.exists_eq_add_one_of_ne_zero (Nat.ne_of_gt hpos)
    exact ⟨depth, by simp [lexeme, hsub, Lexeme.plain], by simpa [lexeme, hsub] using h⟩
  | cons n ns =>
    cases n with
    | zero =>
      -- The brace ends a substitution, so it is a chunk of a template and no brace.
      have hplain : t.isBrace = false := by
        unfold Token.isBrace
        rw [hkind, lexeme_resume hsub]
        dsimp only [Lexeme.template]
        split <;> rfl
      rw [closes_plain hplain, hsub, List.sum_cons, Nat.zero_add] at h
      rw [lexeme_resume hsub, @lexeme_resume _ (ns ++ [depth]) rfl]
      refine ⟨depth, ?_, ?_⟩
      · dsimp only
        split <;> rfl
      · dsimp only
        split
        · rwa [List.sum_cons, Nat.zero_add]
        · exact h
    | succ n =>
      obtain ⟨-, h⟩ := (closes_rightBrace (by simp [hkind, lexeme, hsub, Lexeme.plain])).mp h
      refine ⟨depth, by simp [lexeme, hsub, Lexeme.plain], ?_⟩
      rw [hsub, List.sum_cons, Nat.add_right_comm n, ← Nat.add_assoc, Nat.add_sub_cancel] at h
      simpa [lexeme, hsub] using h

theorem staysWithin_of_ne (hopen : c ≠ '{') (hclose : c ≠ '}') (hkind : t.kind = (lexeme context c cs).1.kind)
    (h : Closes (depth + context.substitutions.sum) (t :: ts)) : StaysWithin context c cs depth ts := by
  rw [closes_plain (isBrace_lexeme hopen hclose hkind)] at h
  refine ⟨depth, ?_⟩
  unfold lexeme Context.within
  simp only [if_neg hopen, if_neg hclose]
  split
  · split <;> simp_all
  · simp_all

theorem staysWithin (c : Char) (cs : List Char) (hkind : t.kind = (lexeme context c cs).1.kind)
    (h : Closes (depth + context.substitutions.sum) (t :: ts)) : StaysWithin context c cs depth ts := by
  by_cases hopen : c = '{'
  · subst hopen
    exact staysWithin_leftBrace hkind h
  by_cases hclose : c = '}'
  · subst hclose
    exact staysWithin_rightBrace hkind h
  · exact staysWithin_of_ne hopen hclose hkind h

end

/-! ## Reading within -/

/-- The lexer at the same place of the same text, where that text stands in a substitution. So many
bytes are in front of it, and a line feed and the rest behind. -/
def within (bytes : Nat) (rest : List Char) (depth : Nat) (lexer : Lexer) : Lexer :=
  ⟨bytes + lexer.offset, lexer.rest ++ '\n' :: rest, lexer.context.within depth⟩

section

variable {lexer : Lexer} {bytes depth : Nat} {rest : List Char}

theorem exists_next_within (bytes : Nat) (rest : List Char) (heof : lexer.next.1.kind ≠ .eof)
    (hvalid : lexer.next.1.kind ≠ .invalid) (h : Closes (depth + lexer.context.substitutions.sum) lexer.tokens) :
    ∃ depth', (lexer.within bytes rest depth).next =
        (lexer.next.1.behind bytes, lexer.next.2.within bytes rest depth') ∧
      Closes (depth' + lexer.next.2.context.substitutions.sum) lexer.next.2.tokens := by
  rcases exists_ahead_or lexer.rest with ⟨gap, c, cs, hahead⟩ | hlast | hopen
  · have hnext := next_eq_tokenOf hahead
    rw [tokens_of_ne_eof heof] at h
    obtain ⟨depth', hlexeme, hcloses⟩ := staysWithin c cs (by rw [hnext]; rfl) h
    have hrest : (lexer.within bytes rest depth).rest = gap ++ ((lexeme lexer.context c cs).1.text ++
        ((lexeme lexer.context c cs).1.rest ++ '\n' :: rest)) := by
      rw [← List.append_assoc _ _ ('\n' :: rest), text_append_rest_lexeme, ← List.append_assoc, ← hahead.text]
      rfl
    rw [hnext] at hvalid hcloses
    have hother := next_before (lexer.within bytes rest depth) hahead hahead.skipped hrest hlexeme (.inl hvalid)
      (prolongsLess_append_lineFeed _ _)
    have hcontext := afterToken_within { lexer.context with substitutions := (lexeme lexer.context c cs).2 } depth'
      (lexeme lexer.context c cs).1.kind (lexeme lexer.context c cs).1.text
    refine ⟨depth', ?_, ?_⟩
    · rw [hother, hnext]
      refine Prod.ext ?_ (Lexer.ext ?_ rfl hcontext)
      · simp only [tokenOf, within, Lexeme.before, Token.behind, Span.behind, Nat.add_assoc]
      · simp only [tokenOf, within, Lexeme.before, Nat.add_assoc]
    · rw [hnext]
      simp only [tokenOf, substitutions_afterToken]
      exact hcloses
  · exact absurd (congrArg (·.1.kind) (next_of_lastGap hlast)) heof
  · exact absurd (kind_of_openGap hopen) hvalid

theorem Run.exists_within (bytes : Nat) (rest : List Char) {ts : List Token} {place : Lexer}
    (h : Run lexer ts place) (hvalid : ∀ t ∈ ts, t.kind ≠ .invalid)
    (hcloses : Closes (depth + lexer.context.substitutions.sum) lexer.tokens) :
    ∃ depth', Run (lexer.within bytes rest depth) (ts.map (Token.behind bytes)) (place.within bytes rest depth') ∧
      Closes (depth' + place.context.substitutions.sum) place.tokens := by
  induction h generalizing depth with
  | done => exact ⟨depth, .done, hcloses⟩
  | step heof _ ih =>
    obtain ⟨hvalid, hlater⟩ := List.forall_mem_cons.mp hvalid
    obtain ⟨depth', hnext, hcloses⟩ := exists_next_within bytes rest heof hvalid hcloses
    obtain ⟨depth'', hrun, hcloses⟩ := ih hlater hcloses
    exact ⟨depth'', .cons hnext heof hrun, hcloses⟩

theorem tokens_within_of_eof (heof : lexer.next.1.kind = .eof) (hsubstitutions : lexer.context.substitutions = []) :
    (lexer.within bytes ['}', 'b', '\x60'] 0).tokens =
      Token.templateEnd (bytes + lexer.offset + byteLength lexer.rest + 1) := by
  have hgap := (lastGap_of_eof heof).skipped
  have hahead : Ahead (lexer.within bytes ['}', 'b', '\x60'] 0).rest (lexer.rest ++ ['\n']) '}' ['b', '\x60'] :=
    ⟨by simp [within], hgap, by decide, not_startsComment_of_ne (by decide)⟩
  have hnext := next_eq_tokenOf hahead
  have hchunk : Lexeme.template '}' ['b', '\x60'] = (⟨.template "b", ['}', 'b', '\x60'], []⟩, false) := by
    decide +kernel
  rw [@lexeme_resume _ [] (by simp [within, Context.within, hsubstitutions]), hchunk] at hnext
  have hlast : LastGap (lexer.within bytes ['}', 'b', '\x60'] 0).next.2.rest := by
    rw [hnext]
    exact .whole .nil
  rw [tokens_of_ne_eof (kind_of_ahead hahead), tokens_of_eof (by rw [next_of_lastGap hlast]; rfl),
    next_of_lastGap hlast, hnext]
  have hline : byteLength ['\n'] = 1 := rfl
  have hclosing : byteLength ['}', 'b', '\x60'] = 3 := rfl
  have hnone : byteLength [] = 0 := rfl
  simp [Token.templateEnd, tokenOf, emptyToken, within, hline, hclosing, hnone, Nat.add_assoc]

end

end Lexer

/-! ## The whole source -/

namespace Token

/-- The source in the substitution of a template. -/
def substituted (source : String) : String := "\x60a$\x7b" ++ source ++ "\n\x7db\x60"

/-- The tokens of the source, with those of the template around them. -/
def surrounded (source : String) : List Token :=
  ⟨.template "a", "\x60a$\x7b", ⟨0, 4⟩, false⟩ ::
    (((ofSource source).filter fun t => t.kind ≠ .eof).map (behind 4) ++
      templateEnd (4 + byteLength source.toList + 1))

end Token

namespace Lexer

/-- Where the text ends, no substitution is open. -/
def EndsOutside (lexer : Lexer) : Prop :=
  ∃ ts place, Run lexer ts place ∧ place.next.1.kind = .eof ∧ place.context.substitutions = []

/-- The lexer behind the opening chunk, as it would stand if a regular expression could start there. -/
def opened (source : String) : Lexer := within 4 ['}', 'b', '\x60'] 0 ⟨0, source.toList, {}⟩

theorem tokens_substituted (source : String) :
    ∃ behind, Token.ofSource (Token.substituted source) =
        ⟨.template "a", "\x60a$\x7b", ⟨0, 4⟩, false⟩ :: behind.tokens ∧
      SlashApart (opened source) behind := by
  have htext : (Token.substituted source).toList =
      '\x60' :: 'a' :: '$' :: '{' :: (source.toList ++ ['\n', '}', 'b', '\x60']) := by
    simp [Token.substituted]
  have hchunk : Lexeme.template '\x60' ('a' :: '$' :: '{' :: (source.toList ++ ['\n', '}', 'b', '\x60'])) =
      (⟨.template "a", ['\x60', 'a', '$', '{'], source.toList ++ ['\n', '}', 'b', '\x60']⟩, true) := by
    simp [Lexeme.template, Piece.template, Piece.after]
  have hlexeme (cs : List Char) : lexeme {} '\x60' cs =
      ((Lexeme.template '\x60' cs).1, if (Lexeme.template '\x60' cs).2 then [0] else []) := rfl
  have hstart := @ofChars_of_not_hashbang (Token.substituted source).toList
    (by rw [htext]; simp [List.cons_prefix_cons])
  have hahead : Ahead (ofChars (Token.substituted source).toList).rest [] '\x60'
      ('a' :: '$' :: '{' :: (source.toList ++ ['\n', '}', 'b', '\x60'])) :=
    ⟨by rw [hstart, htext]; rfl, .nil, by decide, not_startsComment_of_ne (by decide)⟩
  rw [Token.ofSource, tokens_of_ne_eof (kind_of_ahead hahead), next_eq_tokenOf hahead, hstart, hlexeme, hchunk]
  exact ⟨_, rfl, rfl, rfl, rfl, rfl, rfl, fun _ => rfl⟩

theorem tokens_opened {source : String} {ts : List Token} {place : Lexer}
    (hrun : Run ⟨0, source.toList, {}⟩ ts place) (heof : place.next.1.kind = .eof)
    (hsubstitutions : place.context.substitutions = []) (hvalid : ∀ t ∈ ts, t.kind ≠ .invalid)
    (hbraces : Closes 0 (tokens ⟨0, source.toList, {}⟩)) :
    (opened source).tokens = ts.map (Token.behind 4) ++ Token.templateEnd (4 + byteLength source.toList + 1) := by
  obtain ⟨depth, hwithin, hcloses⟩ := hrun.exists_within 4 ['}', 'b', '\x60'] hvalid hbraces
  have hbytes := hrun.bytes_eq
  rw [tokens_of_eof heof, closes_plain (by simp [Token.isBrace, heof]), hsubstitutions, List.sum_nil,
    Nat.add_zero] at hcloses
  cases hcloses
  rw [opened, hwithin.tokens_eq, tokens_within_of_eof heof hsubstitutions]
  congr 2
  dsimp only at hbytes
  omega

end Lexer

namespace Token

/-- A source in a substitution has its own tokens unless a slash comes first in it. -/
theorem looks_substituted_iff {source : String} (hfront : ¬['#', '!'] <+: source.toList)
    (hvalid : ∀ t ∈ ofSource source, t.kind ≠ .invalid) (hends : (Lexer.ofChars source.toList).EndsOutside)
    (hbraces : Closes 0 (ofSource source)) :
    (ofSource (substituted source)).map looks = (surrounded source).map looks ↔
      slashNext (ofSource source) = false := by
  obtain ⟨ts, place, hrun, heof, hsubstitutions⟩ := hends
  obtain ⟨behind, hbehind, hapart⟩ := Lexer.tokens_substituted source
  have htokens : ofSource source = ts ++ [place.next.1] := by
    rw [ofSource, hrun.tokens_eq, Lexer.tokens_of_eof heof]
  have hkept : ((ofSource source).filter fun t => t.kind ≠ .eof) = ts := by
    rw [htokens, List.filter_append, List.filter_eq_self.mpr fun t ht => by simpa using hrun.kind_ne_eof t ht]
    simp [heof]
  have hopened := Lexer.tokens_opened (by rwa [Lexer.ofChars_of_not_hashbang hfront] at hrun) heof hsubstitutions
    (fun t ht => hvalid t (by simp [htokens, ht])) (by rwa [ofSource, Lexer.ofChars_of_not_hashbang hfront] at hbraces)
  have hquiet : slashNext (templateEnd (4 + byteLength source.toList + 1)) = slashNext [place.next.1] := by
    rw [Lexer.next_of_lastGap (Lexer.lastGap_of_eof heof)]
    simp [slashNext, templateEnd, isUpdate, startsWithSlash, Lexer.emptyToken]
  have hnext := slashNext_append_congr hquiet 4 ts
  rw [← hopened, ← htokens] at hnext
  rw [hbehind, surrounded, hkept, ← hopened, List.map_cons, List.map_cons, List.cons_inj_right,
    hapart.looks_eq_iff, hnext]

theorem looks_substituted_block :
    (ofSource (substituted "\x7b/\x7d/\x7d//")).map looks = (surrounded "\x7b/\x7d/\x7d//").map looks :=
  (looks_substituted_iff (by decide +kernel) (by decide +kernel)
    ⟨_, _, .step (by decide +kernel) (.step (by decide +kernel) (.step (by decide +kernel) .done)),
      by decide +kernel, by decide +kernel⟩
    (by decide +kernel)).mpr (by decide +kernel)

/-- Nothing is wrong with the source, and yet its slash is taken for a division. -/
theorem looks_substituted_slash :
    (¬['#', '!'] <+: "/\x7d/".toList) ∧ (∀ t ∈ ofSource "/\x7d/", t.kind ≠ .invalid) ∧
      (Lexer.ofChars "/\x7d/".toList).EndsOutside ∧ Closes 0 (ofSource "/\x7d/") ∧
      (ofSource (substituted "/\x7d/")).map looks ≠ (surrounded "/\x7d/").map looks := by
  refine ⟨?_, ?_, ⟨_, _, .step ?_ .done, ?_, ?_⟩, ?_, ?_⟩
  all_goals decide +kernel

end Token

end Nodeless
