import Nodeless.Literal
import Nodeless.Proofs.Token.Renaming
import Nodeless.Proofs.Token.Spaced

/-!
# Quoted text in a source

Text between quotes is read as one string, whatever characters it is made of. So a source put together
from quoted texts, names and marks has the tokens that it was put together from. The string stands for
the text again unless a character of it is written as an escape that strings do not have.
-/

namespace Nodeless

/-! ## Escapes -/

namespace Piece

theorem string_plain {quote c : Char} (hline : c ≠ '\n') (hquote : c ≠ quote) (hslash : c ≠ '\\')
    (cs : List Char) : string quote (c :: cs) = (string quote cs).after [c] [c] := by
  rw [string.eq_def]
  simp only [if_neg hline, if_neg hquote, if_neg hslash]

theorem string_backslash (d : Char) (cs : List Char) :
    string '\x22' ('\\' :: d :: cs) = (string '\x22' cs).after ['\\', d] (stringEscape d) := by
  rw [string.eq_def]
  rfl

end Piece

namespace Text

/-- What a string stands for where a character is written as between quotes. A string has no escapes for
backspaces, form feeds and code points, and the backslash in front of those is lost. -/
def readBack (c : Char) : List Char :=
  if c = '\x08' then ['b']
  else if c = '\x0c' then ['f']
  else if c.toNat < 0x20 ∧ c ∉ ['\t', '\n', '\r'] then
    ['u', '0', '0', Nat.digitChar (c.toNat / 16), Nat.digitChar (c.toNat % 16)]
  else [c]

def quotedValue (text : List Char) : String := String.ofList (text.flatMap readBack)

theorem toList_quote (text : String) : (quote text).toList = quoteChars text.toList := String.toList_ofList

theorem digitChar_plain {n : Nat} (h : n < 16) :
    Nat.digitChar n ≠ '\n' ∧ Nat.digitChar n ≠ '\x22' ∧ Nat.digitChar n ≠ '\\' := by
  revert n
  decide

theorem string_escape (c : Char) (cs : List Char) :
    Piece.string '\x22' (escape c ++ cs) = (Piece.string '\x22' cs).after (escape c) (readBack c) := by
  fun_cases escape c
  case case8 hback htab hline hform hreturn hcontrol =>
    obtain ⟨hline₁, hquote₁, hslash₁⟩ := digitChar_plain (n := c.toNat / 16) (by omega)
    obtain ⟨hline₂, hquote₂, hslash₂⟩ := digitChar_plain (n := c.toNat % 16) (by omega)
    have hread : readBack c = ['u', '0', '0', Nat.digitChar (c.toNat / 16), Nat.digitChar (c.toNat % 16)] := by
      simp [readBack, hback, hform, hcontrol, htab, hline, hreturn]
    simp only [List.cons_append, List.nil_append]
    rw [hread, Piece.string_backslash, Piece.string_plain (by decide) (by decide) (by decide),
      Piece.string_plain (by decide) (by decide) (by decide), Piece.string_plain hline₁ hquote₁ hslash₁,
      Piece.string_plain hline₂ hquote₂ hslash₂]
    rfl
  case case9 hquote hslash hback _ hline hform _ hcontrol =>
    have hread : readBack c = [c] := by simp [readBack, hback, hform, hcontrol]
    rw [hread]
    exact Piece.string_plain hline hquote hslash cs
  -- A short escape is one backslash and one character.
  all_goals
    subst c
    exact Piece.string_backslash _ cs

theorem string_flatMap_escape (text rest : List Char) :
    Piece.string '\x22' (text.flatMap escape ++ '\x22' :: rest) =
      ⟨text.flatMap escape ++ ['\x22'], text.flatMap readBack, rest, .complete⟩ := by
  induction text with
  | nil => rw [List.flatMap_nil, List.nil_append, Piece.string.eq_def]; rfl
  | cons c text ih =>
    rw [List.flatMap_cons, List.append_assoc, string_escape, ih]
    simp [Piece.after]

end Text

/-! ## Texts put together -/

namespace Lexer

/-- Any lexer with the text in front of it reads these kinds, and what is behind the text is left. -/
def ReadsAs (text : List Char) (kinds : List Kind) (behind : List Char) : Prop :=
  ∀ lexer : Lexer, lexer.rest = text ++ behind →
    ∃ ts place, Run lexer ts place ∧ ts.map (·.kind) = kinds ∧ place.rest = behind

theorem ReadsAs.append {text more behind : List Char} {kinds others : List Kind}
    (h : ReadsAs text kinds (more ++ behind)) (hmore : ReadsAs more others behind) :
    ReadsAs (text ++ more) (kinds ++ others) behind := by
  intro lexer hrest
  obtain ⟨ts, between, hrun, rfl, hbetween⟩ := h lexer (by rw [hrest, List.append_assoc])
  obtain ⟨us, place, hrun', rfl, hplace⟩ := hmore between hbetween
  exact ⟨ts ++ us, place, hrun.append hrun', List.map_append, hplace⟩

theorem readsAs_of_next {text behind : List Char} {kind : Kind} (hkind : kind ≠ .eof)
    (h : ∀ lexer : Lexer, lexer.rest = text ++ behind → lexer.next.1.kind = kind ∧ lexer.next.2.rest = behind) :
    ReadsAs text [kind] behind := by
  intro lexer hrest
  obtain ⟨rfl, hbehind⟩ := h lexer hrest
  exact ⟨[lexer.next.1], lexer.next.2, .step hkind .done, rfl, hbehind⟩

theorem readsAs_lexeme {gap text behind : List Char} {c : Char} {cs : List Char} {kind : Kind}
    (htext : text ++ behind = gap ++ c :: cs) (hgap : Skipped gap) (hblank : Text.isBlank c = false)
    (hslash : c ≠ '/')
    (hlexeme : ∀ context, (lexeme context c cs).1.kind = kind ∧ (lexeme context c cs).1.rest = behind) :
    ReadsAs text [kind] behind := by
  refine readsAs_of_next ?_ fun lexer hrest => ?_
  · rw [← (hlexeme {}).1]
    exact kind_lexeme_ne_eof {} c cs
  · have hahead : Ahead lexer.rest gap c cs :=
      ⟨hrest.trans htext, hgap, hblank, not_startsComment_of_ne hslash⟩
    rw [next_eq_tokenOf hahead]
    exact hlexeme lexer.context

theorem readsAs_name {name : String} (hname : IsIdentifier name) {behind : List Char}
    (hstops : behind.head?.any Text.isIdentifierContinue = false) :
    ReadsAs name.toList [.identifier name] behind := by
  refine readsAs_of_next (by simp) fun lexer hrest => ?_
  rw [next_of_isIdentifier lexer hname .nil hstops (by rwa [List.nil_append])]
  exact ⟨rfl, rfl⟩

theorem readsAs_mark {c : Char} {kind : Kind}
    (h : (c, kind) ∈ [('(', Kind.leftParen), (')', Kind.rightParen), (',', Kind.comma)]) (behind : List Char) :
    ReadsAs [c] [kind] behind := by
  simp only [List.mem_cons, Prod.mk.injEq, List.not_mem_nil, or_false] at h
  rcases h with ⟨rfl, rfl⟩ | ⟨rfl, rfl⟩ | ⟨rfl, rfl⟩ <;>
    exact readsAs_lexeme rfl .nil (by decide) (by decide) fun context => ⟨rfl, rfl⟩

theorem readsAs_opened {name : String} (hname : IsIdentifier name) (behind : List Char) :
    ReadsAs (name.toList ++ ['(']) [.identifier name, .leftParen] behind :=
  (readsAs_name hname (by rfl)).append (readsAs_mark (by simp) behind)

theorem readsAs_dot {behind : List Char} (hdigit : behind.head?.any Char.isDigit = false)
    (hpoints : ¬['.', '.'] <+: behind) : ReadsAs ['.'] [.dot] behind := by
  have htext : ['.'] ++ behind = [] ++ '.' :: behind := rfl
  refine readsAs_lexeme htext .nil (by decide) (by decide) fun context => ?_
  rw [show lexeme context '.' behind = (Lexeme.dot behind, context.substitutions) from rfl,
    Lexeme.dot_of_stops hdigit hpoints]
  exact ⟨rfl, rfl⟩

theorem readsAs_quoted {gap : List Char} (hgap : Skipped gap) (text behind : List Char) :
    ReadsAs (gap ++ Text.quoteChars text) [.string (Text.quotedValue text)] behind := by
  have htext : gap ++ Text.quoteChars text ++ behind =
      gap ++ '\x22' :: (text.flatMap Text.escape ++ '\x22' :: behind) := by
    simp [Text.quoteChars]
  refine readsAs_lexeme htext hgap (by decide) (by decide) fun context => ?_
  rw [show lexeme context '\x22' _ = (Lexeme.string '\x22' _, context.substitutions) from rfl, Lexeme.string,
    Text.string_flatMap_escape]
  exact ⟨rfl, rfl⟩

end Lexer

theorem Token.kinds_of_readsAs {source : String} {kinds : List Kind} (h : Lexer.ReadsAs source.toList kinds [])
    (hhashbang : ¬['#', '!'] <+: source.toList) : (ofSource source).map (·.kind) = kinds ++ [.eof] := by
  rw [ofSource, Lexer.ofChars_of_not_hashbang hhashbang]
  obtain ⟨ts, place, hrun, rfl, hplace⟩ := h ⟨0, source.toList, {}⟩ (List.append_nil _).symm
  have hlast : LastGap place.rest := hplace ▸ .whole .nil
  have hnext := Lexer.next_of_lastGap hlast
  rw [hrun.tokens_eq, Lexer.tokens_of_eof (by rw [hnext]; rfl), hnext, List.map_append]
  rfl

namespace Text

theorem readsAs_quote (text : String) (behind : List Char) :
    Lexer.ReadsAs (quote text).toList [.string (quotedValue text.toList)] behind := by
  rw [toList_quote]
  exact Lexer.readsAs_quoted .nil text.toList behind

theorem kinds_quote (text : String) :
    (Token.ofSource (quote text)).map (·.kind) = [.string (quotedValue text.toList), .eof] :=
  Token.kinds_of_readsAs (readsAs_quote text []) (by simp [toList_quote, quoteChars])

/-! ## Read back -/

theorem readBack_ne_nil (c : Char) : readBack c ≠ [] := by
  fun_cases readBack c <;> exact List.cons_ne_nil _ _

theorem readBack_eq_singleton_iff (c : Char) : readBack c = [c] ↔ (c.toNat < 0x20 → c ∈ ['\t', '\n', '\r']) := by
  fun_cases readBack c
  case case1 | case2 =>
    subst c
    decide
  case case3 hcontrol => simp [hcontrol]
  case case4 hcontrol => simpa using fun hlt => by_contra fun hmem => hcontrol ⟨hlt, by simpa using hmem⟩

theorem flatMap_eq_self_iff {f : Char → List Char} (hf : ∀ c, f c ≠ []) (text : List Char) :
    text.flatMap f = text ↔ ∀ c ∈ text, f c = [c] := by
  have hgrows (text : List Char) : text.length ≤ (text.flatMap f).length := by
    induction text with
    | nil => exact Nat.le_refl 0
    | cons c text ih =>
      have hc := List.length_pos_iff.mpr (hf c)
      rw [List.flatMap_cons, List.length_append, List.length_cons]
      omega
  induction text with
  | nil => simp
  | cons c text ih =>
    rw [List.flatMap_cons, List.forall_mem_cons]
    constructor
    · intro h
      obtain ⟨d, ds, hd⟩ := List.exists_cons_of_ne_nil (hf c)
      have hlength := congrArg List.length h
      rw [hd, List.length_append, List.length_cons, List.length_cons] at hlength
      have hle := hgrows text
      have hnil : ds = [] := List.eq_nil_of_length_eq_zero (by omega)
      rw [hd, hnil, List.singleton_append, List.cons.injEq] at h
      exact ⟨by rw [hd, hnil, h.1], ih.mp h.2⟩
    · rintro ⟨hc, htext⟩
      rw [hc, ih.mpr htext, List.singleton_append]

theorem quotedValue_eq_iff (text : String) :
    quotedValue text.toList = text ↔ ∀ c ∈ text.toList, c.toNat < 0x20 → c ∈ ['\t', '\n', '\r'] := by
  have hchars : quotedValue text.toList = text ↔ text.toList.flatMap readBack = text.toList := by
    rw [quotedValue, ← String.toList_inj, String.toList_ofList]
  rw [hchars, flatMap_eq_self_iff readBack_ne_nil]
  exact forall₂_congr fun c _ => readBack_eq_singleton_iff c

end Text

namespace Literal

/-- The source of a text literal is read as one string, alone and in front of anything. The string stands
for the text if and only if the text has no control characters but tabs, line feeds and carriage returns. -/
theorem text_read_back_iff (value : String) :
    ∃ found, (Token.ofSource (text value).source).map (·.kind) = [.string found, .eof] ∧
      (∀ behind, Lexer.ReadsAs (text value).source.toList [.string found] behind) ∧
      (found = value ↔ ∀ c ∈ value.toList, c.toNat < 0x20 → c ∈ ['\t', '\n', '\r']) :=
  ⟨Text.quotedValue value.toList, Text.kinds_quote value, Text.readsAs_quote value, Text.quotedValue_eq_iff value⟩

/-- The backslash in front of the letter that a backspace is written with is lost. -/
theorem text_backspace_read_back :
    (Token.ofSource (text "\x08").source).map (·.kind) = [.string "b", .eof] ∧
      (Token.ofSource (text "\x08").source).map (·.kind) ≠ [.string "\x08", .eof] := by
  decide +kernel

end Literal

end Nodeless
