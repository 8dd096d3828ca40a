import Mathlib.Data.List.TakeWhile
import Nodeless.Module.Patch
import Nodeless.Proofs.Token.Coverage
import Nodeless.Proofs.Token.Defect
import Nodeless.Proofs.Token.Slash

/-!
# Names in the place of keywords

A keyword behind a point is the name of a property, and any other name of its length could stand
there. The other tokens of the source stay as they are, unless a slash shows that the lexer takes the
keyword for more than a name.
-/

namespace Nodeless

open Source

/-! ## Words -/

namespace Text

theorem ne_of_isIdentifierStart {c d : Char} (h : isIdentifierStart c = true) (hd : isIdentifierStart d = false) :
    c ≠ d := by
  rintro rfl
  rw [h] at hd
  cases hd

theorem not_mem_of_isIdentifierStart {c : Char} (h : isIdentifierStart c = true) {ds : List Char}
    (hds : ds.any isIdentifierStart = false) : c ∉ ds :=
  fun hc => List.any_eq_false.mp hds c hc h

theorem inRanges_of_isAlpha {c : Char} (h : c.isAlpha = true) : inRanges [(65, 90), (97, 122)] c = true := by
  have hletter :
      (decide (c.val ≥ 'A'.val ∧ c.val ≤ 'Z'.val) || (c.val ≥ 'a'.val && c.val ≤ 'z'.val)) = true :=
    h
  simp only [Bool.or_eq_true, Bool.and_eq_true, decide_eq_true_eq, UInt32.le_iff_toNat_le, ge_iff_le] at hletter
  simp only [inRanges, List.any_cons, List.any_nil, Bool.or_false, Bool.or_eq_true, Bool.and_eq_true, decide_eq_true_eq]
  exact hletter

theorem isIdentifierStart_of_isAlpha {c : Char} (h : c.isAlpha = true) : isIdentifierStart c = true := by
  have hletters := inRanges_of_isAlpha h
  have hascii : c.toNat < 128 := by
    simp only [inRanges, List.any_cons, List.any_nil, Bool.or_false, Bool.or_eq_true, Bool.and_eq_true,
      decide_eq_true_eq] at hletters
    omega
  simp [isIdentifierStart, hascii, h]

theorem inRanges_of_isIdentifierStart {c : Char} (h : isIdentifierStart c = true) :
    inRanges ([(65, 90), (97, 122)] ++ ([(36, 36), (95, 95)] ++ startRanges)) c = true := by
  unfold inRanges
  rw [List.any_append, List.any_append, Bool.or_eq_true, Bool.or_eq_true]
  unfold isIdentifierStart at h
  split at h
  case isTrue =>
    simp only [Bool.or_eq_true, decide_eq_true_eq] at h
    rcases h with (halpha | rfl) | rfl
    · exact .inl (inRanges_of_isAlpha halpha)
    · exact .inr (.inl (by decide))
    · exact .inr (.inl (by decide))
  case isFalse => exact .inr (.inr h)

theorem inRanges_eq_false (ranges : List (Nat × Nat)) {c : Char} (h : isIdentifierStart c = true)
    (hranges : ∀ r ∈ [(65, 90), (97, 122)] ++ ([(36, 36), (95, 95)] ++ startRanges), ∀ s ∈ ranges,
      r.2 < s.1 ∨ s.2 < r.1) : inRanges ranges c = false := by
  obtain ⟨r, hr, hin⟩ := List.any_eq_true.mp (inRanges_of_isIdentifierStart h)
  refine List.any_eq_false.mpr fun s hs => ?_
  have := hranges r hr s hs
  simp only [Bool.and_eq_true, decide_eq_true_eq] at hin ⊢
  omega

theorem isBlank_of_isIdentifierStart {c : Char} (h : isIdentifierStart c = true) : isBlank c = false :=
  inRanges_eq_false _ h (by decide +kernel)

theorem isDigit_of_isIdentifierStart {c : Char} (h : isIdentifierStart c = true) : c.isDigit = false := by
  have hdigits := inRanges_eq_false [(48, 57)] h (by decide +kernel)
  simp only [inRanges, List.any_cons, List.any_nil, Bool.or_false] at hdigits
  rw [Char.isDigit, ← hdigits]
  rfl

end Text

/-- The name is read as an identifier. -/
def IsIdentifier (name : String) : Prop :=
  ∃ c cs, name.toList = c :: cs ∧ Text.isIdentifierStart c = true ∧
    (∀ d ∈ cs, Text.isIdentifierContinue d = true) ∧ Kind.reserved? name = none

instance (name : String) : Decidable (IsIdentifier name) :=
  match hname : name.toList with
  | [] => isFalse fun ⟨c, cs, hchars, _⟩ => List.cons_ne_nil c cs (hchars.symm.trans hname)
  | c :: cs =>
    decidable_of_iff (Text.isIdentifierStart c = true ∧ cs.all Text.isIdentifierContinue = true ∧
        Kind.reserved? name = none) <| by
      unfold IsIdentifier
      simp [hname]

theorem Keyword.exists_alpha (k : Keyword) : ∃ c cs, k.spelling.toList = c :: cs ∧ c.isAlpha = true := by
  cases k <;> exact ⟨_, _, rfl, by decide⟩

namespace Lexer

theorem lexeme_of_isIdentifierStart {c : Char} (h : Text.isIdentifierStart c = true) (context : Context)
    (cs : List Char) : lexeme context c cs = (Lexeme.word c cs, context.substitutions) := by
  have hdigit := Text.isDigit_of_isIdentifierStart h
  have hmark : c ∉ marks := Text.not_mem_of_isIdentifierStart h (by decide)
  have hoperators : c ∉ ['+', '-', '*', '/', '%', '<', '>', '!', '&', '|', '^', '~'] :=
    Text.not_mem_of_isIdentifierStart h (by decide)
  simp only [marks, List.mem_cons, List.not_mem_nil, or_false, not_or] at hmark hoperators
  simp [lexeme, Lexeme.plain, Lexeme.startsOperator, hmark, hoperators, hdigit, h]

variable {lexer : Lexer} {k : Keyword} {name : String} {gap behind : List Char}

/-- The lexer stands before a gap and the keyword, and no more of a word is behind that. -/
structure AtKeyword (lexer : Lexer) (k : Keyword) (gap behind : List Char) : Prop where
  rest : lexer.rest = gap ++ (k.spelling.toList ++ behind)
  skipped : Skipped gap
  stops : behind.head?.any Text.isIdentifierContinue = false
  next : lexer.next = lexer.tokenOf gap (⟨.keyword k, k.spelling.toList, behind⟩, lexer.context.substitutions)

theorem exists_atKeyword (h : lexer.next.1.kind = .keyword k) : ∃ gap behind, AtKeyword lexer k gap behind := by
  rcases exists_ahead_or lexer.rest with ⟨gap, c, cs, hahead⟩ | hlast | hopen
  · have hnext := next_eq_tokenOf hahead
    have hkind : (lexeme lexer.context c cs).1.kind = .keyword k := by rwa [hnext] at h
    have htext := spelled_lexeme lexer.context c cs k.spelling (by rw [hkind]; rfl)
    have hrest := text_append_rest_lexeme lexer.context c cs
    have hstart : Text.isIdentifierStart c = true := by
      obtain ⟨d, ds, hspelling, hd⟩ := k.exists_alpha
      rw [htext, hspelling] at hrest
      obtain ⟨rfl, -⟩ := List.cons.inj hrest
      exact Text.isIdentifierStart_of_isAlpha hd
    rw [lexeme_of_isIdentifierStart hstart] at hnext hkind htext hrest
    dsimp only at hkind htext hrest
    refine ⟨gap, (Lexeme.word c cs).rest, ?_, hahead.skipped, stops_dropWhile _ cs, ?_⟩
    · rw [hahead.text, ← hrest, htext]
    · rw [hnext, ← hkind, ← htext]
  · rw [next_of_lastGap hlast] at h
    cases h
  · rw [next_of_openGap hopen] at h
    cases h

theorem next_of_isIdentifier (lexer : Lexer) (hname : IsIdentifier name) (hgap : Skipped gap)
    (hstops : behind.head?.any Text.isIdentifierContinue = false)
    (hrest : lexer.rest = gap ++ (name.toList ++ behind)) :
    lexer.next = lexer.tokenOf gap (⟨.identifier name, name.toList, behind⟩, lexer.context.substitutions) := by
  obtain ⟨c, cs, hchars, hstart, hcontinue, hreserved⟩ := hname
  have hahead : Ahead lexer.rest gap c (cs ++ behind) :=
    ⟨by rw [hrest, hchars, List.cons_append], hgap, Text.isBlank_of_isIdentifierStart hstart,
      not_startsComment_of_ne (Text.ne_of_isIdentifierStart hstart (by decide))⟩
  have hread : Lexeme.word c (cs ++ behind) = ⟨.identifier name, name.toList, behind⟩ := by
    have htake : cs.takeWhile Text.isIdentifierContinue = cs := List.takeWhile_eq_self_iff.mpr hcontinue
    have happend := takeWhile_append_of_stops hstops cs
    have hdrop := dropWhile_append_of_stops hstops cs
    have hspelled : String.ofList (c :: cs) = name := by rw [← hchars, String.ofList_toList]
    rw [htake] at happend hdrop
    simp [Lexeme.word, Lexeme.spanning, happend, hdrop, hspelled, hreserved, hchars]
  rw [next_eq_tokenOf hahead, lexeme_of_isIdentifierStart hstart, hread]

end Lexer

/-! ## Prefixes -/

theorem prolongs_of_isIdentifierStart {c c' : Char} (hc : c.isAlpha = true) (hc' : Text.isIdentifierStart c' = true)
    {p : Char → Bool} (hp : p ∈ prolonging) (h : p c' = true) : p c = true := by
  have hstart := Text.isIdentifierStart_of_isAlpha hc
  have hdigit := Text.isDigit_of_isIdentifierStart hc'
  have hmarks : c' ∉ ['+', '-', '*', '/', '%', '<', '>', '&', '|', '^', '=', '?'] :=
    Text.not_mem_of_isIdentifierStart hc' (by decide)
  simp only [List.mem_cons, List.not_mem_nil, or_false, not_or] at hmarks
  simp only [prolonging, List.mem_cons, List.not_mem_nil, or_false] at hp
  rcases hp with rfl | rfl | rfl | rfl | rfl | rfl | rfl | rfl | rfl | rfl
  · simp [Text.isIdentifierContinue, hstart]
  · simp [Lexeme.continuesOperator, hmarks] at h
  · simp [Lexeme.continuesNumber, Char.isAlphanum, hc]
  · simp [Lexeme.isSign, hmarks] at h
  · rw [hdigit] at h
    cases h
  all_goals simp [hmarks] at h

theorem prolongsLess_of_words {c c' : Char} (hc : c.isAlpha = true) (hc' : Text.isIdentifierStart c' = true)
    (front a b : List Char) : ProlongsLess (front ++ c :: a) (front ++ c' :: b) := by
  have hpoint' : c' ≠ '.' := Text.ne_of_isIdentifierStart hc' (by decide)
  have hdigit : c.isDigit = false := Text.isDigit_of_isIdentifierStart (Text.isIdentifierStart_of_isAlpha hc)
  rcases front with _ | ⟨d, _ | ⟨e, front⟩⟩
  · refine ⟨fun p hp h => prolongs_of_isIdentifierStart hc hc' hp h, fun h => ?_, fun h => ?_⟩
    · exact absurd (List.cons_prefix_cons.mp h).1.symm hpoint'
    · simp [opensChain, hpoint'] at h
  · refine ⟨fun p hp h => h, fun h => ?_, fun h => ?_⟩
    · simp [List.cons_prefix_cons, hpoint'.symm] at h
    · by_cases hd : d = '.' <;> simp_all [opensChain]
  · refine ⟨fun p hp h => h, fun h => ?_, fun h => ?_⟩
    · simpa [List.cons_prefix_cons] using h
    · by_cases hd : d = '.' <;> simp_all [opensChain]

theorem Gap.hashbang_append_congr {c c' : Char} (hc : Text.isIdentifierStart c = true)
    (hc' : Text.isIdentifierStart c' = true) (front a b : List Char)
    (h : hashbang (front ++ c :: a) <+: front) : hashbang (front ++ c' :: b) = hashbang (front ++ c :: a) := by
  have hfront : ['#', '!'] <+: front ++ c' :: b ↔ ['#', '!'] <+: front ++ c :: a := by
    have hne {d : Char} (hd : Text.isIdentifierStart d = true) : d ≠ '#' ∧ d ≠ '!' :=
      ⟨Text.ne_of_isIdentifierStart hd (by decide), Text.ne_of_isIdentifierStart hd (by decide)⟩
    rcases front with _ | ⟨d, _ | ⟨e, front⟩⟩
    · simp [List.cons_prefix_cons, (hne hc).1.symm, (hne hc').1.symm]
    · simp [List.cons_prefix_cons, (hne hc).2.symm, (hne hc').2.symm]
    · simp [List.cons_prefix_cons]
  unfold hashbang at h ⊢
  simp only [List.isPrefixOf_iff_prefix, hfront] at h ⊢
  split at h
  case isFalse hf => simp [hf]
  case isTrue hf =>
    rw [if_pos hf, if_pos hf, List.takeWhile_append, List.takeWhile_append]
    split
    case isFalse => rfl
    case isTrue hall =>
      -- The line would reach the word, and end only behind it.
      have hline : Text.endsLine c = false := by
        simp [Text.endsLine, Text.ne_of_isIdentifierStart hc (d := '\n') (by decide),
          Text.ne_of_isIdentifierStart hc (d := '\r') (by decide)]
      rw [List.takeWhile_append, if_pos hall] at h
      have hle := h.length_le
      simp only [List.takeWhile_cons, hline, Bool.not_false, ↓reduceIte, List.length_append, List.length_cons] at hle
      omega

namespace Lexer

/-- What is read up to a place does not depend on what stands behind it, so long as that prolongs
nothing more. -/
theorem Run.exists_before {lexer place : Lexer} {ts : List Token} (h : Run lexer ts place) {rest : List Char}
    (hne : place.rest ≠ []) (hless : ∀ front, ProlongsLess (front ++ place.rest) (front ++ rest)) :
    ∃ front, lexer.rest = front ++ place.rest ∧
      Run ⟨lexer.offset, front ++ rest, lexer.context⟩ ts ⟨place.offset, rest, place.context⟩ := by
  induction h with
  | done => exact ⟨[], rfl, .done⟩
  | @step lexer place ts heof _ ih =>
    obtain ⟨front, hfront, hrun⟩ := ih hne hless
    rcases exists_ahead_or lexer.rest with ⟨gap, c, cs, hahead⟩ | hlast | hopen
    · have hnext := next_eq_tokenOf hahead
      rw [hnext] at hfront hrun
      simp only [tokenOf] at hfront hrun
      refine ⟨gap ++ ((lexeme lexer.context c cs).1.text ++ front), ?_, ?_⟩
      · rw [hahead.text, ← text_append_rest_lexeme lexer.context c cs, hfront]
        simp
      have hended : (lexeme lexer.context c cs).1.Ended := .inr (by simp [hfront, hne])
      have hother := next_before ⟨lexer.offset, gap ++ ((lexeme lexer.context c cs).1.text ++ (front ++ rest)),
        lexer.context⟩ hahead hahead.skipped rfl rfl hended (by rw [hfront]; exact hless front)
      rw [List.append_assoc, List.append_assoc, hnext]
      refine .cons hother (kind_lexeme_ne_eof lexer.context c cs) hrun
    · exact absurd (congrArg (·.1.kind) (next_of_lastGap hlast)) heof
    · rw [next_of_openGap hopen] at hfront
      simp [emptyToken, hne] at hfront

end Lexer

/-! ## Behind the word -/

namespace Token

/-- The tokens behind a head in parentheses, where the tokens start with one. -/
def behindHead : List Token → List Token
  | [] => []
  | t :: ts => if t.kind = .leftParen then behindClose 0 ts else []

end Token

/-- A slash behind the keyword is taken for what it is not behind a name: next to the keyword, or behind
the parentheses that a head would stand in. -/
def Keyword.misleads (k : Keyword) (after : List Token) : Bool :=
  (Kind.keyword k).allowsRegExpAfter && Token.slashNext after ||
    k.opensHead && Token.slashNext (Token.behindHead after)

theorem Keyword.allowsRegExpAfter_of_opensHead {k : Keyword} (h : k.opensHead = true) :
    (Kind.keyword k).allowsRegExpAfter = true := by
  cases k <;> first | rfl | cases h

namespace Lexer

/-- Two lexers that stand behind a word. One took it for a keyword, and the other for a name. -/
structure WordApart (k : Keyword) (kept other : Lexer) : Prop where
  offset : other.offset = kept.offset
  rest : other.rest = kept.rest
  heads : other.context.heads = kept.context.heads
  substitutions : other.context.substitutions = kept.context.substitutions
  regExpAllowed : kept.context.regExpAllowed = (Kind.keyword k).allowsRegExpAfter
  regExpAllowed_other : other.context.regExpAllowed = false
  afterHeadWord : kept.context.afterHeadWord = k.opensHead
  afterHeadWord_other : other.context.afterHeadWord = false

namespace WordApart

variable {k : Keyword} {kept other : Lexer}

/-- A parenthesis opens a head for the one that took the word for a keyword. -/
theorem next_of_leftParen (h : WordApart k kept other) (hhead : k.opensHead = true)
    (hparen : kept.next.1.kind = .leftParen) :
    kept.next.1.text = "(" ∧ other.next.1 = kept.next.1 ∧ HeadApart 0 kept.next.2 other.next.2 := by
  obtain ⟨gap, htakes⟩ := kept.exists_takes
  have htext := htakes.spelled "(" (by rw [hparen]; rfl)
  obtain ⟨read, substitutions, hagree⟩ := exists_agree h.offset h.rest h.substitutions fun hslash => by
    simp [Token.startsWithSlash, htext] at hslash
  have hkept := hagree.context
  have hother := hagree.context_other
  rw [hparen] at hkept hother
  refine ⟨htext, hagree.token, hagree.offset, hagree.rest, [], true, kept.context.heads, rfl, ?_, ?_⟩
  · simp [hkept, Context.afterToken, h.afterHeadWord, hhead]
  · simp [hkept, hother, Context.afterToken, h.afterHeadWord_other, h.heads]

theorem slashApart (h : WordApart k kept other) (hallowed : (Kind.keyword k).allowsRegExpAfter = true)
    (hhead : kept.next.1.kind = .leftParen → k.opensHead = false) : SlashApart kept other where
  offset := h.offset
  rest := h.rest
  regExpAllowed := by rw [h.regExpAllowed, h.regExpAllowed_other, hallowed]; rfl
  heads := h.heads
  substitutions := h.substitutions
  afterHeadWord hparen := by rw [h.afterHeadWord, h.afterHeadWord_other, hhead hparen]

theorem eq_of_not_allowed (h : WordApart k kept other) (hallowed : (Kind.keyword k).allowsRegExpAfter = false) :
    other = kept := by
  have hhead : k.opensHead = false := by
    rw [Bool.eq_false_iff]
    intro hopens
    rw [Keyword.allowsRegExpAfter_of_opensHead hopens] at hallowed
    cases hallowed
  refine Lexer.ext h.offset h.rest (Context.ext ?_ ?_ h.heads h.substitutions)
  · rw [h.regExpAllowed, h.regExpAllowed_other, hallowed]
  · rw [h.afterHeadWord, h.afterHeadWord_other, hhead]

theorem looks_eq_iff (h : WordApart k kept other) :
    other.tokens.map Token.looks = kept.tokens.map Token.looks ↔ k.misleads kept.tokens = false := by
  by_cases hparen : k.opensHead = true ∧ kept.next.1.kind = .leftParen
  · obtain ⟨htext, htoken, hapart⟩ := h.next_of_leftParen hparen.1 hparen.2
    have hkept : kept.next.1.kind ≠ .eof := by
      rw [hparen.2]
      simp
    rw [looks_iff_of_token hkept htoken, hapart.looks_eq_iff, tokens_of_ne_eof hkept, Keyword.misleads,
      Token.slashNext_cons]
    simp [Token.behindHead, hparen, Token.isUpdate, Token.startsWithSlash, htext]
  · have hhead : (k.opensHead && Token.slashNext (Token.behindHead kept.tokens)) = false := by
      obtain ⟨more, hmore⟩ := kept.exists_tokens_eq_cons
      rw [hmore, Token.behindHead]
      by_cases hopens : k.opensHead = true
      · rw [if_neg fun hk => hparen ⟨hopens, hk⟩]
        simp [Token.slashNext]
      · simp [hopens]
    rw [Keyword.misleads, hhead, Bool.or_false]
    cases hallowed : (Kind.keyword k).allowsRegExpAfter with
    | false => simp [h.eq_of_not_allowed hallowed]
    | true =>
      have hapart := h.slashApart hallowed fun hk => by simpa [hk] using hparen
      rw [hapart.looks_eq_iff, Bool.true_and]

end WordApart

end Lexer

/-! ## The whole source -/

theorem Patch.toList_render_singleton {source : String} {before cut after : List Char} {p : Patch}
    (hsource : source.toList = before ++ (cut ++ after)) (hstart : p.span.start = byteLength before)
    (hstop : p.span.stop = p.span.start + byteLength cut) :
    (render source [p]).toList = before ++ (p.text.toList ++ after) := by
  have hlength : byteLength source.toList = p.span.stop + byteLength after := by
    rw [hsource, hstop, hstart]
    simp only [byteLength_append]
    omega
  have hdrop : dropBytes p.span.stop (before ++ (cut ++ after)) = after := by
    rw [hstop, hstart, ← byteLength_append, ← List.append_assoc, dropBytes_byteLength_append]
  rw [render, String.toList_ofList, sort, List.mergeSort_singleton, renderFrom, if_neg (by omega), Nat.sub_zero,
    Nat.sub_zero, hsource, hdrop, hstart, takeBytes_byteLength_append, renderFrom, List.append_assoc]

namespace Lexer

theorem ofChars_append {front rest : List Char} (h : Gap.hashbang (front ++ rest) = front) :
    ofChars (front ++ rest) = ⟨byteLength front, rest, {}⟩ := by
  simp only [ofChars, h, List.drop_left]

theorem ofChars_word {source front a : List Char} {c c' : Char} (hc : Text.isIdentifierStart c = true)
    (hc' : Text.isIdentifierStart c' = true) (b : List Char) (hrest : (ofChars source).rest = front ++ c :: a) :
    source = Gap.hashbang source ++ (front ++ c :: a) ∧
      ofChars (Gap.hashbang source ++ (front ++ c' :: b)) = ⟨(ofChars source).offset, front ++ c' :: b, {}⟩ := by
  have hsource : source = Gap.hashbang source ++ (front ++ c :: a) := by
    rw [← hrest]
    exact (Gap.hashbang_append_drop source).symm
  have hsplit : source = (Gap.hashbang source ++ front) ++ c :: a := by rw [List.append_assoc, ← hsource]
  have hhashbang := Gap.hashbang_append_congr hc hc' (Gap.hashbang source ++ front) a b
    (by rw [← hsplit]; exact List.prefix_append _ _)
  rw [← hsplit, List.append_assoc] at hhashbang
  exact ⟨hsource, ofChars_append hhashbang⟩

theorem exists_run_renamed {source : List Char} {ts : List Token} {place : Lexer} {k : Keyword} {name : String}
    {gap behind : List Char} (hrun : Run (ofChars source) ts place) (hat : AtKeyword place k gap behind)
    (hname : IsIdentifier name) :
    ∃ before, source = before ++ (k.spelling.toList ++ behind) ∧
      byteLength before = place.offset + byteLength gap ∧
      Run (ofChars (before ++ (name.toList ++ behind))) ts
        ⟨place.offset, gap ++ (name.toList ++ behind), place.context⟩ := by
  obtain ⟨c, cs, hspelling, halpha⟩ := k.exists_alpha
  obtain ⟨c', cs', hchars, hstart, -, -⟩ := hname
  have hrest := hat.rest
  rw [hspelling, List.cons_append] at hrest ⊢
  rw [hchars, List.cons_append]
  have hless (front : List Char) :
      ProlongsLess (front ++ place.rest) (front ++ (gap ++ c' :: (cs' ++ behind))) := by
    rw [hrest, ← List.append_assoc, ← List.append_assoc]
    exact prolongsLess_of_words halpha hstart _ _ _
  obtain ⟨front, hfront, hrun'⟩ := hrun.exists_before (by rw [hrest]; simp) hless
  have hwhole : (ofChars source).rest = (front ++ gap) ++ c :: (cs ++ behind) := by
    rw [hfront, hrest, List.append_assoc]
  obtain ⟨hsource, hstarts⟩ :=
    ofChars_word (Text.isIdentifierStart_of_isAlpha halpha) hstart (cs' ++ behind) hwhole
  refine ⟨Gap.hashbang source ++ (front ++ gap), by rwa [List.append_assoc], ?_, ?_⟩
  · have hbytes := hrun.bytes_eq
    rw [hwhole, hrest] at hbytes
    simp only [byteLength_append, ofChars] at hbytes ⊢
    omega
  · rw [List.append_assoc, hstarts, List.append_assoc]
    exact hrun'

theorem next_renamed {place : Lexer} {k : Keyword} {name : String} {gap behind : List Char}
    (hat : AtKeyword place k gap behind) (hname : IsIdentifier name)
    (hlength : byteLength name.toList = place.next.1.span.length) :
    (next ⟨place.offset, gap ++ (name.toList ++ behind), place.context⟩).1 =
        { place.next.1 with kind := .identifier name, text := name } ∧
      WordApart k place.next.2 (next ⟨place.offset, gap ++ (name.toList ++ behind), place.context⟩).2 := by
  have hnext := next_of_isIdentifier ⟨place.offset, gap ++ (name.toList ++ behind), place.context⟩
    hname hat.skipped hat.stops rfl
  have hbytes : byteLength name.toList = byteLength k.spelling.toList := by
    rw [hlength, hat.next]
    simp only [tokenOf, Span.length]
    omega
  rw [hnext, hat.next]
  constructor
  · simp [tokenOf, hbytes]
  · refine ⟨?_, rfl, rfl, rfl, rfl, rfl, rfl, rfl⟩
    simp [tokenOf, hbytes]

end Lexer

namespace Token

/-- The token with a name in the place of its word. -/
def renamed (t : Token) (name : String) : Token := { t with kind := .identifier name, text := name }

/-- An identifier in the place of a keyword leaves the tokens in front of it as they are, and behind it the
source is read on by a lexer that took it for a name. -/
theorem exists_renamed {source name : String} {front after : List Token} {word : Token} {k : Keyword}
    (htokens : ofSource source = front ++ word :: after) (hword : word.kind = .keyword k)
    (hname : IsIdentifier name) (hlength : byteLength name.toList = word.span.length) :
    ∃ before behind kept other, source.toList = before ++ (k.spelling.toList ++ behind) ∧
      (Patch.render source [⟨word.span, name⟩]).toList = before ++ (name.toList ++ behind) ∧
      word.span.length = byteLength k.spelling.toList ∧ Lexer.WordApart k kept other ∧ kept.tokens = after ∧
      ofSource (Patch.render source [⟨word.span, name⟩]) = front ++ word.renamed name :: other.tokens := by
  obtain ⟨place, hrun, hplace⟩ := Lexer.exists_run_to htokens
  obtain ⟨more, hmore⟩ := place.exists_tokens_eq_cons
  obtain ⟨rfl, rfl⟩ := List.cons.inj (hmore.symm.trans hplace)
  rw [Lexer.tokens_of_ne_eof (by rw [hword]; simp)] at hmore
  obtain ⟨-, rfl⟩ := List.cons.inj hmore
  obtain ⟨gap, behind, hat⟩ := Lexer.exists_atKeyword hword
  obtain ⟨before, hsource, hbefore, hrun'⟩ := Lexer.exists_run_renamed hrun hat hname
  obtain ⟨hnext, hapart⟩ := Lexer.next_renamed hat hname hlength
  have hspan : place.next.1.span = ⟨byteLength before, byteLength before + byteLength k.spelling.toList⟩ := by
    rw [hat.next, hbefore]
    rfl
  have hrendered := Patch.toList_render_singleton (p := ⟨place.next.1.span, name⟩) hsource (by rw [hspan])
    (by rw [hspan])
  refine ⟨before, behind, _, _, hsource, hrendered, by simp [hspan, Span.length], hapart, rfl, ?_⟩
  rw [ofSource, hrendered, hrun'.tokens_eq, Lexer.tokens_of_ne_eof (by rw [hnext]; simp), hnext]
  rfl

/-- An identifier in the place of a keyword, behind a point or anywhere else, leaves the other tokens as
they are unless the keyword misleads. -/
theorem looks_renamed_iff {source name : String} {front after : List Token} {word : Token} {k : Keyword}
    (htokens : ofSource source = front ++ word :: after) (hword : word.kind = .keyword k)
    (hname : IsIdentifier name) (hlength : byteLength name.toList = word.span.length) :
    (ofSource (Patch.render source [⟨word.span, name⟩])).map looks =
        (front ++ { word with kind := .identifier name } :: after).map looks ↔
      k.misleads after = false := by
  obtain ⟨_, _, kept, other, -, -, -, hapart, rfl, hrenamed⟩ := exists_renamed htokens hword hname hlength
  rw [hrenamed, List.map_append, List.map_append, List.append_cancel_left_eq, List.map_cons, List.map_cons]
  exact (List.cons_inj_right _).trans hapart.looks_eq_iff

theorem isIdentifier_of : IsIdentifier "of" := by decide

theorem looks_renamed_if :
    (ofSource (Patch.render "a?.if(b)+/c/" [⟨⟨3, 5⟩, "of"⟩])).map looks =
      List.map looks ([⟨.identifier "a", "a", ⟨0, 1⟩, false⟩, ⟨.questionDot, "?.", ⟨1, 3⟩, false⟩] ++
        ⟨.identifier "of", "if", ⟨3, 5⟩, false⟩ :: (ofSource "a?.if(b)+/c/").drop 3) :=
  (@looks_renamed_iff "a?.if(b)+/c/" _ _ _ ⟨.keyword .«if», "if", ⟨3, 5⟩, false⟩ _ (by decide +kernel) rfl
    isIdentifier_of rfl).mpr (by decide +kernel)

/-- The slash behind the call of a method is one behind the head of a statement. -/
theorem looks_renamed_method :
    ofSource "a.if(x)/b/c" = [⟨.identifier "a", "a", ⟨0, 1⟩, false⟩, ⟨.dot, ".", ⟨1, 2⟩, false⟩] ++
        ⟨.keyword .«if», "if", ⟨2, 4⟩, false⟩ :: (ofSource "a.if(x)/b/c").drop 3 ∧
      IsIdentifier "of" ∧ byteLength "of".toList = Span.length ⟨2, 4⟩ ∧
      (ofSource (Patch.render "a.if(x)/b/c" [⟨⟨2, 4⟩, "of"⟩])).map looks ≠
        List.map looks ([⟨.identifier "a", "a", ⟨0, 1⟩, false⟩, ⟨.dot, ".", ⟨1, 2⟩, false⟩] ++
          ⟨.identifier "of", "if", ⟨2, 4⟩, false⟩ :: (ofSource "a.if(x)/b/c").drop 3) :=
  ⟨by decide +kernel, isIdentifier_of, by decide, by decide +kernel⟩

end Token

end Nodeless
