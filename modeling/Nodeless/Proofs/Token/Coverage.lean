import Mathlib.Data.List.Basic
import Mathlib.Logic.Function.Iterate
import Nodeless.Proofs.Source.Boundary
import Nodeless.Proofs.Token.Run

/-!
# Tokens cover their source

Behind the hashbang line a source is gaps and tokens in turn. A gap is blanks and comments, and a
token is the text of its span. Reading comes to the end after at most one token for each character,
and stays there.
-/

namespace Nodeless

open Source

namespace Lexer

/-! ## One token -/

/-- What a lexer takes off its text for a token: a gap, and then the text of the token. Only where
the text ends is there a token without text. -/
structure Takes (lexer : Lexer) (gap : List Char) (t : Token) (after : Lexer) : Prop where
  rest : lexer.rest = gap ++ (t.text.toList ++ after.rest)
  start : t.span.start = lexer.offset + byteLength gap
  stop : t.span.stop = t.span.start + byteLength t.text.toList
  offset : after.offset = t.span.stop
  spelled : ∀ s, t.kind.spelling? = some s → t.text = s
  shape : Skipped gap ∧ t.text.toList ≠ [] ∨
    t.text.toList = [] ∧ after.rest = [] ∧ (t.kind = .eof ∧ LastGap gap ∨ t.kind = .invalid ∧ OpenGap gap)

theorem takes_tokenAt {lexer : Lexer} {gap : List Char} {c : Char} {cs : List Char}
    (h : Ahead lexer.rest gap c cs) : lexer.Takes gap (lexer.tokenAt gap c cs).1 (lexer.tokenAt gap c cs).2 := by
  obtain ⟨more, htext, hrest⟩ := reads_lexeme lexer.context c cs
  refine ⟨?_, rfl, ?_, rfl, ?_, .inl ⟨h.skipped, ?_⟩⟩
  · simp [tokenAt, h.text, htext, hrest]
  · simp [tokenAt]
  · intro s hs
    simp only [tokenAt] at hs ⊢
    rw [spelled_lexeme lexer.context c cs s hs, String.ofList_toList]
  · simp [tokenAt, htext]

theorem takes_emptyToken {lexer : Lexer} {kind : Kind}
    (h : kind = .eof ∧ LastGap lexer.rest ∨ kind = .invalid ∧ OpenGap lexer.rest) :
    lexer.Takes lexer.rest (lexer.emptyToken lexer.rest kind).1 (lexer.emptyToken lexer.rest kind).2 := by
  refine ⟨by simp [emptyToken], rfl, ?_, rfl, ?_, .inr ⟨rfl, rfl, h⟩⟩
  · simp [emptyToken, byteLength]
  · intro s hs
    rcases h with ⟨rfl, -⟩ | ⟨rfl, -⟩
    · cases hs
      rfl
    · cases hs

theorem exists_takes (lexer : Lexer) : ∃ gap, lexer.Takes gap lexer.next.1 lexer.next.2 := by
  rcases exists_ahead_or lexer.rest with ⟨gap, c, cs, hahead⟩ | hlast | hopen
  · rw [next_of_ahead hahead]
    exact ⟨gap, takes_tokenAt hahead⟩
  · rw [next_of_lastGap hlast]
    exact ⟨_, takes_emptyToken (.inl ⟨rfl, hlast⟩)⟩
  · rw [next_of_openGap hopen]
    exact ⟨_, takes_emptyToken (.inr ⟨rfl, hopen⟩)⟩

theorem Takes.forward {lexer after : Lexer} {gap : List Char} {t : Token} (h : lexer.Takes gap t after) :
    t.span.start ≤ t.span.stop := by
  rw [h.stop]
  omega

end Lexer

/-! ## Tokens in a source -/

/-- The token stands in the source, with nothing but a gap between it and the place `reached`. -/
structure Token.Placed (source : List Char) (reached : Nat) (t : Token) : Prop where
  start : Boundary source t.span.start
  stop : Boundary source t.span.stop
  behind : reached ≤ t.span.start
  forward : t.span.start ≤ t.span.stop
  /-- Only the end of the source cuts a comment. -/
  gap : Skipped (Span.slice ⟨reached, t.span.start⟩ source) ∨
    t.span.start = byteLength source ∧
      (LastGap (Span.slice ⟨reached, t.span.start⟩ source) ∨
        OpenGap (Span.slice ⟨reached, t.span.start⟩ source))
  /-- The two tokens without text: the end, and a block comment that never ends. -/
  empty : t.span.start = t.span.stop → t.span = ⟨byteLength source, byteLength source⟩ ∧
    (t.kind = .eof ∨ t.kind = .invalid ∧ OpenGap (Span.slice ⟨reached, t.span.start⟩ source))
  text : t.span.slice source = t.text.toList
  spelled : ∀ s, t.kind.spelling? = some s → t.text = s

/-- The tokens stand in the source one behind the other, the first behind the place `reached`. -/
def Token.Laid (source : List Char) : Nat → List Token → Prop
  | _, [] => True
  | reached, t :: ts => t.Placed source reached ∧ Laid source t.span.stop ts

namespace Lexer

theorem Takes.placed {lexer after : Lexer} {gap : List Char} {t : Token} (h : lexer.Takes gap t after)
    {source done : List Char} (hsource : source = done ++ lexer.rest) (hdone : byteLength done = lexer.offset) :
    t.Placed source lexer.offset := by
  have hlength : byteLength source = byteLength done + byteLength gap + byteLength t.text.toList +
      byteLength after.rest := by
    rw [hsource, h.rest]
    simp only [byteLength_append]
    omega
  have hgap : Span.slice ⟨lexer.offset, t.span.start⟩ source = gap := by
    rw [hsource, h.rest]
    exact Span.slice_append _ _ _ hdone.symm h.start
  have hstop := h.stop
  have hstart := h.start
  refine ⟨?_, ?_, by omega, h.forward, ?_, ?_, ?_, h.spelled⟩
  · refine ⟨done ++ gap, t.text.toList ++ after.rest, by rw [hsource, h.rest, List.append_assoc], ?_⟩
    rw [byteLength_append]
    omega
  · refine ⟨done ++ gap ++ t.text.toList, after.rest, by rw [hsource, h.rest]; simp, ?_⟩
    simp only [byteLength_append]
    omega
  · rw [hgap]
    rcases h.shape with ⟨hskipped, -⟩ | ⟨htext, hrest, ⟨-, hlast⟩ | ⟨-, hopen⟩⟩
    · exact .inl hskipped
    · rw [htext, hrest] at hlength
      simp only [byteLength] at hlength
      exact .inr ⟨by omega, .inl hlast⟩
    · rw [htext, hrest] at hlength
      simp only [byteLength] at hlength
      exact .inr ⟨by omega, .inr hopen⟩
  · intro hempty
    rw [hgap]
    have htext : t.text.toList = [] := (byteLength_eq_zero _).mp (by omega)
    rcases h.shape with ⟨-, hne⟩ | ⟨-, hrest, hkind⟩
    · exact absurd htext hne
    · rw [htext, hrest] at hlength
      simp only [byteLength] at hlength
      refine ⟨?_, hkind.imp And.left id⟩
      rw [show t.span = ⟨t.span.start, t.span.stop⟩ from rfl, Span.mk.injEq]
      omega
  · rw [hsource, h.rest, ← List.append_assoc]
    refine Span.slice_append (done ++ gap) _ _ ?_ hstop
    rw [byteLength_append, hdone, hstart]

theorem laid_tokens (lexer : Lexer) {source done : List Char} (hsource : source = done ++ lexer.rest)
    (hdone : byteLength done = lexer.offset) : Token.Laid source lexer.offset lexer.tokens := by
  induction lexer using reading_induction generalizing done with
  | eof lexer heof =>
    obtain ⟨gap, htakes⟩ := lexer.exists_takes
    rw [tokens_of_eof heof]
    exact ⟨htakes.placed hsource hdone, trivial⟩
  | next lexer hkind ih =>
    obtain ⟨gap, htakes⟩ := lexer.exists_takes
    rw [tokens_of_ne_eof hkind]
    refine ⟨htakes.placed hsource hdone, ?_⟩
    rw [← htakes.offset]
    refine @ih (done ++ gap ++ lexer.next.1.text.toList) ?_ ?_
    · rw [hsource, htakes.rest]
      simp only [List.append_assoc]
    · simp only [byteLength_append, hdone, htakes.offset, htakes.stop, htakes.start]

theorem Run.bytes_eq {lexer place : Lexer} {ts : List Token} (h : Run lexer ts place) :
    place.offset + byteLength place.rest = lexer.offset + byteLength lexer.rest := by
  induction h with
  | done => rfl
  | @step lexer place _ _ _ ih =>
    obtain ⟨gap, htakes⟩ := lexer.exists_takes
    rw [ih, htakes.offset, htakes.stop, htakes.start, htakes.rest]
    simp only [byteLength_append]
    omega

/-! ## Call after call -/

/-- What the lexer gives when it is asked for the next token once more after `n` times. -/
def call (lexer : Lexer) (n : Nat) : Token := ((fun place : Lexer => place.next.2)^[n] lexer).next.1

theorem call_succ (lexer : Lexer) (n : Nat) : lexer.call (n + 1) = lexer.next.2.call n := by
  unfold call
  rw [Function.iterate_succ_apply]

theorem Run.call_add {lexer place : Lexer} {ts : List Token} (h : Run lexer ts place) (n : Nat) :
    lexer.call (ts.length + n) = place.call n := by
  induction h with
  | done => rw [List.length_nil, Nat.zero_add]
  | step _ _ ih => rw [List.length_cons, Nat.add_right_comm, call_succ, ih]

theorem Run.map_call {lexer place : Lexer} {ts : List Token} (h : Run lexer ts place) :
    (List.range ts.length).map lexer.call = ts := by
  induction h with
  | done => rfl
  | step _ _ ih =>
    rw [List.length_cons, List.range_succ_eq_map, List.map_cons, List.map_map]
    exact congrArg (_ :: ·) ((List.map_congr_left fun n _ => call_succ _ n).trans ih)

theorem call_of_rest_nil {lexer : Lexer} (h : lexer.rest = []) (n : Nat) :
    (lexer.call n).kind = .eof ∧ (lexer.call n).span = ⟨lexer.offset, lexer.offset⟩ := by
  have hnext : lexer.next = lexer.emptyToken [] .eof := by
    have := @next_of_lastGap lexer (h ▸ .whole .nil)
    rwa [h] at this
  induction n generalizing lexer with
  | zero =>
    unfold call
    rw [Function.iterate_zero_apply, hnext]
    exact ⟨rfl, rfl⟩
  | succ n ih =>
    rw [call_succ]
    rw [hnext]
    exact @ih (lexer.emptyToken [] .eof).2 rfl (next_of_lastGap (.whole .nil))

theorem call_of_eof {lexer : Lexer} (h : lexer.next.1.kind = .eof) (n : Nat) :
    (lexer.call n).kind = .eof ∧
      (lexer.call n).span = ⟨lexer.offset + byteLength lexer.rest, lexer.offset + byteLength lexer.rest⟩ := by
  have hnext := next_of_lastGap (lastGap_of_eof h)
  cases n with
  | zero =>
    unfold call
    rw [Function.iterate_zero_apply, hnext]
    exact ⟨rfl, rfl⟩
  | succ n =>
    rw [call_succ, hnext]
    exact call_of_rest_nil rfl n

end Lexer

/-! ## The whole source -/

theorem Gap.hashbang_append_drop (source : List Char) :
    hashbang source ++ source.drop (hashbang source).length = source := by
  rw [← List.prefix_iff_eq_append]
  unfold hashbang
  split
  · exact List.takeWhile_prefix _
  · exact List.nil_prefix

theorem Lexer.laid_ofChars (source : List Char) :
    Token.Laid source (byteLength (Gap.hashbang source)) (ofChars source).tokens :=
  laid_tokens (ofChars source) (Gap.hashbang_append_drop source).symm rfl

/-- Reading a source comes to its end after at most one token for each character and stays there, and
the tokens cover what stands behind the hashbang line. -/
theorem Lexer.calls_cover (source : String) :
    ∃ n ≤ source.toList.length,
      (∀ k < n, ((ofChars source.toList).call k).kind ≠ .eof) ∧
      (∀ k ≥ n, ((ofChars source.toList).call k).kind = .eof ∧
        ((ofChars source.toList).call k).span = ⟨byteLength source.toList, byteLength source.toList⟩) ∧
      (List.range (n + 1)).map (ofChars source.toList).call = Token.ofSource source ∧
      Token.Laid source.toList (byteLength (Gap.hashbang source.toList)) (Token.ofSource source) := by
  have hsource := Gap.hashbang_append_drop source.toList
  obtain ⟨ts, place, hrun, heof⟩ := exists_run_to_eof (ofChars source.toList)
  have hcall := hrun.map_call
  refine ⟨ts.length, ?_, ?_, ?_, ?_, ?_⟩
  · have hle := hrun.length_le
    have hrest : (ofChars source.toList).rest.length ≤ source.toList.length := by
      rw [ofChars, List.length_drop]
      omega
    omega
  · intro k hk
    apply hrun.kind_ne_eof
    rw [← hcall]
    exact List.mem_map_of_mem (List.mem_range.mpr hk)
  · intro k hk
    obtain ⟨d, rfl⟩ := Nat.exists_eq_add_of_le hk
    rw [hrun.call_add]
    have hbytes : byteLength source.toList = place.offset + byteLength place.rest := by
      rw [hrun.bytes_eq, ofChars, ← byteLength_append, hsource]
    rw [hbytes]
    exact call_of_eof heof d
  · rw [List.range_succ, List.map_append, hcall, Token.ofSource, hrun.tokens_eq, tokens_of_eof heof]
    have := hrun.call_add 0
    rw [Nat.add_zero] at this
    rw [List.map_singleton, this]
    rfl
  · exact laid_tokens (ofChars source.toList) hsource.symm rfl

end Nodeless
