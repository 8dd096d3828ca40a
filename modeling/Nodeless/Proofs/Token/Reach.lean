import Nodeless.Proofs.Token.Coverage

/-!
# How far tokens reach

The first tokens of a source reach to the end of the last of them. What is left there is what the lexer
reads on from.
-/

namespace Nodeless

open Source

/-- How far into a source its first tokens reach: to the end of the last of them, or of the hashbang
line if there is none. -/
def Token.reach (source : List Char) (ts : List Token) : Nat :=
  (ts.getLast?.map fun t => t.span.stop).getD (byteLength (Gap.hashbang source))

namespace Lexer

theorem Run.offset_eq {lexer place : Lexer} {ts : List Token} (h : Run lexer ts place) :
    place.offset = (ts.getLast?.map fun t => t.span.stop).getD lexer.offset := by
  induction h with
  | done => rfl
  | @step lexer place ts _ _ ih =>
    obtain ⟨gap, htakes⟩ := lexer.exists_takes
    rw [ih, htakes.offset, List.getLast?_cons]
    cases ts.getLast? <;> rfl

theorem Run.exists_read {lexer place : Lexer} {ts : List Token} (h : Run lexer ts place) :
    ∃ read, lexer.rest = read ++ place.rest ∧ place.offset = lexer.offset + byteLength read := by
  induction h with
  | done => exact ⟨[], rfl, rfl⟩
  | @step lexer place ts _ _ ih =>
    obtain ⟨gap, htakes⟩ := lexer.exists_takes
    obtain ⟨read, hrest, hoffset⟩ := ih
    refine ⟨gap ++ (lexer.next.1.text.toList ++ read), by rw [htakes.rest, hrest]; simp, ?_⟩
    rw [hoffset, htakes.offset, htakes.stop, htakes.start]
    simp only [byteLength_append]
    omega

section

variable {source done rest : List Char} {ts : List Token} {place : Lexer}

theorem Run.offset_eq_reach (h : Run (ofChars source) ts place) : place.offset = Token.reach source ts :=
  h.offset_eq

theorem Run.exists_front (h : Run (ofChars source) ts place) :
    ∃ done, source = done ++ place.rest ∧ byteLength done = Token.reach source ts := by
  obtain ⟨read, hrest, hoffset⟩ := h.exists_read
  refine ⟨Gap.hashbang source ++ read, ?_, ?_⟩
  · rw [List.append_assoc, ← hrest]
    exact (Gap.hashbang_append_drop source).symm
  · rw [← h.offset_eq_reach, hoffset, byteLength_append]
    rfl

theorem Run.rest_eq (h : Run (ofChars source) ts place) (hsource : source = done ++ rest)
    (hdone : byteLength done = Token.reach source ts) : place.rest = rest := by
  obtain ⟨front, hfront, hbytes⟩ := h.exists_front
  rw [← dropBytes_byteLength_append front place.rest, ← hfront, hbytes, ← hdone, hsource,
    dropBytes_byteLength_append]

end

end Lexer

theorem Token.reach_ofSource (source : String) : reach source.toList (ofSource source) = byteLength source.toList := by
  obtain ⟨ts, place, hrun, heof⟩ := Lexer.exists_run_to_eof (.ofChars source.toList)
  obtain ⟨done, hsource, hdone⟩ := hrun.exists_front
  have hstop : place.next.1.span.stop = place.offset + byteLength place.rest := by
    rw [Lexer.next_of_lastGap (Lexer.lastGap_of_eof heof)]
    rfl
  have htokens : ofSource source = ts ++ [place.next.1] := by
    rw [ofSource, hrun.tokens_eq, Lexer.tokens_of_eof heof]
  calc reach source.toList (ofSource source) = place.next.1.span.stop := by simp [htokens, reach]
    _ = byteLength done + byteLength place.rest := by rw [hstop, hrun.offset_eq_reach, hdone]
    _ = byteLength source.toList := by rw [← byteLength_append, ← hsource]

end Nodeless
