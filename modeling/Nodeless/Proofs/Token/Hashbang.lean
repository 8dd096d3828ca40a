import Mathlib.Data.List.TakeWhile
import Nodeless.Proofs.Source.Span
import Nodeless.Proofs.Token.Coverage
import Nodeless.Proofs.Token.Order

/-!
# Hashbang lines

The line of an interpreter ends where any line of a source does: at a line feed, at a carriage
return, or at both in turn. The tokens of the source lie below it. They stand where they stood when
a text is put between the line and what is below it.
-/

namespace Nodeless

open Source

/-! ## The end of the line -/

namespace Text

/-- The end of a line that a text starts with. A carriage return and a line feed are one. -/
def lineEnd : List Char → List Char
  | '\r' :: '\n' :: _ => ['\r', '\n']
  | c :: _ => if endsLine c then [c] else []
  | [] => []

end Text

namespace Gap

/-- The hashbang line that a lexer skips, with the end of the line. -/
def hashbangLine (source : List Char) : List Char :=
  hashbang source ++ Text.lineEnd (source.drop (hashbang source).length)

/-- A hashbang line that ends, cut before its end. -/
structure EndedLine (body ending : List Char) : Prop where
  mark : ['#', '!'] <+: body
  within : ∀ d ∈ body, Text.endsLine d = false
  ends : ending = ['\n'] ∨ ending = ['\r', '\n'] ∨ ending = ['\r']

variable {body ending : List Char}

theorem EndedLine.exists_cons (h : EndedLine body ending) :
    ∃ c more, ending = c :: more ∧ Text.endsLine c = true := by
  rcases h.ends with rfl | rfl | rfl <;> exact ⟨_, _, rfl, by decide⟩

theorem EndedLine.skipped (h : EndedLine body ending) : Skipped ending := by
  rcases h.ends with rfl | rfl | rfl
  · exact .blank (by decide) .nil
  · exact .blank (by decide) (.blank (by decide) .nil)
  · exact .blank (by decide) .nil

theorem EndedLine.hashbang_eq (h : EndedLine body ending) (rest : List Char) :
    hashbang (body ++ (ending ++ rest)) = body := by
  obtain ⟨c, more, rfl, hc⟩ := h.exists_cons
  have hmark : ['#', '!'].isPrefixOf (body ++ (c :: more ++ rest)) = true :=
    List.isPrefixOf_iff_prefix.mpr (h.mark.trans (List.prefix_append _ _))
  unfold hashbang
  rw [if_pos hmark, List.takeWhile_append_of_pos]
  · simp [hc]
  · intro d hd
    rw [h.within d hd, Bool.not_false]

theorem mark_of_append {front rest : List Char} {c : Char} (hc : Text.endsLine c = true)
    (h : ['#', '!'] <+: front ++ c :: rest) : ['#', '!'] <+: front := by
  rcases front with _ | ⟨a, _ | ⟨b, front⟩⟩
  · obtain ⟨rfl, -⟩ := List.cons_prefix_cons.mp h
    exact absurd hc (by decide)
  · obtain ⟨rfl, -⟩ := List.cons_prefix_cons.mp (List.cons_prefix_cons.mp h).2
    exact absurd hc (by decide)
  · simpa [List.cons_prefix_cons] using h

theorem exists_endedLine {source : List Char} (h : ['#', '!'] <+: source) :
    (∀ d ∈ source, Text.endsLine d = false) ∨
      ∃ body ending rest, source = body ++ (ending ++ rest) ∧ EndedLine body ending ∧
        hashbangLine source = body ++ ending := by
  rcases exists_endsLine source with hall | ⟨body, c, rest, rfl, hbody, hc⟩
  · exact .inl hall
  · refine .inr ?_
    have hmark := mark_of_append hc h
    have hline (ending more : List Char) (hends : ending = ['\n'] ∨ ending = ['\r', '\n'] ∨ ending = ['\r'])
        (hrest : c :: rest = ending ++ more) (hread : Text.lineEnd (c :: rest) = ending) :
        ∃ body' ending rest', body ++ c :: rest = body' ++ (ending ++ rest') ∧ EndedLine body' ending ∧
          hashbangLine (body ++ c :: rest) = body' ++ ending := by
      have hended : EndedLine body ending := ⟨hmark, hbody, hends⟩
      refine ⟨body, ending, more, by rw [hrest], hended, ?_⟩
      unfold hashbangLine
      rw [hrest, hended.hashbang_eq, List.drop_left, ← hrest, hread]
    simp only [Text.endsLine, Bool.or_eq_true, decide_eq_true_eq] at hc
    rcases hc with rfl | rfl
    · exact hline ['\n'] rest (by simp) rfl rfl
    · rcases rest with _ | ⟨d, rest⟩
      · exact hline ['\r'] [] (by simp) rfl rfl
      · by_cases hd : d = '\n'
        · subst hd
          exact hline ['\r', '\n'] rest (by simp) rfl rfl
        · exact hline ['\r'] (d :: rest) (by simp) rfl (by simp [Text.lineEnd, Text.endsLine, hd])

end Gap

/-! ## Tokens below the line -/

namespace Lexer

theorem start_next (lexer : Lexer) :
    lexer.next.1.span.start = lexer.offset + byteLength (Gap.ofChars lexer.rest).text := by
  unfold next
  split <;> rename_i heq <;> rw [heq] <;> rfl

theorem gap_le_start {lexer : Lexer} {gap rest : List Char} (hrest : lexer.rest = gap ++ rest)
    (hgap : Skipped gap) : ∀ t ∈ lexer.tokens, lexer.offset + byteLength gap ≤ t.span.start := by
  have hnext : lexer.offset + byteLength gap ≤ lexer.next.1.span.start := by
    rw [start_next, hrest, Gap.ofChars, Gap.read_skipped hgap]
    simp only [Gap.after, byteLength_append]
    omega
  obtain ⟨more, htokens⟩ := lexer.exists_tokens_eq_cons
  have hordered := lexer.pairwise_tokens
  rw [htokens] at hordered ⊢
  intro t ht
  rcases List.mem_cons.mp ht with rfl | ht
  · exact hnext
  · have hforward := lexer.reads_next.forward
    have hlater := (List.pairwise_cons.mp hordered).1 t ht
    omega

theorem line_le_start {body ending : List Char} (h : Gap.EndedLine body ending) (rest : List Char) :
    ∀ t ∈ (ofChars (body ++ (ending ++ rest))).tokens, byteLength (body ++ ending) ≤ t.span.start := by
  have hoffset : (ofChars (body ++ (ending ++ rest))).offset = byteLength body := by
    rw [ofChars, h.hashbang_eq]
  have hrest : (ofChars (body ++ (ending ++ rest))).rest = ending ++ rest := by
    rw [ofChars, h.hashbang_eq, List.drop_left]
  rw [byteLength_append, ← hoffset]
  exact gap_le_start hrest h.skipped

theorem kind_of_unended {source : List Char} (h : ['#', '!'] <+: source)
    (hline : ∀ d ∈ source, Text.endsLine d = false) : ∀ t ∈ (ofChars source).tokens, t.kind = .eof := by
  have hskipped : Gap.hashbang source = source := by
    unfold Gap.hashbang
    rw [if_pos (List.isPrefixOf_iff_prefix.mpr h), List.takeWhile_eq_self_iff]
    intro d hd
    rw [hline d hd, Bool.not_false]
  have hrest : (ofChars source).rest = [] := by
    rw [ofChars, hskipped, List.drop_length]
  have hnext : (ofChars source).next.1.kind = .eof := by
    rw [next_of_lastGap (by rw [hrest]; exact .whole .nil)]
    rfl
  rw [tokens_of_eof hnext]
  intro t ht
  rw [List.mem_singleton.mp ht, hnext]

end Lexer

/-! ## Tokens in a text that is parted -/

theorem Token.Laid.exists_placed {source : List Char} {reached : Nat} {ts : List Token}
    (h : Token.Laid source reached ts) : ∀ t ∈ ts, ∃ reached, t.Placed source reached := by
  induction ts generalizing reached with
  | nil => simp
  | cons u ts ih =>
    intro t ht
    rcases List.mem_cons.mp ht with rfl | ht
    · exact ⟨reached, h.1⟩
    · exact ih h.2 t ht

theorem Span.slice_parted (above head body tail : List Char) {s : Span} (hforward : s.Forward)
    (hstart : Boundary (above ++ body) s.start) (hstop : Boundary (above ++ body) s.stop)
    (hbelow : byteLength above ≤ s.start) :
    Span.slice ⟨byteLength head + s.start, byteLength head + s.stop⟩ (above ++ (head ++ (body ++ tail))) =
      s.slice (above ++ body) := by
  unfold Span.Forward at hforward
  obtain ⟨kept, cut, after, rfl, hkept, hcut⟩ :=
    (hstart.of_append hbelow).split (hstop.of_append (Nat.le_trans hbelow hforward))
      (Nat.sub_le_sub_right hforward _)
  have hwhole : above ++ (kept ++ cut ++ after) = above ++ kept ++ (cut ++ after) := by simp
  have hparted : above ++ (head ++ (kept ++ cut ++ after ++ tail)) =
      above ++ head ++ kept ++ (cut ++ (after ++ tail)) := by simp
  have hmoved : Span.slice ⟨byteLength head + s.start, byteLength head + s.stop⟩
      (above ++ head ++ kept ++ (cut ++ (after ++ tail))) = cut := by
    refine slice_append _ _ _ ?_ (by omega)
    simp only [byteLength_append]
    omega
  have hplace : s.slice (above ++ kept ++ (cut ++ after)) = cut := by
    refine slice_append (above ++ kept) cut after ?_ (by omega)
    rw [byteLength_append]
    omega
  rw [hwhole, hparted, hmoved, hplace]

end Nodeless
