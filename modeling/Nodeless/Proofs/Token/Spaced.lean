import Nodeless.Proofs.Token.Behind
import Nodeless.Proofs.Token.Coverage

/-!
# Gaps carry no meaning

The texts of the tokens of a source, joined with single blanks, are read as the same tokens again.
What stood between them before, blanks or comments, makes no difference.
-/

namespace Nodeless

open Source

/-! ## Hashbang lines -/

theorem Gap.hashbang_eq_nil {source : List Char} (h : ¬['#', '!'] <+: source) : hashbang source = [] := by
  unfold hashbang
  rw [if_neg fun hfront => h (List.isPrefixOf_iff_prefix.mp hfront)]

theorem Lexer.ofChars_of_not_hashbang {source : List Char} (h : ¬['#', '!'] <+: source) :
    ofChars source = ⟨0, source, {}⟩ := by
  simp only [ofChars, Gap.hashbang_eq_nil h]
  rfl

namespace Lexer

theorem lexeme_numberSign (context : Context) (cs : List Char) :
    lexeme context '#' cs = (Lexeme.privateName cs, context.substitutions) := by
  have hstart : Text.isIdentifierStart '#' = false := by decide
  have hoperator : Lexeme.startsOperator '#' = false := by decide
  simp [lexeme, Lexeme.plain, hstart, hoperator]

theorem not_hashbang_lexeme {context : Context} {c : Char} {cs : List Char}
    (h : (lexeme context c cs).1.kind ≠ .invalid) (rest : List Char) :
    ¬['#', '!'] <+: (lexeme context c cs).1.text ++ rest := by
  obtain ⟨more, htext, -⟩ := reads_lexeme context c cs
  intro hfront
  have hfirst := hfront
  rw [htext, List.cons_append] at hfirst
  obtain ⟨rfl, -⟩ := List.cons_prefix_cons.mp hfirst
  rw [lexeme_numberSign] at h hfront
  simp only [Lexeme.privateName, Lexeme.spanning] at h hfront
  cases hrun : cs.takeWhile Text.isIdentifierContinue with
  | nil => simp [hrun] at h
  | cons d run =>
    rw [hrun] at hfront
    obtain ⟨-, hfront⟩ := List.cons_prefix_cons.mp hfront
    obtain ⟨rfl, -⟩ := List.cons_prefix_cons.mp hfront
    have hcontinues := List.all_eq_true.mp
      (List.all_takeWhile (p := Text.isIdentifierContinue) (l := cs)) '!' (by simp [hrun])
    revert hcontinues
    decide

end Lexer

/-! ## Joined tokens -/

namespace Lexer

/-- The texts of the tokens, with single blanks between them. -/
def joined (ts : List Token) : List Char := [' '].intercalate (ts.map fun t => t.text.toList)

theorem exists_joined_cons (t : Token) (ts : List Token) : ∃ gap, Skipped gap ∧
    joined (t :: ts) = t.text.toList ++ (gap ++ joined ts) ∧ ∀ a, ProlongsLess a (gap ++ joined ts) := by
  cases ts with
  | nil => exact ⟨[], .nil, by simp [joined], prolongsLess_nil⟩
  | cons u us =>
    refine ⟨[' '], .blank (by decide) .nil, ?_, fun a => prolongsLess_of_quiet quiet_blank a _⟩
    simp [joined, List.intercalate_cons_cons]

theorem kinds_of_joined {lexer other : Lexer} {gap : List Char} (hvalid : ∀ t ∈ lexer.tokens, t.kind ≠ .invalid)
    (hcontext : other.context = lexer.context) (hgap : Skipped gap)
    (hrest : other.rest = gap ++ joined (lexer.tokens.filter fun t => t.kind ≠ .eof)) :
    other.tokens.map (·.kind) = lexer.tokens.map (·.kind) := by
  induction lexer using reading_induction generalizing other gap with
  | eof lexer heof =>
    have hlast : LastGap other.rest := by
      rw [hrest, tokens_of_eof heof]
      simpa [heof, joined] using .whole hgap
    have hother : other.next.1.kind = .eof := by
      rw [next_of_lastGap hlast]
      rfl
    rw [tokens_of_eof heof, tokens_of_eof hother]
    simp [heof, hother]
  | next lexer hkind ih =>
    rw [tokens_of_ne_eof hkind] at hvalid hrest
    obtain ⟨hvalid, hlater⟩ := List.forall_mem_cons.mp hvalid
    rcases exists_ahead_or lexer.rest with ⟨gap', c, cs, hahead⟩ | hlast | hopen
    · have hnext := next_eq_tokenOf hahead
      rw [List.filter_cons_of_pos (by simpa using hkind)] at hrest
      obtain ⟨between, hbetween, hjoined, hless⟩ :=
        exists_joined_cons lexer.next.1 (lexer.next.2.tokens.filter fun t => t.kind ≠ .eof)
      rw [hjoined] at hrest
      have hother : other.next = _ := next_before other hahead hgap
        (by rw [hrest, hnext]; simp [tokenOf]) (by rw [hcontext])
        (.inl (by rw [hnext] at hvalid; exact hvalid)) (hless _)
      have hkinds : other.next.1.kind = lexer.next.1.kind := by
        rw [hother, hnext]
        rfl
      rw [tokens_of_ne_eof hkind, tokens_of_ne_eof (by rwa [hkinds]), List.map_cons, List.map_cons, hkinds]
      refine congrArg (_ :: ·) (ih hlater ?_ hbetween ?_)
      · rw [hother, hnext]
        simp only [tokenOf, hcontext]
        rfl
      · rw [hother]
        rfl
    · rw [next_of_lastGap hlast] at hkind
      exact absurd rfl hkind
    · exact absurd (kind_of_openGap hopen) hvalid

theorem not_hashbang_joined {lexer : Lexer} (hvalid : ∀ t ∈ lexer.tokens, t.kind ≠ .invalid) :
    ¬['#', '!'] <+: joined (lexer.tokens.filter fun t => t.kind ≠ .eof) := by
  by_cases heof : lexer.next.1.kind = .eof
  · rw [tokens_of_eof heof]
    simp [heof, joined]
  rw [tokens_of_ne_eof heof] at hvalid ⊢
  replace hvalid := hvalid _ List.mem_cons_self
  rw [List.filter_cons_of_pos (by simpa using heof)]
  obtain ⟨between, -, hjoined, -⟩ :=
    exists_joined_cons lexer.next.1 (lexer.next.2.tokens.filter fun t => t.kind ≠ .eof)
  rw [hjoined]
  rcases exists_ahead_or lexer.rest with ⟨gap, c, cs, hahead⟩ | hlast | hopen
  · have hnext := next_eq_tokenOf hahead
    rw [hnext] at hvalid ⊢
    simpa [tokenOf] using not_hashbang_lexeme hvalid _
  · exact absurd (congrArg (·.1.kind) (next_of_lastGap hlast)) heof
  · exact absurd (kind_of_openGap hopen) hvalid

end Lexer

/-! ## Sources -/

namespace Token

theorem Laid.slice_eq {source : List Char} {reached : Nat} {ts : List Token} (h : Laid source reached ts) :
    ∀ t ∈ ts, t.span.slice source = t.text.toList := by
  induction ts generalizing reached with
  | nil => simp
  | cons t ts ih => exact List.forall_mem_cons.mpr ⟨h.1.text, ih h.2⟩

/-- The pieces of the source that its tokens cover, with single blanks between them. -/
def spaced (source : String) : String :=
  " ".intercalate (((ofSource source).filter fun t => t.kind ≠ .eof).map fun t =>
    String.ofList (t.span.slice source.toList))

theorem spaced_eq (source : String) :
    (spaced source).toList = Lexer.joined ((ofSource source).filter fun t => t.kind ≠ .eof) := by
  have hlaid := Lexer.laid_ofChars source.toList
  rw [spaced, String.toList_intercalate, List.map_map, Lexer.joined]
  congr 1
  refine List.map_congr_left fun t ht => ?_
  rw [Function.comp_apply, String.toList_ofList]
  exact hlaid.slice_eq t (List.mem_of_mem_filter ht)

/-- A source without invalid tokens has the kinds of its tokens, and what they carry, from the tokens
alone. -/
theorem kinds_spaced {source : String} (h : ∀ t ∈ ofSource source, t.kind ≠ .invalid) :
    (ofSource (spaced source)).map (·.kind) = (ofSource source).map (·.kind) := by
  have hspaced := Lexer.not_hashbang_joined h
  rw [ofSource, spaced_eq, ofSource, Lexer.ofChars_of_not_hashbang hspaced]
  exact Lexer.kinds_of_joined h rfl .nil rfl

theorem kinds_spaced_comments :
    (∀ t ∈ ofSource "#!node\na/*b*/++ /c\t.5//d", t.kind ≠ .invalid) ∧
      (ofSource (spaced "#!node\na/*b*/++ /c\t.5//d")).map (·.kind) =
        (ofSource "#!node\na/*b*/++ /c\t.5//d").map (·.kind) :=
  have hvalid : ∀ t ∈ ofSource "#!node\na/*b*/++ /c\t.5//d", t.kind ≠ .invalid := by decide +kernel
  ⟨hvalid, kinds_spaced hvalid⟩

end Token

end Nodeless
