import Nodeless.Event.OfTokens
import Nodeless.Proofs.Source.Counted
import Nodeless.Proofs.Token.Defect
import Nodeless.Proofs.Token.Reach

/-!
# Where a source goes wrong

A source with an invalid token is refused, and the refusal names a position. That is where the first
construct starts that is no token, behind the tokens in front of it and the gap behind them. Only of a
block comment that never ends it is the end instead.
-/

namespace Nodeless

open Source Lexer

/-- A block comment that the text ends in. -/
def OpenComment (cs : List Char) : Prop := ∃ body, cs = '/' :: '*' :: body ∧ ¬ClosesComment body

/-- The first construct of a source that is no token. In front of it are whole tokens, the text `done`
that they reach to the end of, and blanks and whole comments. -/
structure Offence (source : List Char) (ts : List Token) (done gap construct : List Char) : Prop where
  text : source = done ++ (gap ++ construct)
  reach : byteLength done = Token.reach source ts
  whole : ∀ t ∈ ts, t.kind ≠ .invalid
  skipped : Skipped gap
  fault : ∃ place, Run (ofChars source) ts place ∧ (Faulty place.context construct ∨ OpenComment construct)

/-! ## The invalid token -/

theorem Offence.exists_of_invalid {source : String} (h : ∃ t ∈ Token.ofSource source, t.kind = .invalid) :
    ∃ ts done gap construct, Offence source.toList ts done gap construct := by
  obtain ⟨t, hfirst⟩ := Option.isSome_iff_exists.mp
    ((List.find?_isSome (p := fun t : Token => decide (t.kind = .invalid))).mpr (by simpa using h))
  obtain ⟨hinvalid, ts, back, htokens, hwhole⟩ := List.find?_eq_some_iff_append.mp hfirst
  simp only [decide_eq_true_eq, Bool.not_eq_true', decide_eq_false_iff_not] at hinvalid hwhole
  obtain ⟨place, hrun, hplace⟩ := exists_run_to htokens
  obtain ⟨done, hsource, hdone⟩ := hrun.exists_front
  obtain ⟨more, hnext⟩ := place.exists_tokens_eq_cons
  have hkind : place.next.1.kind = .invalid := by
    rw [hplace, List.cons.injEq] at hnext
    rw [← hnext.1, hinvalid]
  cases (next_invalid_iff place).mp hkind with
  | @comment gap body hgap hbody hrest =>
    exact ⟨ts, done, gap, _, by rw [hsource, hrest], hdone, hwhole, hgap, place, hrun, .inr ⟨body, rfl, hbody⟩⟩
  | @lexeme gap start hgap hfaulty hrest =>
    exact ⟨ts, done, gap, start, by rw [hsource, hrest], hdone, hwhole, hgap, place, hrun, .inl hfaulty⟩

section

variable {source : String} {ts : List Token} {done gap construct : List Char}

theorem Offence.exists_refused (h : Offence source.toList ts done gap construct) :
    ∃ place, Run (ofChars source.toList) ts place ∧ place.rest = gap ++ construct ∧
      place.offset = byteLength done ∧ (Faulty place.context construct ∨ OpenComment construct) ∧
      Event.ofSource source =
        .error (.invalidToken ((LineIndex.ofChars source.toList).position place.next.1.span.start)) := by
  obtain ⟨place, hrun, hfault⟩ := h.fault
  have hrest := hrun.rest_eq h.text h.reach
  have hoffset : place.offset = byteLength done := by rw [hrun.offset_eq_reach, h.reach]
  have hinvalid : place.next.1.kind = .invalid := by
    rw [next_invalid_iff]
    rcases hfault with hfaulty | ⟨body, hconstruct, hbody⟩
    · exact .lexeme h.skipped hfaulty hrest
    · exact .comment h.skipped hbody (by rw [hrest, hconstruct])
  obtain ⟨more, htokens⟩ := place.exists_tokens_eq_cons
  have hfind : (Token.ofSource source).find? (fun t => t.kind = .invalid) = some place.next.1 := by
    rw [Token.ofSource, hrun.tokens_eq, htokens, List.find?_append,
      List.find?_eq_none.mpr (by simpa using h.whole), List.find?_cons_of_pos (by simpa using hinvalid),
      Option.none_or]
  exact ⟨place, hrun, hrest, hoffset, hfault, by simp only [Event.ofSource, hfind]⟩

theorem Offence.refused_at_start (h : Offence source.toList ts done gap construct) (hclosed : ¬OpenComment construct) :
    Event.ofSource source = .error (.invalidToken (.behind (done ++ gap))) := by
  obtain ⟨place, -, hrest, hoffset, hfault, hrefused⟩ := h.exists_refused
  obtain ⟨c, cs, rfl, hblank, hcomment⟩ := (hfault.resolve_right hclosed).exists_lexeme
  have hstart : place.next.1.span.start = byteLength (done ++ gap) := by
    rw [next_of_ahead ⟨hrest, h.skipped, hblank, hcomment⟩, byteLength_append, ← hoffset]
    rfl
  rw [hrefused, hstart, h.text, ← List.append_assoc, LineIndex.position_of_append]

theorem Offence.refused_at_end (h : Offence source.toList ts done gap construct) (hopen : OpenComment construct) :
    Event.ofSource source = .error (.invalidToken (.behind source.toList)) := by
  obtain ⟨place, -, hrest, hoffset, -, hrefused⟩ := h.exists_refused
  obtain ⟨body, rfl, hbody⟩ := hopen
  have hstart : place.next.1.span.start = byteLength source.toList := by
    rw [next_of_openGap ⟨gap, body, hrest, h.skipped, hbody⟩, h.text, byteLength_append, ← hoffset, ← hrest]
    rfl
  have hend := LineIndex.position_of_append source.toList []
  rw [List.append_nil] at hend
  rw [hrefused, hstart, hend]

end

/-! ## The position -/

namespace Event

/-- A source with an invalid token is refused at the first character of its first offending construct,
unless that is a block comment that never ends. Then the end of the source is named. -/
theorem ofSource_names_start_iff {source : String} (h : ∃ t ∈ Token.ofSource source, t.kind = .invalid) :
    (∃ ts done gap construct, Offence source.toList ts done gap construct) ∧
      ∀ ts done gap construct, Offence source.toList ts done gap construct →
        ∃ position, ofSource source = .error (.invalidToken position) ∧
          (position = .behind (done ++ gap) ↔ ¬OpenComment construct) ∧
          (OpenComment construct → position = .behind source.toList) := by
  refine ⟨Offence.exists_of_invalid h, ?_⟩
  intro ts done gap construct hoffence
  by_cases hopen : OpenComment construct
  · refine ⟨_, hoffence.refused_at_end hopen, ?_, fun _ => rfl⟩
    have hne : construct ≠ [] := by
      obtain ⟨body, rfl, -⟩ := hopen
      exact List.cons_ne_nil _ _
    have hbefore := Position.behind_before_append (done ++ gap) hne
    rw [List.append_assoc, ← hoffence.text] at hbefore
    exact iff_of_false hbefore.ne.symm (not_not_intro hopen)
  · exact ⟨_, hoffence.refused_at_start hopen, iff_of_true rfl hopen, fun hopen' => absurd hopen' hopen⟩

/-- A string that its line cuts, behind a comment and a character of two bytes. -/
theorem ofSource_names_start_string :
    (∃ t ∈ Token.ofSource "\u00e9;\n/* b */ 'c\n;", t.kind = .invalid) ∧
      ∃ ts, Offence "\u00e9;\n/* b */ 'c\n;".toList ts "\u00e9;".toList "\n/* b */ ".toList "'c\n;".toList ∧
        ofSource "\u00e9;\n/* b */ 'c\n;" = .error (.invalidToken ⟨2, 8⟩) := by
  have hinvalid : ∃ t ∈ Token.ofSource "\u00e9;\n/* b */ 'c\n;", t.kind = .invalid := by decide +kernel
  have hbody : ¬ClosesComment (" b ".toList ++ ['*']) := by decide
  have hoffence : Offence "\u00e9;\n/* b */ 'c\n;".toList _ "\u00e9;".toList "\n/* b */ ".toList "'c\n;".toList :=
    { text := by decide
      reach := by decide +kernel
      whole := by decide +kernel
      skipped := .blank (by decide) (.block hbody (.blank (by decide) .nil))
      fault := ⟨_, .step (by decide +kernel) (.step (by decide +kernel) .done),
        .inl (.string (.inr rfl) ⟨['c'], ['\n', ';'], rfl, .plain (by decide) (by decide) (by decide) .nil,
          .inr (.inr rfl)⟩)⟩ }
  refine ⟨hinvalid, _, hoffence, ?_⟩
  obtain ⟨position, hrefused, hstart, -⟩ := (ofSource_names_start_iff hinvalid).2 _ _ _ _ hoffence
  rw [hrefused, hstart.mpr]
  · decide
  · rintro ⟨body, hbody, -⟩
    simp at hbody

/-- A block comment that never ends starts at one position, and the source is refused at another. -/
theorem ofSource_open_comment :
    ∃ ts, Offence "a /* b".toList ts "a".toList " ".toList "/* b".toList ∧
      ofSource "a /* b" = .error (.invalidToken ⟨1, 6⟩) ∧ Position.behind "a ".toList = ⟨1, 2⟩ := by
  refine ⟨_, ⟨by decide, ?_, ?_, .blank (by decide) .nil, _, .step ?_ .done, .inr ⟨" b".toList, rfl, ?_⟩⟩,
    ?_, ?_⟩
  all_goals decide +kernel

end Event

end Nodeless
