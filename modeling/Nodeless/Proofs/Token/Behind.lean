import Mathlib.Data.List.Basic
import Nodeless.Proofs.Text.Runs
import Nodeless.Proofs.Token.Run

/-!
# The text behind a token

A token is as long as the text behind it allows. So it stays the same token before any other text
that prolongs nothing more than the old one did, and only a few characters of that text count.
-/

namespace Nodeless

/-! ## What prolongs a token -/

/-- The characters that a number goes on with, the sign of an exponent apart. -/
def Lexeme.continuesNumber (c : Char) : Bool := c.isAlphanum || c = '_' || c = '.'

def Lexeme.isSign (c : Char) : Bool := c = '+' || c = '-'

/-- The classes of characters that prolong some token in front of them, or make a comment of it. -/
def prolonging : List (Char → Bool) :=
  [Text.isIdentifierContinue, Lexeme.continuesOperator, Lexeme.continuesNumber, Lexeme.isSign, Char.isDigit,
    (· = '='), (· = '>'), (· = '?'), (· = '/'), (· = '*')]

/-- A point that makes an optional chain of a question mark in front of it. -/
def opensChain : List Char → Bool
  | '.' :: cs => !cs.head?.any Char.isDigit
  | _ => false

/-- Behind a token, `b` prolongs it only where `a` does. -/
structure ProlongsLess (a b : List Char) : Prop where
  head : ∀ p ∈ prolonging, b.head?.any p = true → a.head?.any p = true
  points : ['.', '.'] <+: b → ['.', '.'] <+: a
  chain : opensChain b = true → opensChain a = true

theorem ProlongsLess.stops {a b : List Char} (h : ProlongsLess a b) {p : Char → Bool} (hp : p ∈ prolonging)
    (ha : a.head?.any p = false) : b.head?.any p = false := by
  cases hb : b.head?.any p with
  | false => rfl
  | true =>
    rw [h.head p hp hb] at ha
    cases ha

theorem takeWhile_append_of_stops {p : Char → Bool} {rest : List Char} (h : rest.head?.any p = false)
    (cs : List Char) : (cs.takeWhile p ++ rest).takeWhile p = cs.takeWhile p :=
  takeWhile_run (List.all_eq_true.mp List.all_takeWhile) h

theorem dropWhile_append_of_stops {p : Char → Bool} {rest : List Char} (h : rest.head?.any p = false)
    (cs : List Char) : (cs.takeWhile p ++ rest).dropWhile p = rest :=
  dropWhile_run (List.all_eq_true.mp List.all_takeWhile) h

theorem stops_dropWhile (p : Char → Bool) (cs : List Char) : (cs.dropWhile p).head?.any p = false := by
  induction cs with
  | nil => rfl
  | cons c cs ih =>
    rw [List.dropWhile_cons]
    split
    · exact ih
    · simp_all

/-! ## Pieces -/

namespace Piece

/-- The piece with another text behind it. -/
def before (piece : Piece) (rest : List Char) : Piece := { piece with rest }

/-- The piece ends at a mark of its own, not where the text ends. -/
def Ended (piece : Piece) : Prop := piece.ending ≠ .cut ∨ piece.rest ≠ []

theorem not_ended_nil {text value : List Char} : ¬Ended ⟨text, value, [], .cut⟩ := by
  simp [Ended]

theorem string_before {quote : Char} {cs : List Char} (h : (string quote cs).Ended) (rest : List Char) :
    string quote ((string quote cs).text ++ rest) = (string quote cs).before rest := by
  fun_induction string quote cs with
  | case1 => exact absurd h not_ended_nil
  | case2 cs =>
    rw [List.singleton_append, string.eq_def]
    rfl
  | case3 cs hline =>
    rw [List.singleton_append, string.eq_def]
    simp [before, hline]
  | case4 => exact absurd h not_ended_nil
  | case5 d ds hline hquote ih =>
    simp only [after, List.cons_append, List.nil_append]
    rw [string.eq_def]
    simp only [if_neg hline, if_neg hquote, ↓reduceIte, ih h]
    rfl
  | case6 c cs hline hquote hslash ih =>
    simp only [after, List.cons_append, List.nil_append]
    rw [string.eq_def]
    simp only [if_neg hline, if_neg hquote, if_neg hslash, ih h]
    rfl

theorem pattern_before {inClass : Bool} {cs : List Char} (h : (pattern inClass cs).Ended) (rest : List Char) :
    pattern inClass ((pattern inClass cs).text ++ rest) = (pattern inClass cs).before rest := by
  fun_induction pattern inClass cs with
  | case1 => exact absurd h not_ended_nil
  | case2 =>
    rw [List.singleton_append, pattern.eq_def]
    rfl
  | case3 inClass c cs hline hcloses =>
    rw [List.singleton_append, pattern.eq_def]
    simp only [if_neg hline, if_pos hcloses]
    rfl
  | case4 => exact absurd h not_ended_nil
  | case5 =>
    simp only [List.cons_append, List.nil_append]
    rw [pattern.eq_def]
    rfl
  | case6 inClass d ds hd hline hcloses ih =>
    simp only [after, List.cons_append, List.nil_append]
    rw [pattern.eq_def]
    simp only [if_neg hline, if_neg hcloses, if_neg hd, ↓reduceIte, ih h]
    rfl
  | case7 inClass c cs hline hcloses hslash inside ih =>
    simp only [after, List.cons_append, List.nil_append]
    rw [pattern.eq_def]
    simp only [if_neg hline, if_neg hcloses, if_neg hslash]
    rw [show (if c = '[' then true else if c = ']' then false else inClass) = inside from rfl, ih h]
    rfl

theorem template_text_ne_nil {cs : List Char} (h : (template cs).Ended) : (template cs).text ≠ [] := by
  fun_cases template cs
  case case1 => exact absurd h not_ended_nil
  all_goals exact List.cons_ne_nil _ _

theorem template_before {cs : List Char} (h : (template cs).Ended) (rest : List Char) :
    template ((template cs).text ++ rest) = (template cs).before rest := by
  fun_induction template cs with
  | case1 => exact absurd h not_ended_nil
  | case2 => rfl
  | case3 => rfl
  | case4 => exact absurd h not_ended_nil
  | case5 d cs ih =>
    simp only [after, List.cons_append, List.nil_append]
    rw [template, ih h]
    rfl
  | case6 c cs hmark hopens hlast hescape ih =>
    have hslash : c ≠ '\\' := by
      intro hc
      cases cs with
      | nil => exact hlast hc rfl
      | cons d cs => exact hescape d cs hc rfl
    -- The character behind a dollar sign is one of the text, since the text is not empty.
    have hne := template_text_ne_nil h
    have hhead : ((template cs).text ++ rest).head? = cs.head? := by
      calc ((template cs).text ++ rest).head? = (template cs).text.head? := List.head?_append_of_ne_nil _ hne
        _ = ((template cs).text ++ (template cs).rest).head? := (List.head?_append_of_ne_nil _ hne).symm
        _ = cs.head? := by rw [template_text_append_rest]
    have hplain : ¬(c = '$' ∧ ((template cs).text ++ rest).head? = some '{') := by
      rw [hhead]
      rintro ⟨hc, hcs⟩
      obtain ⟨ds, rfl⟩ := List.head?_eq_some_iff.mp hcs
      exact hopens ds hc rfl
    simp only [after, List.cons_append, List.nil_append]
    rw [template_plain hmark hslash hplain, ih h]
    rfl

end Piece

/-! ## Lexemes -/

namespace Lexeme

/-- The lexeme with another text behind it. -/
def before (lexeme : Lexeme) (rest : List Char) : Lexeme := { lexeme with rest }

/-- The lexeme is whole, or something of the text is left behind it. -/
def Ended (lexeme : Lexeme) : Prop := lexeme.kind ≠ .invalid ∨ lexeme.rest ≠ []

/-- What is read off `cs` is read again off its own text, before any text that prolongs nothing more.
The first character of the lexeme stands in front of `cs`. -/
def Keeps (read : List Char → Lexeme) (cs : List Char) : Prop :=
  (read cs).Ended → ∀ rest, ProlongsLess (read cs).rest rest →
    read ((read cs).text.tail ++ rest) = (read cs).before rest

theorem keeps_mark (kind : Kind) (c : Char) (cs : List Char) : Keeps (fun cs => ⟨kind, [c], cs⟩) cs :=
  fun _ _ _ => rfl

theorem spanning_before {kind : List Char → Kind} {read : List Char} {p : Char → Bool} {cs rest : List Char}
    (h : rest.head?.any p = false) :
    spanning kind read p (cs.takeWhile p ++ rest) = (spanning kind read p cs).before rest := by
  simp only [spanning, takeWhile_append_of_stops h, dropWhile_append_of_stops h]
  rfl

theorem keeps_spanning {kind : List Char → Kind} {c : Char} {p : Char → Bool} (hp : p ∈ prolonging)
    (cs : List Char) : Keeps (spanning kind [c] p) cs :=
  fun _ _ h => spanning_before (h.stops hp (stops_dropWhile p cs))

theorem keeps_string (quote : Char) (cs : List Char) : Keeps (string quote) cs := by
  intro hended rest _
  have hpiece : (Piece.string quote cs).Ended := by
    simp only [Ended, string] at hended
    unfold Piece.Ended
    split at hended <;> simp_all
  simp only [string, List.tail_cons, Piece.string_before hpiece]
  rfl

theorem keeps_template {mark : Char} {cs : List Char} (h : (template mark cs).1.Ended) (rest : List Char) :
    template mark ((template mark cs).1.text.tail ++ rest) =
      ((template mark cs).1.before rest, (template mark cs).2) := by
  have hpiece : (Piece.template cs).Ended := by
    simp only [Ended, template] at h
    unfold Piece.Ended
    split at h <;> simp_all
  simp only [template, List.tail_cons, Piece.template_before hpiece]
  rfl

theorem keeps_regExp (cs : List Char) : Keeps regExp cs := by
  intro hended rest h
  by_cases hcomplete : (Piece.pattern false cs).ending = .complete
  · have hpiece : (Piece.pattern false cs).Ended := .inl (by simp [hcomplete])
    have hread : regExp cs = spanning
        (fun flags => .regExp (String.ofList (Piece.pattern false cs).value) (String.ofList flags))
        ('/' :: (Piece.pattern false cs).text) Text.isIdentifierContinue (Piece.pattern false cs).rest := by
      simp [regExp, hcomplete]
    rw [hread] at h ⊢
    have hstops := h.stops (by simp [prolonging]) (stops_dropWhile _ _)
    simp only [spanning, List.cons_append, List.tail_cons, List.append_assoc]
    simp only [regExp, Piece.pattern_before hpiece, Piece.before, hcomplete, ↓reduceIte]
    exact spanning_before hstops
  · have hread : regExp cs = ⟨.invalid, '/' :: (Piece.pattern false cs).text, (Piece.pattern false cs).rest⟩ := by
      simp [regExp, hcomplete]
    rw [hread] at hended ⊢
    have hpiece : (Piece.pattern false cs).Ended := .inr (hended.resolve_left (by simp))
    simp only [regExp, List.tail_cons, Piece.pattern_before hpiece]
    simp [Piece.before, hcomplete, before]

/-- A number goes on with the character. Only right behind the mark of an exponent is that a sign. -/
def goesOn (hexadecimal : Bool) (prev c : Char) : Bool :=
  continuesNumber c || (isSign c && ((prev = 'e' || prev = 'E') && !hexadecimal))

theorem numberTail_cons (hexadecimal : Bool) (prev c : Char) (cs : List Char) :
    numberTail hexadecimal prev (c :: cs) =
      if goesOn hexadecimal prev c then
        (c :: (numberTail hexadecimal c cs).1, (numberTail hexadecimal c cs).2)
      else ([], c :: cs) := by
  rw [numberTail]
  simp only [goesOn, continuesNumber, isSign, Bool.and_assoc]
  rfl

theorem numberTail_of_stops {hexadecimal : Bool} {prev : Char} {rest : List Char}
    (h : rest.head?.any (goesOn hexadecimal prev) = false) : numberTail hexadecimal prev rest = ([], rest) := by
  cases rest with
  | nil => rfl
  | cons c rest =>
    rw [List.head?_cons, Option.any_some] at h
    rw [numberTail_cons, h]
    rfl

theorem stops_number {a b : List Char} (h : ProlongsLess a b) {hexadecimal : Bool} {prev : Char}
    (ha : a.head?.any (goesOn hexadecimal prev) = false) : b.head?.any (goesOn hexadecimal prev) = false := by
  have hnumber := h.stops (p := continuesNumber) (by simp [prolonging])
  have hsign := h.stops (p := isSign) (by simp [prolonging])
  unfold goesOn at ha ⊢
  generalize ((prev = 'e' || prev = 'E') && !hexadecimal : Bool) = exponent at ha ⊢
  cases a <;> cases b <;> cases exponent <;> simp_all

theorem stops_numberTail (hexadecimal : Bool) (prev : Char) (cs : List Char) :
    ∃ last, (numberTail hexadecimal prev cs).2.head?.any (goesOn hexadecimal last) = false ∧
      ∀ rest : List Char, rest.head?.any (goesOn hexadecimal last) = false →
        numberTail hexadecimal prev ((numberTail hexadecimal prev cs).1 ++ rest) =
          ((numberTail hexadecimal prev cs).1, rest) := by
  induction cs generalizing prev with
  | nil => exact ⟨prev, rfl, fun rest h => numberTail_of_stops h⟩
  | cons c cs ih =>
    rw [numberTail_cons]
    by_cases hgoes : goesOn hexadecimal prev c = true
    · obtain ⟨last, hstops, hread⟩ := ih c
      rw [if_pos hgoes]
      refine ⟨last, hstops, fun rest h => ?_⟩
      rw [List.cons_append, numberTail_cons, if_pos hgoes, hread rest h]
    · rw [if_neg hgoes]
      refine ⟨prev, ?_, fun rest h => numberTail_of_stops h⟩
      simpa using hgoes

theorem head_ne_of_stops {p : Char → Bool} {rest : List Char} (h : rest.head?.any p = false) {c : Char}
    (hc : p c = true) : rest.head? ≠ some c := by
  intro hhead
  rw [hhead, Option.any_some, hc] at h
  cases h

theorem head_numberTail {hexadecimal : Bool} {prev : Char} {cs rest : List Char}
    (h : ProlongsLess (numberTail hexadecimal prev cs).2 rest) {c : Char} (hc : continuesNumber c = true) :
    ((numberTail hexadecimal prev cs).1 ++ rest).head? = some c ↔ cs.head? = some c := by
  obtain ⟨last, hstops, -⟩ := stops_numberTail hexadecimal prev cs
  have hgoes : goesOn hexadecimal last c = true := by simp [goesOn, hc]
  have happend := numberTail_append hexadecimal prev cs
  cases htail : (numberTail hexadecimal prev cs).1 with
  | nil =>
    rw [htail, List.nil_append] at happend
    rw [happend] at hstops h
    have hcs := head_ne_of_stops hstops hgoes
    have hrest := head_ne_of_stops (stops_number h hstops) hgoes
    simp [hcs, hrest]
  | cons d tail =>
    rw [htail] at happend
    rw [← happend]
    rfl

theorem keeps_number (first : Char) (cs : List Char) : Keeps (number first) cs := by
  intro _ rest h
  have hx := head_numberTail h (c := 'x') (by decide)
  have hX := head_numberTail h (c := 'X') (by decide)
  obtain ⟨last, hstops, hread⟩ :=
    stops_numberTail (first = '0' && (cs.head? = some 'x' || cs.head? = some 'X')) first cs
  simp only [number, List.tail_cons]
  simp only [hx, hX, hread rest (stops_number h hstops)]
  rfl

/-! Marks of more than one character -/

theorem dot_of_digit {c : Char} (h : c.isDigit = true) (cs : List Char) : dot (c :: cs) = number '.' (c :: cs) := by
  rw [dot.eq_def]
  split
  case h_1 heq =>
    obtain ⟨rfl, -⟩ := List.cons.inj heq
    cases h
  case h_2 heq =>
    obtain ⟨rfl, rfl⟩ := List.cons.inj heq
    rw [if_pos h]
  case h_3 heq => cases heq

theorem dot_of_stops {rest : List Char} (hdigit : rest.head?.any Char.isDigit = false)
    (hpoints : ¬['.', '.'] <+: rest) : dot rest = ⟨.dot, ['.'], rest⟩ := by
  fun_cases dot rest
  case case1 rest => exact absurd (List.prefix_append ['.', '.'] rest) hpoints
  case case2 h _ => simp_all
  case case3 => rfl
  case case4 => rfl

theorem keeps_dot (cs : List Char) : Keeps dot cs := by
  unfold Keeps
  fun_cases dot cs
  case case1 => exact fun _ _ _ => rfl
  case case2 c cs _ hdigit =>
    intro hended rest h
    have hnumber := keeps_number '.' (c :: cs) hended rest h
    -- The number starts with the digit, so it is read as one again.
    obtain ⟨more, hmore⟩ := List.head?_eq_some_iff.mp
      ((head_numberTail h (c := c) (by simp [continuesNumber, Char.isAlphanum, hdigit])).mpr rfl)
    rw [show (number '.' (c :: cs)).text.tail ++ rest = c :: more from hmore] at hnumber ⊢
    rw [dot_of_digit hdigit, hnumber]
  case case3 c cs hpoints hdigit =>
    intro _ rest h
    refine dot_of_stops (h.stops (by simp [prolonging]) (by simpa using hdigit)) fun hrest => ?_
    obtain ⟨more, hmore⟩ := h.points hrest
    obtain ⟨rfl, rfl⟩ := List.cons.inj hmore
    exact hpoints more rfl rfl
  case case4 =>
    intro _ rest h
    refine dot_of_stops (h.stops (by simp [prolonging]) rfl) fun hrest => ?_
    exact absurd (h.points hrest) (by simp)

theorem equal_of_stops {rest : List Char} (harrow : rest.head?.any (· = '>') = false)
    (hequal : rest.head?.any (· = '=') = false) : equal rest = ⟨.equal, ['='], rest⟩ := by
  fun_cases equal rest <;> simp_all

theorem equal_equal_of_stops {rest : List Char} (h : rest.head?.any (· = '=') = false) :
    equal ('=' :: rest) = ⟨.operator, ['=', '='], rest⟩ := by
  rw [equal.eq_def]
  split <;> simp_all

theorem keeps_equal (cs : List Char) : Keeps equal cs := by
  unfold Keeps
  fun_cases equal cs
  case case1 => exact fun _ _ _ => rfl
  case case2 => exact fun _ _ _ => rfl
  case case3 cs hnext =>
    intro _ rest h
    refine equal_equal_of_stops (h.stops (by simp [prolonging]) ?_)
    cases cs <;> simp_all
  case case4 harrow _ hequal =>
    intro _ rest h
    refine equal_of_stops (h.stops (by simp [prolonging]) ?_) (h.stops (by simp [prolonging]) ?_)
    · cases cs <;> simp_all
    · cases cs <;> simp_all

theorem question_of_stops {rest : List Char} (hquestion : rest.head?.any (· = '?') = false)
    (hchain : opensChain rest = false) : question rest = ⟨.question, ['?'], rest⟩ := by
  fun_cases question rest <;> simp_all [opensChain]

theorem question_question_of_stops {rest : List Char} (h : rest.head?.any (· = '=') = false) :
    question ('?' :: rest) = ⟨.operator, ['?', '?'], rest⟩ := by
  rw [question.eq_def]
  split <;> simp_all

theorem question_point_of_stops {rest : List Char} (h : rest.head?.any Char.isDigit = false) :
    question ('.' :: rest) = ⟨.questionDot, ['?', '.'], rest⟩ := by
  rw [question]
  simp [h]

theorem keeps_question (cs : List Char) : Keeps question cs := by
  unfold Keeps
  fun_cases question cs
  case case1 => exact fun _ _ _ => rfl
  case case2 cs hnext =>
    intro _ rest h
    refine question_question_of_stops (h.stops (by simp [prolonging]) ?_)
    cases cs <;> simp_all
  case case3 cs hdigit =>
    intro _ rest h
    refine question_of_stops (h.stops (by simp [prolonging]) rfl) ?_
    rw [Bool.eq_false_iff]
    intro hchain
    have := h.chain hchain
    simp [opensChain, hdigit] at this
  case case4 cs hdigit =>
    intro _ rest h
    exact question_point_of_stops (h.stops (by simp [prolonging]) (by simpa using hdigit))
  case case5 _ hquestion hpoint =>
    have hchain : opensChain cs = false := by
      rw [opensChain]
      exact hpoint
    intro _ rest h
    refine question_of_stops (h.stops (by simp [prolonging]) ?_) ?_
    · cases cs <;> simp_all
    · rw [Bool.eq_false_iff]
      intro hrest
      rw [h.chain hrest] at hchain
      cases hchain

theorem keeps_ite {p : Prop} [Decidable p] {f g : List Char → Lexeme} {cs : List Char} (hf : Keeps f cs)
    (hg : Keeps g cs) : Keeps (fun cs => if p then f cs else g cs) cs := by
  by_cases h : p
  · simpa only [if_pos h] using hf
  · simpa only [if_neg h] using hg

theorem keeps_plain (regExpAllowed : Bool) (c : Char) (cs : List Char) : Keeps (plain regExpAllowed c) cs := by
  change Keeps (fun cs => plain regExpAllowed c cs) cs
  unfold plain
  iterate 9 apply keeps_ite (keeps_mark _ c cs)
  apply keeps_ite (keeps_dot cs)
  apply keeps_ite (keeps_equal cs)
  apply keeps_ite (keeps_question cs)
  apply keeps_ite (keeps_regExp cs)
  apply keeps_ite (keeps_spanning (by simp [prolonging]) cs)
  apply keeps_ite (keeps_string c cs)
  apply keeps_ite (keeps_number c cs)
  apply keeps_ite (keeps_spanning (by simp [prolonging]) cs)
  apply keeps_ite (keeps_spanning (by simp [prolonging]) cs)
  exact keeps_mark _ c cs

end Lexeme

namespace Lexer

theorem text_append_rest_lexeme (context : Context) (c : Char) (cs : List Char) :
    (lexeme context c cs).1.text ++ (lexeme context c cs).1.rest = c :: cs := by
  obtain ⟨more, htext, hrest⟩ := reads_lexeme context c cs
  rw [htext, List.cons_append, hrest]

/-- A lexeme stays before any text that prolongs nothing more than the one it was read before. -/
theorem lexeme_before {context : Context} {c : Char} {cs rest : List Char}
    (hended : (lexeme context c cs).1.Ended) (h : ProlongsLess (lexeme context c cs).1.rest rest) :
    lexeme context c ((lexeme context c cs).1.text.tail ++ rest) =
      ((lexeme context c cs).1.before rest, (lexeme context c cs).2) := by
  have hplain := Lexeme.keeps_plain context.regExpAllowed c cs
  have htemplate := @Lexeme.keeps_template c cs
  unfold lexeme at hended h ⊢
  by_cases hopen : c = '{'
  · simp only [if_pos hopen] at hended h ⊢
    cases hsub : context.substitutions with
    | nil =>
      simp only [hsub] at hended h ⊢
      rw [hplain hended rest h]
    | cons n ns =>
      simp only [hsub] at hended h ⊢
      rw [hplain hended rest h]
  by_cases hclose : c = '}'
  · simp only [if_neg hopen, if_pos hclose] at hended h ⊢
    cases hsub : context.substitutions with
    | nil =>
      simp only [hsub] at hended h ⊢
      rw [hplain hended rest h]
    | cons n ns =>
      cases n with
      | zero =>
        simp only [hsub] at hended h ⊢
        rw [htemplate hended rest]
      | succ n =>
        simp only [hsub] at hended h ⊢
        rw [hplain hended rest h]
  by_cases hmark : c = '\x60'
  · simp only [if_neg hopen, if_neg hclose, if_pos hmark] at hended h ⊢
    rw [htemplate hended rest]
  · simp only [if_neg hopen, if_neg hclose, if_neg hmark] at hended h ⊢
    rw [hplain hended rest h]

end Lexer

/-! ## Texts that prolong nothing more -/

theorem prolongsLess_nil (a : List Char) : ProlongsLess a [] where
  head p _ h := by cases h
  points h := by simp at h
  chain h := by cases h

theorem prolongsLess_of_quiet {c : Char} (h : ∀ p ∈ prolonging, p c = false) (a cs : List Char) :
    ProlongsLess a (c :: cs) := by
  have hpoint : c ≠ '.' := by
    rintro rfl
    have := h Lexeme.continuesNumber (by simp [prolonging])
    cases this
  refine ⟨fun p hp hc => ?_, fun hpoints => ?_, fun hchain => ?_⟩
  · rw [List.head?_cons, Option.any_some, h p hp] at hc
    cases hc
  · exact absurd (List.cons_prefix_cons.mp hpoints).1.symm hpoint
  · simp [opensChain, hpoint] at hchain

theorem quiet_blank : ∀ p ∈ prolonging, p ' ' = false := by decide

theorem quiet_lineFeed : ∀ p ∈ prolonging, p '\n' = false := by decide

theorem prolongsLess_append_lineFeed (a cs : List Char) : ProlongsLess a (a ++ '\n' :: cs) := by
  rcases a with _ | ⟨c, _ | ⟨d, a⟩⟩
  · exact prolongsLess_of_quiet quiet_lineFeed [] cs
  · refine ⟨fun _ _ h => h, fun h => ?_, fun h => ?_⟩
    · simp [List.cons_prefix_cons] at h
    · by_cases hc : c = '.' <;> simp_all [opensChain]
  · refine ⟨fun _ _ h => h, fun h => ?_, fun h => ?_⟩
    · simpa [List.cons_prefix_cons] using h
    · by_cases hc : c = '.' <;> simp_all [opensChain]

/-! ## Tokens -/

theorem startsComment_cons (c : Char) (cs : List Char) :
    StartsComment (c :: cs) ↔ c = '/' ∧ (cs.head? = some '/' ∨ cs.head? = some '*') := by
  unfold StartsComment
  cases cs <;> simp [List.cons_prefix_cons, eq_comm, and_or_left]

theorem ProlongsLess.not_startsComment {a b : List Char} (h : ProlongsLess a b) {c : Char} {more : List Char}
    (hcomment : ¬StartsComment (c :: (more ++ a))) : ¬StartsComment (c :: (more ++ b)) := by
  cases more with
  | nil =>
    have hslash := h.stops (p := (· = '/')) (by simp [prolonging])
    have hstar := h.stops (p := (· = '*')) (by simp [prolonging])
    rw [List.nil_append, startsComment_cons] at hcomment ⊢
    cases a <;> cases b <;> simp_all
  | cons d more =>
    rw [List.cons_append, startsComment_cons] at hcomment ⊢
    exact hcomment

namespace Lexer

open Source

/-- The token of a lexeme that is found behind a gap, and the lexer behind it. -/
def tokenOf (lexer : Lexer) (gap : List Char) (found : Lexeme × List Nat) : Token × Lexer :=
  let start := lexer.offset + byteLength gap
  let stop := start + byteLength found.1.text
  let context := { lexer.context with substitutions := found.2 }
  (⟨found.1.kind, String.ofList found.1.text, ⟨start, stop⟩, gap.contains '\n'⟩,
    ⟨stop, found.1.rest, context.afterToken found.1.kind found.1.text⟩)

theorem next_eq_tokenOf {lexer : Lexer} {gap : List Char} {c : Char} {cs : List Char} (h : Ahead lexer.rest gap c cs) :
    lexer.next = lexer.tokenOf gap (lexeme lexer.context c cs) :=
  next_of_ahead h

/-- A lexeme is found again behind another gap and before another text, in any context that reads the
same of it. -/
theorem next_before {lexer : Lexer} (other : Lexer) {gap gap' rest : List Char} {c : Char} {cs : List Char}
    {substitutions : List Nat} (h : Ahead lexer.rest gap c cs) (hgap : Skipped gap')
    (hrest : other.rest = gap' ++ ((lexeme lexer.context c cs).1.text ++ rest))
    (hlexeme : lexeme other.context c cs = ((lexeme lexer.context c cs).1, substitutions))
    (hended : (lexeme lexer.context c cs).1.Ended) (hless : ProlongsLess (lexeme lexer.context c cs).1.rest rest) :
    other.next = other.tokenOf gap' ((lexeme lexer.context c cs).1.before rest, substitutions) := by
  obtain ⟨more, htext, hcs⟩ := reads_lexeme lexer.context c cs
  have hahead : Ahead other.rest gap' c (more ++ rest) := by
    refine ⟨by rw [hrest, htext, List.cons_append], hgap, h.blank, hless.not_startsComment ?_⟩
    rw [hcs]
    exact h.comment
  have hbefore := @lexeme_before other.context c cs rest (by rwa [hlexeme]) (by rwa [hlexeme])
  rw [hlexeme, htext, List.tail_cons] at hbefore
  rw [next_eq_tokenOf hahead, hbefore]

end Lexer

end Nodeless
