import Nodeless.Token.Lexer

/-!
# Spelling

Some kinds of token tell the text that their tokens are read from: the kind carries that text, or
there is no other way to write it.
-/

namespace Nodeless

/-- The one text that a token of the kind is read from, where the kind tells it. -/
def Kind.spelling? : Kind → Option String
  | number text => some text
  | regExp pattern flags => some ("/" ++ pattern ++ "/" ++ flags)
  | identifier name => some name
  | privateIdentifier name => some ("#" ++ name)
  | boolean true => some "true"
  | boolean false => some "false"
  | null => some "null"
  | keyword word => some word.spelling
  | leftBrace => some "\x7b"
  | rightBrace => some "\x7d"
  | leftParen => some "("
  | rightParen => some ")"
  | leftBracket => some "["
  | rightBracket => some "]"
  | dot => some "."
  | ellipsis => some "..."
  | semicolon => some ";"
  | comma => some ","
  | colon => some ":"
  | question => some "?"
  | questionDot => some "?."
  | equal => some "="
  | arrow => some "=>"
  | eof => some ""
  | string _ | template _ | operator | invalid => none

theorem Keyword.spelling_of_ofSpelling? {word : String} {k : Keyword} (h : ofSpelling? word = some k) :
    k.spelling = word := by
  have := List.find?_some h
  simpa using this

theorem Kind.spelling?_of_reserved? {word : String} {kind : Kind} (h : reserved? word = some kind) :
    kind.spelling? = some word := by
  unfold reserved? at h
  split at h
  · cases h
    simp_all [spelling?]
  split at h
  · cases h
    simp_all [spelling?]
  split at h
  · cases h
    simp_all [spelling?]
  · obtain ⟨k, hk, rfl⟩ := Option.map_eq_some_iff.mp h
    rw [spelling?, Keyword.spelling_of_ofSpelling? hk]

theorem Piece.pattern_text_of_complete {inClass : Bool} {cs : List Char}
    (h : (pattern inClass cs).ending = .complete) :
    (pattern inClass cs).text = (pattern inClass cs).value ++ ['/'] := by
  fun_induction pattern inClass cs with
  | case1 => cases h
  | case2 => cases h
  | case3 => simp_all
  | case4 => cases h
  | case5 => cases h
  | case6 inClass d ds _ _ _ ih => simp [after, ih h]
  | case7 inClass c cs _ _ _ _ ih => simp [after, ih h]

namespace Lexeme

/-- The text is the one that the kind tells, if it tells one. -/
def Spelled (lexeme : Lexeme) : Prop := ∀ s, lexeme.kind.spelling? = some s → lexeme.text = s.toList

theorem spelled_of_spelling? {lexeme : Lexeme} {s : String} (h : lexeme.kind.spelling? = some s)
    (htext : lexeme.text = s.toList) : lexeme.Spelled := by
  intro s' h'
  rw [h] at h'
  cases h'
  exact htext

theorem spelled_of_none {lexeme : Lexeme} (h : lexeme.kind.spelling? = none) : lexeme.Spelled := by
  intro s h'
  rw [h] at h'
  cases h'

theorem spelled_word (c : Char) (cs : List Char) : (word c cs).Spelled := by
  apply spelled_of_spelling? (s := String.ofList (c :: cs.takeWhile Text.isIdentifierContinue))
  · simp only [word, spanning]
    cases h : Kind.reserved? (String.ofList (c :: cs.takeWhile Text.isIdentifierContinue)) with
    | none => rfl
    | some kind => exact Kind.spelling?_of_reserved? h
  · simp [word, spanning]

theorem spelled_number (c : Char) (cs : List Char) : (number c cs).Spelled :=
  spelled_of_spelling? rfl String.toList_ofList.symm

theorem spelled_privateName (cs : List Char) : (privateName cs).Spelled := by
  simp only [privateName, spanning]
  split
  · exact spelled_of_none rfl
  · exact spelled_of_spelling? rfl (by simp)

theorem spelled_regExp (cs : List Char) : (regExp cs).Spelled := by
  simp only [regExp]
  split
  · rename_i h
    refine spelled_of_spelling? rfl ?_
    simp [spanning, Piece.pattern_text_of_complete h]
  · exact spelled_of_none rfl

theorem spelled_dot (cs : List Char) : (dot cs).Spelled := by
  fun_cases dot cs
  case case2 => exact spelled_number _ _
  all_goals exact spelled_of_spelling? rfl rfl

theorem spelled_equal (cs : List Char) : (equal cs).Spelled := by
  fun_cases equal cs
  case case2 | case3 => exact spelled_of_none rfl
  all_goals exact spelled_of_spelling? rfl rfl

theorem spelled_question (cs : List Char) : (question cs).Spelled := by
  fun_cases question cs
  case case1 | case2 => exact spelled_of_none rfl
  all_goals exact spelled_of_spelling? rfl rfl

theorem spelled_string (quote : Char) (cs : List Char) : (string quote cs).Spelled := by
  simp only [string]
  split <;> exact spelled_of_none rfl

theorem spelled_template (mark : Char) (cs : List Char) : (template mark cs).1.Spelled := by
  simp only [template]
  split <;> exact spelled_of_none rfl

theorem spelled_plain (regExpAllowed : Bool) (c : Char) (cs : List Char) :
    (plain regExpAllowed c cs).Spelled := by
  fun_cases plain regExpAllowed c cs
  case case10 => exact spelled_dot cs
  case case11 => exact spelled_equal cs
  case case12 => exact spelled_question cs
  case case13 => exact spelled_regExp cs
  case case15 => exact spelled_string c cs
  case case16 => exact spelled_number c cs
  case case17 => exact spelled_word c cs
  case case18 => exact spelled_privateName cs
  case case14 | case19 => exact spelled_of_none rfl
  all_goals
    subst c
    exact spelled_of_spelling? rfl rfl

end Lexeme

namespace Lexer

theorem spelled_lexeme (context : Context) (c : Char) (cs : List Char) : (lexeme context c cs).1.Spelled := by
  unfold lexeme
  repeat' split
  all_goals first
    | exact Lexeme.spelled_plain _ _ _
    | exact Lexeme.spelled_template _ _

theorem kind_lexeme_ne_eof (context : Context) (c : Char) (cs : List Char) :
    (lexeme context c cs).1.kind ≠ .eof := by
  intro heof
  obtain ⟨more, htext, -⟩ := reads_lexeme context c cs
  have hempty := spelled_lexeme context c cs "" (by rw [heof]; rfl)
  rw [htext] at hempty
  cases hempty

end Lexer

end Nodeless
