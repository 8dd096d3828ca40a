import Nodeless.Token.Basic
import Nodeless.Token.Piece

/-!
# Lexemes

The longest token at the start of a text that no gap stands in front of. What a slash and a closing
brace mean depends on the tokens before them, so the context of those two is an argument.
-/

namespace Nodeless

structure Lexeme where
  kind : Kind
  text : List Char
  rest : List Char
  deriving DecidableEq, Repr

namespace Lexeme

/-- The lexeme of `kind` made of `read` and the characters of `cs` that pass `p`. -/
def spanning (kind : List Char → Kind) (read : List Char) (p : Char → Bool) (cs : List Char) :
    Lexeme :=
  let run := cs.takeWhile p
  ⟨kind run, read ++ run, cs.dropWhile p⟩

def word (first : Char) (cs : List Char) : Lexeme :=
  spanning
    (fun run =>
      let name := String.ofList (first :: run)
      (Kind.reserved? name).getD (.identifier name))
    [first] Text.isIdentifierContinue cs

def privateName (cs : List Char) : Lexeme :=
  spanning
    (fun run => if run.isEmpty then .invalid else .privateIdentifier (String.ofList run))
    ['#'] Text.isIdentifierContinue cs

/-- The rest of a number after `prev`: digits of any base, separators, suffixes, and a sign right
after the mark of an exponent. A hexadecimal number has no exponent. -/
def numberTail (hexadecimal : Bool) (prev : Char) : List Char → List Char × List Char
  | [] => ([], [])
  | c :: cs =>
    let signsExponent := (c = '+' || c = '-') && (prev = 'e' || prev = 'E') && !hexadecimal
    if c.isAlphanum || c = '_' || c = '.' || signsExponent then
      let tail := numberTail hexadecimal c cs
      (c :: tail.1, tail.2)
    else ([], c :: cs)

def number (first : Char) (cs : List Char) : Lexeme :=
  let hexadecimal := first = '0' && (cs.head? = some 'x' || cs.head? = some 'X')
  let tail := numberTail hexadecimal first cs
  let text := first :: tail.1
  ⟨.number (String.ofList text), text, tail.2⟩

def dot : List Char → Lexeme
  | '.' :: '.' :: cs => ⟨.ellipsis, ['.', '.', '.'], cs⟩
  | c :: cs => if c.isDigit then number '.' (c :: cs) else ⟨.dot, ['.'], c :: cs⟩
  | [] => ⟨.dot, ['.'], []⟩

def equal : List Char → Lexeme
  | '>' :: cs => ⟨.arrow, ['=', '>'], cs⟩
  | '=' :: '=' :: cs => ⟨.operator, ['=', '=', '='], cs⟩
  | '=' :: cs => ⟨.operator, ['=', '='], cs⟩
  | cs => ⟨.equal, ['='], cs⟩

/-- A question mark and a point before a digit are a conditional with a number in it. -/
def question : List Char → Lexeme
  | '?' :: '=' :: cs => ⟨.operator, ['?', '?', '='], cs⟩
  | '?' :: cs => ⟨.operator, ['?', '?'], cs⟩
  | '.' :: cs =>
    if cs.head?.any Char.isDigit then ⟨.question, ['?'], '.' :: cs⟩
    else ⟨.questionDot, ['?', '.'], cs⟩
  | cs => ⟨.question, ['?'], cs⟩

def startsOperator (c : Char) : Bool :=
  ['+', '-', '*', '/', '%', '<', '>', '!', '&', '|', '^', '~'].contains c

def continuesOperator (c : Char) : Bool :=
  ['+', '-', '*', '%', '<', '>', '&', '|', '^', '='].contains c

def operator (first : Char) (cs : List Char) : Lexeme :=
  spanning (fun _ => .operator) [first] continuesOperator cs

def string (quote : Char) (cs : List Char) : Lexeme :=
  let piece := Piece.string quote cs
  let kind := if piece.ending = .complete then .string (String.ofList piece.value) else .invalid
  ⟨kind, quote :: piece.text, piece.rest⟩

def regExp (cs : List Char) : Lexeme :=
  let piece := Piece.pattern false cs
  if piece.ending = .complete then
    spanning (fun flags => .regExp (String.ofList piece.value) (String.ofList flags))
      ('/' :: piece.text) Text.isIdentifierContinue piece.rest
  else ⟨.invalid, '/' :: piece.text, piece.rest⟩

def template (mark : Char) (cs : List Char) : Lexeme × Bool :=
  let piece := Piece.template cs
  let kind := if piece.ending = .cut then .invalid else .template (String.ofList piece.value)
  (⟨kind, mark :: piece.text, piece.rest⟩, piece.ending = .substitution)

def plain (regExpAllowed : Bool) (c : Char) (cs : List Char) : Lexeme :=
  if c = '{' then ⟨.leftBrace, [c], cs⟩
  else if c = '}' then ⟨.rightBrace, [c], cs⟩
  else if c = '(' then ⟨.leftParen, [c], cs⟩
  else if c = ')' then ⟨.rightParen, [c], cs⟩
  else if c = '[' then ⟨.leftBracket, [c], cs⟩
  else if c = ']' then ⟨.rightBracket, [c], cs⟩
  else if c = ';' then ⟨.semicolon, [c], cs⟩
  else if c = ',' then ⟨.comma, [c], cs⟩
  else if c = ':' then ⟨.colon, [c], cs⟩
  else if c = '.' then dot cs
  else if c = '=' then equal cs
  else if c = '?' then question cs
  else if c = '/' && regExpAllowed then regExp cs
  else if startsOperator c then operator c cs
  else if c = '\x22' || c = '\x27' then string c cs
  else if c.isDigit then number c cs
  else if Text.isIdentifierStart c then word c cs
  else if c = '#' then privateName cs
  else ⟨.invalid, [c], cs⟩

/-! ## Nothing is lost -/

/-- The lexeme is read off the front of `c :: cs`, and holds at least `c`. -/
def Reads (lexeme : Lexeme) (c : Char) (cs : List Char) : Prop :=
  ∃ more, lexeme.text = c :: more ∧ more ++ lexeme.rest = cs

theorem reads_spanning (kind : List Char → Kind) (c : Char) (read : List Char) (p : Char → Bool)
    (cs : List Char) : (spanning kind (c :: read) p cs).Reads c (read ++ cs) :=
  ⟨read ++ cs.takeWhile p, rfl, by simp [spanning, List.takeWhile_append_dropWhile]⟩

theorem numberTail_append (hexadecimal : Bool) (prev : Char) (cs : List Char) :
    (numberTail hexadecimal prev cs).1 ++ (numberTail hexadecimal prev cs).2 = cs := by
  fun_induction numberTail hexadecimal prev cs with
  | case1 => rfl
  | case2 _ _ _ _ _ tail ih => simpa [tail] using ih
  | case3 => rfl

theorem reads_number (c : Char) (cs : List Char) : (number c cs).Reads c cs :=
  ⟨_, rfl, numberTail_append _ c cs⟩

theorem reads_dot (cs : List Char) : (dot cs).Reads '.' cs := by
  fun_cases dot cs
  · exact ⟨_, rfl, rfl⟩
  · exact reads_number '.' _
  · exact ⟨_, rfl, rfl⟩
  · exact ⟨_, rfl, rfl⟩

theorem reads_equal (cs : List Char) : (equal cs).Reads '=' cs := by
  fun_cases equal cs <;> exact ⟨_, rfl, rfl⟩

theorem reads_question (cs : List Char) : (question cs).Reads '?' cs := by
  fun_cases question cs <;> exact ⟨_, rfl, rfl⟩

theorem reads_string (quote : Char) (cs : List Char) : (string quote cs).Reads quote cs :=
  ⟨_, rfl, Piece.string_text_append_rest quote cs⟩

theorem reads_regExp (cs : List Char) : (regExp cs).Reads '/' cs := by
  have h := Piece.pattern_text_append_rest false cs
  simp only [regExp]
  split
  · have := reads_spanning
      (fun flags => .regExp (String.ofList (Piece.pattern false cs).value) (String.ofList flags))
      '/' (Piece.pattern false cs).text Text.isIdentifierContinue (Piece.pattern false cs).rest
    rwa [h] at this
  · exact ⟨_, rfl, h⟩

theorem reads_template (mark : Char) (cs : List Char) : (template mark cs).1.Reads mark cs :=
  ⟨_, rfl, Piece.template_text_append_rest cs⟩

theorem reads_plain (regExpAllowed : Bool) (c : Char) (cs : List Char) :
    (plain regExpAllowed c cs).Reads c cs := by
  fun_cases plain regExpAllowed c cs
  case case10 h => exact h ▸ reads_dot cs
  case case11 h => exact h ▸ reads_equal cs
  case case12 h => exact h ▸ reads_question cs
  case case13 h =>
    rw [Bool.and_eq_true, decide_eq_true_eq] at h
    exact h.1 ▸ reads_regExp cs
  case case14 => exact reads_spanning _ c [] _ _
  case case15 => exact reads_string c cs
  case case16 => exact reads_number c cs
  case case17 => exact reads_spanning _ c [] _ _
  case case18 h => exact h ▸ reads_spanning _ '#' [] _ _
  all_goals exact ⟨_, rfl, rfl⟩

theorem Reads.length_rest_lt {lexeme : Lexeme} {c : Char} {cs : List Char}
    (h : lexeme.Reads c cs) : lexeme.rest.length < (c :: cs).length := by
  obtain ⟨more, -, rfl⟩ := h
  simp only [List.length_cons, List.length_append]
  omega

end Lexeme

end Nodeless
