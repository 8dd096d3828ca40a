import Nodeless.Text.CharClass

/-!
# Delimited pieces

The bodies of strings, templates and regular expressions: what follows the opening mark, up to and
with the mark that ends it. A piece that the text ends in, or a line feed where none may stand, is
cut.
-/

namespace Nodeless

/-- How a piece ended: at its own mark, at the opening of a substitution, or cut. -/
inductive Ending
  | complete
  | substitution
  | cut
  deriving DecidableEq, Repr

structure Piece where
  /-- The characters read, the ending mark among them. -/
  text : List Char
  /-- What they stand for. -/
  value : List Char
  rest : List Char
  ending : Ending
  deriving DecidableEq, Repr

namespace Piece

def after (text value : List Char) (piece : Piece) : Piece :=
  { piece with text := text ++ piece.text, value := value ++ piece.value }

/-- What a character after a backslash stands for in a string. A line feed there stands for
nothing. -/
def stringEscape : Char → List Char
  | 'n' => ['\n']
  | 'r' => ['\r']
  | 't' => ['\t']
  | '0' => ['\x00']
  | '\n' => []
  | c => [c]

def templateEscape : Char → List Char
  | 'n' => ['\n']
  | 'r' => ['\r']
  | 't' => ['\t']
  | c => [c]

def string (quote : Char) : List Char → Piece
  | [] => ⟨[], [], [], .cut⟩
  | c :: cs =>
    if c = '\n' then ⟨[c], [], cs, .cut⟩
    else if c = quote then ⟨[c], [], cs, .complete⟩
    else if c = '\\' then
      match cs with
      | [] => ⟨[c], [], [], .cut⟩
      | d :: ds => (string quote ds).after [c, d] (stringEscape d)
    else (string quote cs).after [c] [c]

def template : List Char → Piece
  | [] => ⟨[], [], [], .cut⟩
  | '\x60' :: cs => ⟨['\x60'], [], cs, .complete⟩
  | '$' :: '{' :: cs => ⟨['$', '{'], [], cs, .substitution⟩
  | ['\\'] => ⟨['\\'], [], [], .cut⟩
  | '\\' :: d :: cs => (template cs).after ['\\', d] (templateEscape d)
  | c :: cs => (template cs).after [c] [c]

/-- The pattern of a regular expression. A slash in a character class does not end it. -/
def pattern (inClass : Bool) : List Char → Piece
  | [] => ⟨[], [], [], .cut⟩
  | c :: cs =>
    if c = '\n' then ⟨[c], [], cs, .cut⟩
    else if c = '/' && !inClass then ⟨[c], [], cs, .complete⟩
    else if c = '\\' then
      match cs with
      | [] => ⟨[c], [c], [], .cut⟩
      | d :: ds =>
        if d = '\n' then ⟨[c, d], [c], ds, .cut⟩
        else (pattern inClass ds).after [c, d] [c, d]
    else
      let inClass := if c = '[' then true else if c = ']' then false else inClass
      (pattern inClass cs).after [c] [c]

theorem string_text_append_rest (quote : Char) (cs : List Char) :
    (string quote cs).text ++ (string quote cs).rest = cs := by
  fun_induction string quote cs <;> simp_all [after]

theorem template_text_append_rest (cs : List Char) :
    (template cs).text ++ (template cs).rest = cs := by
  fun_induction template cs <;> simp_all [after]

theorem pattern_text_append_rest (inClass : Bool) (cs : List Char) :
    (pattern inClass cs).text ++ (pattern inClass cs).rest = cs := by
  fun_induction pattern inClass cs <;> simp_all [after]

end Piece

end Nodeless
