import Nodeless.Source.Text
import Nodeless.Token.Gap
import Nodeless.Token.Lexeme

/-!
# The lexer

Cuts a source into tokens. Two characters read differently by what stands before them: a slash may
start a regular expression, and a closing brace may resume a template. The context of a lexer is
what that takes to know.
-/

namespace Nodeless

namespace Lexer

structure Context where
  /-- Whether a slash starts a regular expression here. -/
  regExpAllowed : Bool := true
  /-- Whether the last token was a keyword that a parenthesised head follows. -/
  afterHeadWord : Bool := false
  /-- For each open parenthesis, the innermost first, whether it opens such a head. -/
  heads : List Bool := []
  /-- For each open substitution, the innermost first, the braces open in it. -/
  substitutions : List Nat := []
  deriving DecidableEq, Repr

/-- A step on from a token of this kind and text. A statement that follows a head may start with a
regular expression, and an update operator leaves things as they were before it. -/
def Context.afterToken (context : Context) (kind : Kind) (text : List Char) : Context :=
  let context := match kind with
    | .leftParen =>
      { context with heads := context.afterHeadWord :: context.heads, regExpAllowed := true }
    | .rightParen =>
      { context with heads := context.heads.tail, regExpAllowed := context.heads.headD false }
    | .operator =>
      if text = ['+', '+'] ∨ text = ['-', '-'] then context
      else { context with regExpAllowed := true }
    | kind => { context with regExpAllowed := kind.allowsRegExpAfter }
  { context with afterHeadWord := match kind with
      | .keyword word => word.opensHead
      | _ => false }

def lexeme (context : Context) (c : Char) (cs : List Char) : Lexeme × List Nat :=
  let resume (pending : List Nat) : Lexeme × List Nat :=
    let chunk := Lexeme.template c cs
    (chunk.1, if chunk.2 then 0 :: pending else pending)
  let plain := Lexeme.plain context.regExpAllowed c cs
  if c = '{' then
    match context.substitutions with
    | [] => (plain, [])
    | n :: ns => (plain, (n + 1) :: ns)
  else if c = '}' then
    match context.substitutions with
    | [] => (plain, [])
    | 0 :: ns => resume ns
    | (n + 1) :: ns => (plain, n :: ns)
  else if c = '\x60' then resume context.substitutions
  else (plain, context.substitutions)

end Lexer

/-- The state of reading a source: how many bytes are read, what is left, and the context. -/
structure Lexer where
  offset : Nat
  rest : List Char
  context : Lexer.Context := {}
  deriving DecidableEq, Repr

namespace Lexer

open Source

def ofChars (source : List Char) : Lexer :=
  let skipped := Gap.hashbang source
  ⟨byteLength skipped, source.drop skipped.length, {}⟩

/-- A token without text after a gap, where nothing is left. -/
def emptyToken (lexer : Lexer) (gap : List Char) (kind : Kind) : Token × Lexer :=
  let start := lexer.offset + byteLength gap
  (⟨kind, "", ⟨start, start⟩, gap.contains '\n'⟩,
    ⟨start, [], lexer.context.afterToken kind []⟩)

/-- The token that `c :: cs` starts with, after a gap. -/
def tokenAt (lexer : Lexer) (gap : List Char) (c : Char) (cs : List Char) : Token × Lexer :=
  let found := lexeme lexer.context c cs
  let start := lexer.offset + byteLength gap
  let stop := start + byteLength found.1.text
  let context := { lexer.context with substitutions := found.2 }
  (⟨found.1.kind, String.ofList found.1.text, ⟨start, stop⟩, gap.contains '\n'⟩,
    ⟨stop, found.1.rest, context.afterToken found.1.kind found.1.text⟩)

/-- The next token. A comment that never ends is an invalid token at the end of the text. -/
def next (lexer : Lexer) : Token × Lexer :=
  match Gap.ofChars lexer.rest with
  | ⟨gap, c :: cs, true⟩ => lexer.tokenAt gap c cs
  | ⟨gap, [], true⟩ => lexer.emptyToken gap .eof
  | ⟨gap, _, false⟩ => lexer.emptyToken gap .invalid

theorem reads_lexeme (context : Context) (c : Char) (cs : List Char) :
    (lexeme context c cs).1.Reads c cs := by
  unfold lexeme
  repeat' split
  all_goals first
    | exact Lexeme.reads_plain _ _ _
    | exact Lexeme.reads_template _ _

/-- Every token but the last takes something off the text. -/
theorem next_shrinks (lexer : Lexer) :
    lexer.next.1.kind = .eof ∨ lexer.next.2.rest.length < lexer.rest.length := by
  have h := Gap.read_text_append_rest .between lexer.rest
  unfold next
  split
  · next c cs hgap =>
    rw [show Gap.read .between lexer.rest = _ from hgap] at h
    have hlt := (reads_lexeme lexer.context c cs).length_rest_lt
    rw [← h, List.length_append]
    exact .inr (Nat.lt_of_lt_of_le hlt (Nat.le_add_left _ _))
  · exact .inl rfl
  · next hgap =>
    refine .inr ?_
    cases hr : lexer.rest with
    | nil => rw [hr] at hgap; cases hgap
    | cons => simp [emptyToken]

/-- The tokens up to the end of the text, with the one that marks it. Reading goes on after an
invalid token. -/
def tokens (lexer : Lexer) : List Token :=
  let step := lexer.next
  if step.1.kind = .eof then [step.1] else step.1 :: tokens step.2
termination_by lexer.rest.length
decreasing_by exact lexer.next_shrinks.resolve_left (by assumption)

end Lexer

def Token.ofSource (source : String) : List Token := (Lexer.ofChars source.toList).tokens

end Nodeless
