import Nodeless.Source.Span
import Nodeless.Token.Keyword

/-!
# Tokens

The kinds of token that JavaScript source is made of. A kind carries what its token stands for.
-/

namespace Nodeless

inductive Kind
  | number (text : String)
  | string (value : String)
  /-- One chunk of a template literal, up to its end or to the next substitution. -/
  | template (value : String)
  | regExp (pattern flags : String)
  | boolean (value : Bool)
  | null
  | identifier (name : String)
  | privateIdentifier (name : String)
  | keyword (word : Keyword)
  | leftBrace | rightBrace | leftParen | rightParen | leftBracket | rightBracket
  | dot | ellipsis | semicolon | comma | colon | question | questionDot | equal | arrow
  /-- Any other punctuator. -/
  | operator
  | eof
  | invalid
  deriving DecidableEq, Repr, Inhabited

namespace Kind

def reserved? (word : String) : Option Kind :=
  if word = "true" then some (.boolean true)
  else if word = "false" then some (.boolean false)
  else if word = "null" then some .null
  else (Keyword.ofSpelling? word).map .keyword

def isKeyword : Kind → Bool
  | keyword _ => true
  | _ => false

def isLiteral : Kind → Bool
  | number _ | string _ | template _ | regExp _ _ | boolean _ | null => true
  | _ => false

def isIdentifier : Kind → Bool
  | identifier _ => true
  | _ => false

/-- Whether a slash after a token of this kind starts a regular expression, unless the tokens
before it say otherwise. -/
def allowsRegExpAfter : Kind → Bool
  | identifier _ | privateIdentifier _ | rightParen | rightBracket => false
  | keyword .this | keyword .super => false
  | kind => !kind.isLiteral

def opensBracket : Kind → Bool
  | leftParen | leftBracket | leftBrace => true
  | _ => false

def closesBracket : Kind → Bool
  | rightParen | rightBracket | rightBrace => true
  | _ => false

end Kind

structure Token where
  kind : Kind
  /-- The source text of the token. -/
  text : String
  span : Span
  /-- Whether a line feed lies between the token and the one before it. -/
  afterLineFeed : Bool
  deriving DecidableEq, Repr, Inhabited

namespace Token

def isIdentifier (t : Token) : Bool := t.kind.isIdentifier

def isName (t : Token) : Bool :=
  match t.kind with
  | .identifier _ | .boolean _ | .null | .keyword _ => true
  | _ => false

end Token

end Nodeless
