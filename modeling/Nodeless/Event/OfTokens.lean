import Nodeless.Event.Basic
import Nodeless.Token.Lexer

/-!
# Events of a source

Reads the events off the tokens. No syntax tree is built: the walk knows the constructs that bring
names into scope, and takes every other name for a value unless it is a property, a key or the name
of a method. Names in destructuring patterns are not declared, and neither are the parameters of an
arrow function without braces.
-/

namespace Nodeless

inductive SyntaxError
  | invalidToken (place : Position)
  | unexpectedBrace (place : Position)
  | unexpectedEnd
  deriving DecidableEq, Repr

namespace SyntaxError

def message : SyntaxError → String
  | invalidToken p => s!"Invalid or unexpected token ({p.line}:{p.column})"
  | unexpectedBrace p => s!"Unexpected token '\x7d' ({p.line}:{p.column})"
  | unexpectedEnd => "Unexpected end of input"

def render (e : SyntaxError) : String := "SyntaxError: " ++ e.message

end SyntaxError

/-- What a function, method, arrow or catch head says about the braces after it. -/
structure Body where
  kind : ScopeKind
  parameters : List Name
  deriving DecidableEq, Repr

/-- The state of the walk. Tokens are known by the offset they start at. -/
structure Walker where
  /-- The number of open braces. -/
  depth : Nat := 0
  /-- The bodies announced by heads, each with its brace, the latest first. -/
  bodies : List (Nat × Body) := []
  /-- The tokens taken as declarations, before the walk reaches them or after. -/
  declared : List Nat := []
  deriving Repr

namespace Walker

/-! ## Looking ahead -/

/-- The tokens up to the parenthesis that closes `depth` more than the tokens open, and those
after it. -/
def splitAtClose (depth : Nat) : List Token → Option (List Token × List Token)
  | [] => none
  | t :: ts =>
    match t.kind, depth with
    | .rightParen, 0 => some ([], ts)
    | .rightParen, depth + 1 => (splitAtClose depth ts).map fun s => (t :: s.1, s.2)
    | .leftParen, depth => (splitAtClose (depth + 1) ts).map fun s => (t :: s.1, s.2)
    | _, depth => (splitAtClose depth ts).map fun s => (t :: s.1, s.2)

def parenthesised : List Token → Option (List Token × List Token)
  | t :: ts => if t.kind = .leftParen then splitAtClose 0 ts else none
  | [] => none

def startsWith (kind : Kind) (ts : List Token) : Bool := ts.head?.any fun t => t.kind = kind

/-- The parameters among the tokens of a parenthesised list, where `prev` is the token before
them. A parameter stands outside inner brackets, starts its item, and ends it or has a default. -/
def parameters (prev : Token) (nesting : Nat) : List Token → List Token
  | [] => []
  | t :: ts =>
    if t.kind.opensBracket then parameters t (nesting + 1) ts
    else if t.kind.closesBracket then parameters t (nesting - 1) ts
    else
      let starts := prev.kind = .leftParen || prev.kind = .comma || prev.kind = .ellipsis
      let ends := ts.isEmpty || startsWith .comma ts || startsWith .equal ts
      if t.isIdentifier && nesting = 0 && starts && ends then t :: parameters t nesting ts
      else parameters t nesting ts

/-- Whether a line feed between the tokens ends the statement: where an operand has ended and the
next token cannot go on with it. -/
def endsStatement (prev next : Token) : Bool :=
  next.afterLineFeed &&
  (prev.kind = .rightBrace || !prev.kind.allowsRegExpAfter) &&
  match next.kind with
  | .identifier _ | .number _ | .string _ => true
  | .keyword .«in» | .keyword .instanceof => false
  | kind => kind.isKeyword

/-- The names that a declaration list declares. The list ends at a semicolon, at the bracket that
closes what it stands in, or where a line feed ends the statement. -/
def declarators (prev : Token) (nesting : Nat) (atStart : Bool) : List Token → List Token
  | [] => []
  | t :: ts =>
    let found := if atStart && t.isIdentifier then [t] else []
    if !atStart && nesting = 0 && endsStatement prev t then []
    else if t.kind.opensBracket then found ++ declarators t (nesting + 1) false ts
    else if t.kind.closesBracket then
      if nesting = 0 then found else found ++ declarators t (nesting - 1) false ts
    else if t.kind = .semicolon && nesting = 0 then found
    else found ++ declarators t nesting (t.kind = .comma && nesting = 0) ts

/-- The names of the members that points read off the name before the tokens. -/
def members : List Token → List Token
  | point :: t :: ts => if point.kind = .dot && t.isName then t :: members ts else []
  | _ => []

/-- Whether a method of a class or an object literal may be named after the token. -/
def precedesMethod (prev : Token) : Bool :=
  match prev.kind with
  | .leftBrace | .rightBrace | .comma | .semicolon => true
  | .keyword .static | .keyword .async => true
  | .operator => prev.text = "*"
  | .identifier accessor => accessor = "get" || accessor = "set"
  | _ => false

def methodHead? (prev : Option Token) (ts : List Token) : Option (List Token × List Token) := do
  let prev ← prev
  let head ← parenthesised ts
  if precedesMethod prev && startsWith .leftBrace head.2 then some head else none

/-! ## Steps -/

def nameOf (lines : LineIndex) (t : Token) : Name := ⟨t.text, t.span, lines.location t.span⟩

def declare (walker : Walker) (lines : LineIndex) (kind : DeclarationKind) (ts : List Token) :
    Walker × List Event :=
  let new := ts.filter fun t => !walker.declared.contains t.span.start
  ({ walker with declared := new.map (·.span.start) ++ walker.declared },
    new.map fun t => .declare (nameOf lines t) kind)

/-- Takes the parameters of a list out of the walk, and announces them for the body that starts
with the tokens `after`, if that is one in braces. -/
def takeParameters (walker : Walker) (lines : LineIndex) (opening : Token)
    (inside after : List Token) (kind : ScopeKind) : Walker :=
  let found := (parameters opening 0 inside).filter fun t =>
    !walker.declared.contains t.span.start
  let walker := { walker with declared := found.map (·.span.start) ++ walker.declared }
  match after with
  | brace :: _ =>
    if brace.kind = .leftBrace then
      let body := ⟨kind, found.map (nameOf lines)⟩
      { walker with bodies := (brace.span.start, body) :: walker.bodies }
    else walker
  | [] => walker

def takeHead (walker : Walker) (lines : LineIndex) (kind : ScopeKind) (ts : List Token) : Walker :=
  match ts, parenthesised ts with
  | opening :: _, some (inside, after) =>
    walker.takeParameters lines opening inside after kind
  | _, _ => walker

/-- What a step of the walk leaves: the state, the events, and how many tokens past the first it
has dealt with. -/
structure Step where
  walker : Walker
  events : List Event := []
  skip : Nat := 0

def openBrace (walker : Walker) (t : Token) : Step :=
  let body := walker.bodies.lookup t.span.start
  let kind := body.elim .block Body.kind
  let parameters := body.elim [] Body.parameters
  { walker := { walker with
      depth := walker.depth + 1
      bodies := walker.bodies.filter fun b => b.1 ≠ t.span.start }
    events := .enter t.span kind :: parameters.map fun p => .declare p .lexical }

def function (walker : Walker) (lines : LineIndex) (rest : List Token) : Step :=
  let rest := if startsWith .operator rest then rest.tail else rest
  let name := (rest.take 1).filter Token.isIdentifier
  let (walker, events) := walker.declare lines .var name
  { walker := walker.takeHead lines .function (rest.drop name.length), events }

/-- A parenthesised list before an arrow holds the parameters of the function. -/
def openParen (walker : Walker) (lines : LineIndex) (t : Token) (rest : List Token) : Step :=
  match splitAtClose 0 rest with
  | some (inside, arrow :: after) =>
    if arrow.kind = .arrow then
      { walker := walker.takeParameters lines t inside after .function }
    else { walker }
  | _ => { walker }

/-- A name where a value may stand: the parameter of an arrow function, the key of an object
literal, or the root of a chain. -/
def value (walker : Walker) (lines : LineIndex) (prev : Option Token) (t : Token)
    (rest : List Token) : Step :=
  if startsWith .arrow rest then
    match rest.tail with
    | brace :: _ =>
      if brace.kind = .leftBrace then
        let body := ⟨.function, [nameOf lines t]⟩
        { walker := { walker with bodies := (brace.span.start, body) :: walker.bodies } }
      else { walker }
    | [] => { walker }
  else if prev.any (fun p => p.kind = .leftBrace || p.kind = .comma) && startsWith .colon rest then
    { walker }
  else
    let members := members rest
    let chain := ⟨nameOf lines t, members.map (nameOf lines)⟩
    { walker, events := [.chain chain], skip := 2 * members.length }

def step (walker : Walker) (lines : LineIndex) (prev : Option Token) (t : Token)
    (rest : List Token) : Except SyntaxError Step :=
  match t.kind with
  | .leftBrace => .ok (walker.openBrace t)
  | .rightBrace =>
    if walker.depth = 0 then .error (.unexpectedBrace (lines.position t.span.start))
    else .ok { walker := { walker with depth := walker.depth - 1 }, events := [.exit t.span] }
  | .keyword .var =>
    let (walker, events) := walker.declare lines .var (declarators t 0 true rest)
    .ok { walker, events }
  | .keyword .«let» | .keyword .const =>
    let (walker, events) := walker.declare lines .lexical (declarators t 0 true rest)
    .ok { walker, events }
  | .keyword .«class» =>
    let (walker, events) :=
      walker.declare lines .lexical ((rest.take 1).filter Token.isIdentifier)
    .ok { walker, events }
  | .keyword .function => .ok (walker.function lines rest)
  | .keyword .«catch» => .ok { walker := walker.takeHead lines .block rest }
  | .leftParen => .ok (walker.openParen lines t rest)
  | .dot | .questionDot =>
    .ok { walker, skip := if rest.head?.any Token.isName then 1 else 0 }
  | .identifier _ =>
    if walker.declared.contains t.span.start then .ok { walker }
    else if (methodHead? prev rest).isSome then
      .ok { walker := walker.takeHead lines .function rest }
    else .ok (walker.value lines prev t rest)
  | _ => .ok { walker }

/-- The events of the tokens, where `prev` is the token before them. -/
def events (lines : LineIndex) (walker : Walker) (prev : Option Token) :
    List Token → Except SyntaxError (List Event)
  | [] => if walker.depth = 0 then .ok [] else .error .unexpectedEnd
  | t :: rest => do
    let step ← walker.step lines prev t rest
    let more ← events lines step.walker (t :: rest)[step.skip]? (rest.drop step.skip)
    return step.events ++ more
termination_by ts => ts.length
decreasing_by simp only [List.length_cons, List.length_drop]; omega

end Walker

namespace Event

/-- The events of a source, or why it is no source. An invalid token counts before anything
else. -/
def ofSource (source : String) : Except SyntaxError (List Event) :=
  let lines := LineIndex.ofChars source.toList
  let tokens := Token.ofSource source
  match tokens.find? fun t => t.kind = .invalid with
  | some t => .error (.invalidToken (lines.position t.span.start))
  | none => Walker.events lines {} none (tokens.filter fun t => t.kind ≠ .eof)

end Event

end Nodeless
