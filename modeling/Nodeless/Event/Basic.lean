import Nodeless.Source.Position

/-!
# Events

What a source says about its names, in source order: which scopes open and close, which names are
declared, and which names and member chains stand where a value is meant.
-/

namespace Nodeless

structure Name where
  text : String
  span : Span
  location : Location
  deriving DecidableEq, Repr, Inhabited

/-- A name and the members read off it, as in `a.b.c`. -/
structure Chain where
  root : Name
  members : List Name
  deriving DecidableEq, Repr, Inhabited

namespace Chain

def last (chain : Chain) : Name := chain.members.getLastD chain.root

def names (chain : Chain) : List String := (chain.root :: chain.members).map Name.text

/-- The names of the chain with points between them. -/
def path (chain : Chain) : String := ".".intercalate chain.names

/-- The smallest span that covers all its names. -/
def span (chain : Chain) : Span := chain.members.foldl (fun span name => span.hull name.span) chain.root.span

def location (chain : Chain) : Location := ⟨chain.root.location.start, chain.last.location.stop⟩

def object? (chain : Chain) : Option Chain :=
  if chain.members.isEmpty then none else some { chain with members := chain.members.dropLast }

/-- The chain and every shorter chain it starts with, the longest first. -/
def prefixes (chain : Chain) : List Chain :=
  (List.range (chain.members.length + 1)).reverse.map fun n =>
    { chain with members := chain.members.take n }

end Chain

/-- Whether a scope holds the `var` names declared in it. -/
inductive ScopeKind
  | block
  | function
  deriving DecidableEq, Repr

inductive DeclarationKind
  | lexical
  /-- Held by the innermost function, however deep the blocks in it. -/
  | var
  deriving DecidableEq, Repr

inductive Event
  | enter (span : Span) (kind : ScopeKind)
  | exit (span : Span)
  | declare (name : Name) (kind : DeclarationKind)
  | chain (chain : Chain)
  deriving DecidableEq, Repr

end Nodeless
