/-!
# Spans

A span is a range of bytes of a source, its end excluded. An empty span is a place between two
bytes: it meets another span only strictly inside it.
-/

namespace Nodeless

structure Span where
  start : Nat
  stop : Nat
  deriving DecidableEq, Repr, Inhabited

namespace Span

def length (s : Span) : Nat := s.stop - s.start

def isEmpty (s : Span) : Bool := s.start = s.stop

/-- Two places never meet, a place meets a range that it cuts in two, and two ranges meet where
they share a byte. -/
def overlaps (a b : Span) : Bool :=
  match a.isEmpty, b.isEmpty with
  | true, true => false
  | true, false => b.start < a.start && a.start < b.stop
  | false, true => a.start < b.start && b.start < a.stop
  | false, false => a.start < b.stop && b.start < a.stop

def hull (a b : Span) : Span := ⟨min a.start b.start, max a.stop b.stop⟩

def compare (a b : Span) : Ordering :=
  (Ord.compare a.start b.start).then (Ord.compare a.stop b.stop)

def render (s : Span) : String := toString s.start ++ ".." ++ toString s.stop

theorem overlaps_comm (a b : Span) : a.overlaps b = b.overlaps a := by
  unfold overlaps
  cases a.isEmpty <;> cases b.isEmpty <;> simp [Bool.and_comm]

end Span

end Nodeless
