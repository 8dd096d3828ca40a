import Nodeless.Source.Span

/-!
# Spans that keep clear of each other

Two spans meet when one of them must give way. Spans that do not overlap lie one behind the other, in
the order of their starts and then of their ends.
-/

namespace Nodeless.Span

def Forward (s : Span) : Prop := s.start ≤ s.stop

instance (s : Span) : Decidable s.Forward := inferInstanceAs (Decidable (s.start ≤ s.stop))

/-- They overlap, or they are the very same place. -/
def meets (a b : Span) : Bool := a.overlaps b || a = b

theorem meets_comm (a b : Span) : a.meets b = b.meets a := by
  simp only [meets, overlaps_comm a b, eq_comm]

theorem meets_eq_true_iff (a b : Span) : a.meets b = true ↔ a = b ∨ a.overlaps b = true := by
  simp [meets, or_comm]

theorem meets_eq_false_iff (a b : Span) : a.meets b = false ↔ a ≠ b ∧ a.overlaps b = false := by
  simp [meets, and_comm]

/-! ## The order of spans -/

def le (a b : Span) : Bool := (a.compare b).isLE

theorem le_iff (a b : Span) :
    a.le b ↔ a.start < b.start ∨ (a.start = b.start ∧ a.stop ≤ b.stop) := by
  simp only [le, compare, Ordering.isLE_then_iff_or, Nat.compare_eq_lt, Nat.compare_eq_eq,
    Nat.isLE_compare]

theorem le_trans (a b c : Span) (hab : a.le b) (hbc : b.le c) : a.le c := by
  rw [le_iff] at *
  omega

theorem le_total (a b : Span) : a.le b || b.le a := by
  rw [Bool.or_eq_true, le_iff, le_iff]
  omega

theorem le_antisymm (a b : Span) (hab : a.le b) (hba : b.le a) : a = b := by
  rw [le_iff] at *
  cases a
  cases b
  simp only [mk.injEq]
  simp only at hab hba
  omega

/-- Two spans in order overlap where the first ends behind the start of the second. An empty span at
the edge of a range is on one side of it, so it does not have to be told apart from the range. -/
theorem overlaps_eq_false_iff {a b : Span} (ha : a.Forward) (hb : b.Forward) (hle : a.le b) :
    a.overlaps b = false ↔ a.stop ≤ b.start := by
  rw [le_iff] at hle
  unfold Forward at ha hb
  unfold overlaps isEmpty
  by_cases h1 : a.start = a.stop <;> by_cases h2 : b.start = b.stop <;>
    simp only [h1, h2, decide_true, decide_false, Bool.and_eq_false_iff, decide_eq_false_iff_not, true_iff] <;>
    omega

theorem not_meets_of_stop_le {a b : Span} (hb : b.start < b.stop) (h : a.stop ≤ b.start) :
    a.meets b = false := by
  rw [meets_eq_false_iff]
  constructor
  · rintro rfl
    omega
  · unfold overlaps isEmpty
    by_cases h1 : a.start = a.stop <;>
      simp only [h1, show ¬ b.start = b.stop by omega, decide_true, decide_false, Bool.and_eq_false_iff,
        decide_eq_false_iff_not] <;>
      omega

end Nodeless.Span
