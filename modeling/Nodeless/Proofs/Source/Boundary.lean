import Nodeless.Source.Span
import Nodeless.Source.Text

/-!
# Boundaries

Where a text can be cut without cutting a character. Between two boundaries lies a piece of the
text, and its bytes are the distance between them.
-/

namespace Nodeless.Source

/-- A character ends, or none has begun, after the first `n` bytes. -/
def Boundary (cs : List Char) (n : Nat) : Prop :=
  ∃ before after, cs = before ++ after ∧ byteLength before = n

theorem byteLength_eq_zero (cs : List Char) : byteLength cs = 0 ↔ cs = [] := by
  cases cs with
  | nil => simp [byteLength]
  | cons c cs =>
    have := Char.utf8Size_pos c
    simp only [byteLength, reduceCtorEq, iff_false]
    omega

theorem takeBytes_byteLength_append (a b : List Char) : takeBytes (byteLength a) (a ++ b) = a := by
  induction a with
  | nil => cases b <;> rfl
  | cons c a ih =>
    have hc := Char.utf8Size_pos c
    rw [byteLength, List.cons_append, takeBytes, if_neg (by omega), Nat.add_sub_cancel_left, ih]

theorem takeBytes_of_byteLength_le {cs : List Char} {n : Nat} (h : byteLength cs ≤ n) : takeBytes n cs = cs := by
  induction cs generalizing n with
  | nil => rfl
  | cons c cs ih =>
    have hc := Char.utf8Size_pos c
    rw [byteLength] at h
    rw [takeBytes, if_neg (by omega), ih (by omega)]

theorem length_takeBytes_le (n : Nat) (cs : List Char) : (takeBytes n cs).length ≤ cs.length := by
  conv => rhs; rw [← takeBytes_append_dropBytes n cs, List.length_append]
  exact Nat.le_add_right _ _

theorem boundary_iff (cs : List Char) (n : Nat) : Boundary cs n ↔ byteLength (takeBytes n cs) = n := by
  constructor
  · rintro ⟨before, after, rfl, rfl⟩
    rw [takeBytes_byteLength_append]
  · intro h
    exact ⟨takeBytes n cs, dropBytes n cs, (takeBytes_append_dropBytes n cs).symm, h⟩

instance (cs : List Char) (n : Nat) : Decidable (Boundary cs n) := decidable_of_iff _ (boundary_iff cs n).symm

theorem boundary_le {cs : List Char} {n : Nat} (h : Boundary cs n) : n ≤ byteLength cs := by
  obtain ⟨before, after, rfl, rfl⟩ := h
  rw [byteLength_append]
  omega

theorem Boundary.of_append {done rest : List Char} {n : Nat} (h : Boundary (done ++ rest) n)
    (hle : byteLength done ≤ n) : Boundary rest (n - byteLength done) := by
  obtain ⟨before, after, heq, rfl⟩ := h
  rcases List.append_eq_append_iff.mp heq with ⟨piece, rfl, hrest⟩ | ⟨piece, rfl, rfl⟩
  · exact ⟨piece, after, hrest, by rw [byteLength_append]; omega⟩
  · have hnil : piece = [] := by
      rw [← byteLength_eq_zero]
      rw [byteLength_append] at hle
      omega
    subst hnil
    exact ⟨[], rest, rfl, by simp [byteLength]⟩

theorem Boundary.split {cs : List Char} {n m : Nat} (hn : Boundary cs n) (hm : Boundary cs m) (hle : n ≤ m) :
    ∃ kept cut after, cs = kept ++ cut ++ after ∧ byteLength kept = n ∧ byteLength cut = m - n := by
  obtain ⟨kept, rest, rfl, rfl⟩ := hn
  obtain ⟨cut, after, rfl, hcut⟩ := hm.of_append hle
  exact ⟨kept, cut, after, by rw [List.append_assoc], rfl, hcut⟩

end Nodeless.Source

namespace Nodeless.Span

open Source

/-- The piece of a source that the span covers. -/
def slice (s : Span) (source : List Char) : List Char := takeBytes s.length (dropBytes s.start source)

theorem slice_append (before piece after : List Char) {start stop : Nat} (hstart : start = byteLength before)
    (hstop : stop = start + byteLength piece) : slice ⟨start, stop⟩ (before ++ (piece ++ after)) = piece := by
  subst hstart hstop
  rw [slice, dropBytes_byteLength_append, length, Nat.add_sub_cancel_left, takeBytes_byteLength_append]

end Nodeless.Span
