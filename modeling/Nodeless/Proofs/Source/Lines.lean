import Mathlib.Data.List.Forall2
import Nodeless.Proofs.Source.Boundary
import Nodeless.Source.Position

/-!
# Lines of alike texts

A position depends on the widths of the characters and on where the lines end, and on nothing else of
the text.
-/

namespace Nodeless

namespace Source

/-- Characters that move what is behind them alike: of one width, and both of them line feeds or
neither. -/
def Alike : List Char → List Char → Prop :=
  List.Forall₂ fun c d => c.utf8Size = d.utf8Size ∧ (c = '\n' ↔ d = '\n')

theorem alike_refl (cs : List Char) : Alike cs cs := List.forall₂_same.mpr fun _ _ => ⟨rfl, Iff.rfl⟩

theorem length_takeBytes_of_alike {cs ds : List Char} (h : Alike cs ds) (n : Nat) :
    (takeBytes n cs).length = (takeBytes n ds).length := by
  induction h generalizing n with
  | nil => rfl
  | cons hc _ ih => by_cases hn : n = 0 <;> simp [takeBytes, hn, hc.1, ih]

theorem length_le_byteLength (cs : List Char) : cs.length ≤ byteLength cs := by
  induction cs with
  | nil => exact Nat.le_refl 0
  | cons c cs ih =>
    have hc := Char.utf8Size_pos c
    simp only [List.length_cons, byteLength]
    omega

theorem alike_of_narrow {cs ds : List Char} (hlength : cs.length = ds.length) (hcs : byteLength cs = cs.length)
    (hds : byteLength ds = ds.length) (hlines : '\n' ∉ cs ++ ds) : Alike cs ds := by
  induction cs generalizing ds with
  | nil =>
    rw [List.eq_nil_of_length_eq_zero hlength.symm]
    exact .nil
  | cons c cs ih =>
    cases ds with
    | nil => cases hlength
    | cons d ds =>
      have hcs' := length_le_byteLength cs
      have hds' := length_le_byteLength ds
      have hc := Char.utf8Size_pos c
      have hd := Char.utf8Size_pos d
      simp only [List.length_cons, byteLength] at hlength hcs hds
      simp only [List.mem_append, List.mem_cons, not_or] at hlines
      obtain ⟨⟨hc', hcs''⟩, hd', hds''⟩ := hlines
      refine .cons ⟨by omega, by simp [Ne.symm hc', Ne.symm hd']⟩ (ih (by omega) (by omega) (by omega) ?_)
      simp [hcs'', hds'']

end Source

namespace LineIndex

open Source

/-- Lines that start at one offset, with alike texts from there on. -/
def Abreast : List (Nat × List Char) → List (Nat × List Char) → Prop :=
  List.Forall₂ fun line other => line.1 = other.1 ∧ Alike line.2 other.2

theorem abreast_linesAfter {cs ds : List Char} (h : Alike cs ds) (offset : Nat) :
    Abreast (linesAfter offset cs) (linesAfter offset ds) := by
  induction h generalizing offset with
  | nil => exact .nil
  | @cons c d cs ds hc hcs ih =>
    rw [linesAfter, linesAfter, hc.1]
    by_cases hline : c = '\n'
    · rw [if_pos hline, if_pos (hc.2.mp hline)]
      exact .cons ⟨rfl, hcs⟩ (ih _)
    · rw [if_neg hline, if_neg (mt hc.2.mpr hline)]
      exact ih _

theorem Abreast.takeWhile {lines others : List (Nat × List Char)} (h : Abreast lines others) (offset : Nat) :
    Abreast (lines.takeWhile fun line => line.1 ≤ offset) (others.takeWhile fun line => line.1 ≤ offset) := by
  induction h with
  | nil => exact .nil
  | @cons line other _ _ hline _ ih =>
    rw [List.takeWhile_cons, List.takeWhile_cons, hline.1]
    split
    · exact .cons hline ih
    · exact .nil

theorem Abreast.getLastD {lines others : List (Nat × List Char)} (h : Abreast lines others)
    {line other : Nat × List Char} (hline : line.1 = other.1 ∧ Alike line.2 other.2) :
    (lines.getLastD line).1 = (others.getLastD other).1 ∧
      Alike (lines.getLastD line).2 (others.getLastD other).2 := by
  induction h generalizing line other with
  | nil => exact hline
  | cons hnext _ ih =>
    rw [List.getLastD_cons, List.getLastD_cons]
    exact ih hnext

theorem position_of_alike {cs ds : List Char} (h : Alike cs ds) (offset : Nat) :
    (ofChars cs).position offset = (ofChars ds).position offset := by
  have hlines : Abreast (ofChars cs).lines (ofChars ds).lines := .cons ⟨rfl, h⟩ (abreast_linesAfter h 0)
  have hupTo := hlines.takeWhile offset
  obtain ⟨hstart, htext⟩ := @Abreast.getLastD _ _ hupTo (0, []) (0, []) ⟨rfl, .nil⟩
  unfold position
  dsimp only
  rw [hupTo.length_eq, hstart, length_takeBytes_of_alike htext]

theorem location_of_alike {cs ds : List Char} (h : Alike cs ds) (span : Span) :
    (ofChars cs).location span = (ofChars ds).location span := by
  rw [location, location, position_of_alike h, position_of_alike h]

end LineIndex

end Nodeless
