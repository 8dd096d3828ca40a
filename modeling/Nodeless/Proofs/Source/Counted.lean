import Mathlib.Data.List.DropRight
import Nodeless.Proofs.Source.Boundary
import Nodeless.Source.Position

/-!
# Counted positions

A position counts what is in front of it: the line feeds, and the characters behind the last of them.
The table of lines gives that count at every boundary, and it grows with every character. Behind the end
of the text every offset has the position of the end.
-/

namespace Nodeless

open Source

/-! ## Counting -/

/-- The text behind the last line feed. -/
def Source.lastLine (text : List Char) : List Char := text.rtakeWhile (· ≠ '\n')

namespace Source

theorem lastLine_concat (text : List Char) (c : Char) :
    lastLine (text ++ [c]) = if c = '\n' then [] else lastLine text ++ [c] := by
  rw [lastLine, List.rtakeWhile_concat]
  by_cases hc : c = '\n' <;> simp [hc, lastLine]

theorem lastLine_append_cons (text more : List Char) : lastLine (text ++ '\n' :: more) = lastLine more := by
  induction more using List.reverseRecOn with
  | nil => rw [lastLine_concat, if_pos rfl]; rfl
  | append_singleton more c ih =>
    rw [← List.cons_append, ← List.append_assoc, lastLine_concat, lastLine_concat, ih]

theorem lastLine_of_not_mem {text : List Char} (h : '\n' ∉ text) : lastLine text = text := by
  rw [lastLine, List.rtakeWhile_eq_self_iff]
  intro c hc
  simpa using fun heq : c = '\n' => h (heq ▸ hc)

end Source

namespace Position

/-- The position right behind a text that starts a source. -/
def behind (text : List Char) : Position := ⟨text.count '\n' + 1, (lastLine text).length⟩

/-- In the order of the source, by line and then by column. -/
def Before (p q : Position) : Prop := p.line < q.line ∨ p.line = q.line ∧ p.column < q.column

theorem Before.ne {p q : Position} (h : p.Before q) : p ≠ q := by
  rintro rfl
  rcases h with h | ⟨-, h⟩ <;> exact Nat.lt_irrefl _ h

theorem Before.trans {p q r : Position} (hpq : p.Before q) (hqr : q.Before r) : p.Before r := by
  unfold Before at *
  omega

theorem behind_before_concat (text : List Char) (c : Char) : (behind text).Before (behind (text ++ [c])) := by
  by_cases hc : c = '\n'
  · refine .inl ?_
    simp [behind, hc]
  · refine .inr ⟨?_, ?_⟩
    · simp [behind, hc]
    · simp [behind, lastLine_concat, hc]

theorem behind_before_append (text : List Char) {more : List Char} (h : more ≠ []) :
    (behind text).Before (behind (text ++ more)) := by
  induction more using List.reverseRecOn with
  | nil => exact absurd rfl h
  | append_singleton more c ih =>
    rw [← List.append_assoc]
    by_cases hmore : more = []
    · rw [hmore, List.append_nil]
      exact behind_before_concat text c
    · exact (ih hmore).trans (behind_before_concat _ c)

end Position

/-! ## The table of lines -/

namespace LineIndex

theorem lt_of_mem_linesAfter {offset : Nat} {text : List Char} {line : Nat × List Char}
    (h : line ∈ linesAfter offset text) : offset < line.1 := by
  induction text generalizing offset with
  | nil => cases h
  | cons c text ih =>
    have hc := Char.utf8Size_pos c
    rw [linesAfter] at h
    split at h
    · rcases List.mem_cons.mp h with rfl | h
      · exact Nat.lt_add_of_pos_right hc
      · exact Nat.lt_trans (Nat.lt_add_of_pos_right hc) (ih h)
    · exact Nat.lt_trans (Nat.lt_add_of_pos_right hc) (ih h)

/-- The lines of the table that start at or before a place. -/
def linesUpTo (place offset : Nat) (text : List Char) : List (Nat × List Char) :=
  (linesAfter offset text).takeWhile fun line => line.1 ≤ place

theorem linesUpTo_self (offset : Nat) (text : List Char) : linesUpTo offset offset text = [] := by
  rw [linesUpTo, List.takeWhile_eq_nil_iff]
  intro hlength
  simpa using lt_of_mem_linesAfter (List.getElem_mem hlength)

theorem linesUpTo_feed {place offset : Nat} (h : offset + 1 ≤ place) (text : List Char) :
    linesUpTo place offset ('\n' :: text) = (offset + 1, text) :: linesUpTo place (offset + 1) text := by
  have hsize : '\n'.utf8Size = 1 := rfl
  simp [linesUpTo, linesAfter, hsize, h]

theorem linesUpTo_plain {c : Char} (hc : c ≠ '\n') (place offset : Nat) (text : List Char) :
    linesUpTo place offset (c :: text) = linesUpTo place (offset + c.utf8Size) text := by
  simp [linesUpTo, linesAfter, hc]

/-- As many lines start in front of a place as there are line feeds, and the last of them starts behind
the last line feed. `started` is what stands already in the line that is open at the offset. -/
theorem linesUpTo_append {started text more : List Char} {start place : Nat} (hstarted : '\n' ∉ started)
    (hplace : place = start + byteLength (started ++ text)) :
    (linesUpTo place (start + byteLength started) (text ++ more)).length = text.count '\n' ∧
      ∀ line, line = (linesUpTo place (start + byteLength started) (text ++ more)).getLastD
          (start, started ++ (text ++ more)) → takeBytes (place - line.1) line.2 = lastLine (started ++ text) := by
  induction text generalizing started start with
  | nil =>
    subst hplace
    rw [List.append_nil, List.nil_append, linesUpTo_self]
    refine ⟨rfl, ?_⟩
    rintro line rfl
    rw [List.getLastD_nil, Nat.add_sub_cancel_left, takeBytes_byteLength_append, lastLine_of_not_mem hstarted]
  | cons c text ih =>
    by_cases hc : c = '\n'
    · subst hc
      have hsize : '\n'.utf8Size = 1 := rfl
      rw [byteLength_append, byteLength, hsize] at hplace
      have hlater := @ih [] (start + byteLength started + 1) (by simp) (by rw [List.nil_append]; omega)
      rw [List.cons_append, linesUpTo_feed (by omega), List.length_cons, List.count_cons_self, List.getLastD_cons,
        lastLine_append_cons]
      exact ⟨congrArg (· + 1) hlater.1, hlater.2⟩
    · have hlater := @ih (started ++ [c]) start (by simp [hstarted, Ne.symm hc]) (by simp [hplace])
      simp only [byteLength_append, byteLength, Nat.add_zero, List.append_assoc, List.singleton_append,
        ← Nat.add_assoc] at hlater
      rw [List.cons_append, linesUpTo_plain hc, List.count_cons_of_ne hc]
      exact hlater

theorem takeWhile_lines (text : List Char) (offset : Nat) :
    (ofChars text).lines.takeWhile (fun line => line.1 ≤ offset) = (0, text) :: linesUpTo offset 0 text := by
  simp [ofChars, linesUpTo]

theorem position_of_append (text more : List Char) :
    (ofChars (text ++ more)).position (byteLength text) = .behind text := by
  have hlines := @linesUpTo_append [] text more 0 (byteLength text) (by simp) (by simp)
  simp only [byteLength, List.nil_append, Nat.add_zero] at hlines
  unfold position
  dsimp only
  rw [takeWhile_lines, List.getLastD_cons, List.length_cons, hlines.1, hlines.2 _ rfl]
  rfl

/-! ## Every offset -/

theorem lt_length_takeWhile_iff {α : Type} {p : α → Bool} {l : List α}
    (h : l.Pairwise fun a b => p b = true → p a = true) {k : Nat} {a : α} (hk : l[k]? = some a) :
    p a = true ↔ k < (l.takeWhile p).length := by
  induction l generalizing k with
  | nil => cases hk
  | cons b l ih =>
    obtain ⟨hfirst, hlater⟩ := List.pairwise_cons.mp h
    by_cases hb : p b = true
    · rw [List.takeWhile_cons_of_pos hb, List.length_cons]
      cases k with
      | zero =>
        cases hk
        simp [hb]
      | succ k => rw [ih hlater hk, Nat.succ_lt_succ_iff]
    · rw [List.takeWhile_cons_of_neg hb]
      -- What fails at the first fails at all of them.
      have ha : p a ≠ true := by
        rcases List.mem_cons.mp (List.mem_of_getElem? hk) with rfl | ha
        · exact hb
        · exact fun ha' => hb (hfirst a ha ha')
      simp [ha]

theorem length_linesAfter (offset : Nat) (text : List Char) :
    (linesAfter offset text).length = text.count '\n' := by
  induction text generalizing offset with
  | nil => rfl
  | cons c text ih =>
    rw [linesAfter]
    by_cases hc : c = '\n'
    · rw [if_pos hc, List.length_cons, ih, hc, List.count_cons_self]
    · rw [if_neg hc, ih, List.count_cons_of_ne hc]

theorem pairwise_linesAfter (offset : Nat) (text : List Char) :
    (linesAfter offset text).Pairwise fun a b => a.1 < b.1 := by
  induction text generalizing offset with
  | nil => exact .nil
  | cons c text ih =>
    rw [linesAfter]
    split
    · exact .cons (fun _ hline => lt_of_mem_linesAfter hline) (ih _)
    · exact ih _

theorem left_of_mem_linesAfter {offset : Nat} {text : List Char} {line : Nat × List Char}
    (h : line ∈ linesAfter offset text) :
    line.1 + byteLength line.2 = offset + byteLength text ∧ line.2.length ≤ text.length := by
  induction text generalizing offset with
  | nil => cases h
  | cons c text ih =>
    have hlater (h : line ∈ linesAfter (offset + c.utf8Size) text) :
        line.1 + byteLength line.2 = offset + byteLength (c :: text) ∧ line.2.length ≤ (c :: text).length := by
      obtain ⟨hbytes, hlength⟩ := ih h
      exact ⟨by rw [hbytes, byteLength, Nat.add_assoc], Nat.le_succ_of_le hlength⟩
    rw [linesAfter] at h
    split at h
    · rcases List.mem_cons.mp h with rfl | h
      · exact ⟨by rw [byteLength, Nat.add_assoc], Nat.le_succ _⟩
      · exact hlater h
    · exact hlater h

theorem left_of_mem_lines {text : List Char} {line : Nat × List Char} (h : line ∈ (ofChars text).lines) :
    line.1 + byteLength line.2 = byteLength text ∧ line.2.length ≤ text.length := by
  rcases List.mem_cons.mp h with rfl | h
  · exact ⟨Nat.zero_add _, Nat.le_refl _⟩
  · have hleft := left_of_mem_linesAfter h
    rwa [Nat.zero_add] at hleft

theorem pairwise_lines (text : List Char) : (ofChars text).lines.Pairwise fun a b => a.1 < b.1 :=
  .cons (fun _ hline => lt_of_mem_linesAfter hline) (pairwise_linesAfter 0 text)

theorem getLastD_takeWhile_mem_lines (text : List Char) (offset : Nat) :
    ((ofChars text).lines.takeWhile fun line => line.1 ≤ offset).getLastD (0, []) ∈ (ofChars text).lines := by
  have hsub : ((0, text) :: linesUpTo offset 0 text).Sublist (ofChars text).lines :=
    (List.takeWhile_sublist _).cons_cons (0, text)
  rw [takeWhile_lines, List.getLastD_cons]
  exact hsub.subset List.getLastD_mem_cons

theorem position_of_byteLength_le {text : List Char} {offset : Nat} (h : byteLength text ≤ offset) :
    (ofChars text).position offset = (ofChars text).position (byteLength text) := by
  have hall {place : Nat} (hplace : byteLength text ≤ place) : (ofChars text).position place =
      ⟨(ofChars text).lines.length, ((ofChars text).lines.getLastD (0, [])).2.length⟩ := by
    have hupTo : (ofChars text).lines.takeWhile (fun line => line.1 ≤ place) = (ofChars text).lines := by
      rw [List.takeWhile_eq_self_iff]
      intro line hline
      have hleft := (left_of_mem_lines hline).1
      exact decide_eq_true (by omega)
    have hlast := (left_of_mem_lines (getLastD_takeWhile_mem_lines text place)).1
    unfold position
    dsimp only
    rw [hupTo] at hlast ⊢
    rw [takeBytes_of_byteLength_le (by omega)]
  rw [hall h, hall (Nat.le_refl _)]

/-- What the positions of an index say of the text it is made for. -/
structure Counts (index : LineIndex) (text : List Char) : Prop where
  /-- At a boundary, the line feeds in front of it and the characters behind the last of them. -/
  boundary : ∀ before after, text = before ++ after →
    index.position (byteLength before) = ⟨1 + before.count '\n', (lastLine before).length⟩
  pastEnd : ∀ offset, byteLength text ≤ offset → index.position offset = index.position (byteLength text)
  increasing : ∀ m n, Boundary text m → Boundary text n → m < n → (index.position m).Before (index.position n)
  injective : ∀ m n, Boundary text m → Boundary text n → index.position m = index.position n → m = n
  /-- The lines that have started at an offset come first in the table, as many as the position says. So
  any search for the place where they end finds its line. -/
  searched : ∀ offset k line, index.lines[k]? = some line → (line.1 ≤ offset ↔ k < (index.position offset).line)
  /-- Words of 32 bits hold the positions of a text with fewer lines and characters than they can count. -/
  fits : text.count '\n' + 1 < UInt32.size → text.length < UInt32.size →
    ∀ offset, (index.position offset).line < UInt32.size ∧ (index.position offset).column < UInt32.size

theorem position_before {text : List Char} {m n : Nat} (hm : Boundary text m) (hn : Boundary text n) (h : m < n) :
    ((ofChars text).position m).Before ((ofChars text).position n) := by
  obtain ⟨kept, cut, after, rfl, rfl, hcut⟩ := hm.split hn (Nat.le_of_lt h)
  have hend : n = byteLength (kept ++ cut) := by rw [byteLength_append]; omega
  have hne : cut ≠ [] := by
    rintro rfl
    simp only [byteLength] at hcut
    omega
  rw [hend, position_of_append, List.append_assoc, position_of_append]
  exact Position.behind_before_append kept hne

theorem position_le (text : List Char) (offset : Nat) :
    ((ofChars text).position offset).line ≤ text.count '\n' + 1 ∧
      ((ofChars text).position offset).column ≤ text.length := by
  have hlines : (ofChars text).lines.length = text.count '\n' + 1 := congrArg (· + 1) (length_linesAfter 0 text)
  have hlast := (left_of_mem_lines (getLastD_takeWhile_mem_lines text offset)).2
  unfold position
  exact ⟨hlines ▸ (List.takeWhile_sublist _).length_le, Nat.le_trans (length_takeBytes_le _ _) hlast⟩

theorem counts_ofChars (source : String) : (ofChars source.toList).Counts source.toList where
  boundary before after hsource := by
    rw [hsource, position_of_append, Position.behind, Nat.add_comm]
  pastEnd _ h := position_of_byteLength_le h
  increasing _ _ hm hn h := position_before hm hn h
  injective m n hm hn h := by
    rcases Nat.lt_trichotomy m n with hlt | heq | hlt
    · exact absurd h (position_before hm hn hlt).ne
    · exact heq
    · exact absurd h.symm (position_before hn hm hlt).ne
  searched offset k line hline := by
    have hstarted : (ofChars source.toList).lines.Pairwise fun a b => decide (b.1 ≤ offset) = true →
        decide (a.1 ≤ offset) = true :=
      (pairwise_lines source.toList).imp fun hlt => by simp only [decide_eq_true_eq]; omega
    exact decide_eq_true_iff.symm.trans (lt_length_takeWhile_iff hstarted hline)
  fits hlines hlength offset := by
    have hle := position_le source.toList offset
    omega

end LineIndex

end Nodeless
