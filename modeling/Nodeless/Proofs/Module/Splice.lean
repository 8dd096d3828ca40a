import Mathlib.Data.List.Nodup
import Nodeless.Module.Patch
import Nodeless.Proofs.Source.Boundary
import Nodeless.Proofs.Source.Span

/-!
# Splices

What a patched text is, said without an order of work: the source cut into pieces that stay and
pieces that are replaced. Of patches that overlap the first in their order is applied, and patches
whose spans keep clear of each other are all applied.
-/

namespace Nodeless

open Source

/-- `out` is the text `rest`, which starts at the byte `offset` of a source, with each patch in place
of exactly the bytes of its span and every other piece kept where it is. -/
inductive Splice : Nat → List Char → List Patch → List Char → Prop
  | done (offset : Nat) (rest : List Char) : Splice offset rest [] rest
  | patch {offset : Nat} {kept cut rest out : List Char} {p : Patch} {ps : List Patch}
      (start : p.span.start = offset + byteLength kept)
      (stop : p.span.stop = p.span.start + byteLength cut)
      (tail : Splice p.span.stop rest ps out) :
      Splice offset (kept ++ cut ++ rest) (p :: ps) (kept ++ p.text.toList ++ out)

namespace Patch

/-! ## In order and clear -/

theorem pairwise_le_sort (ps : List Patch) : (sort ps).Pairwise fun a b => a.span.le b.span :=
  List.pairwise_mergeSort (fun a b c => Span.le_trans a.span b.span c.span)
    (fun a b => Span.le_total a.span b.span) ps

theorem sort_perm (ps : List Patch) : (sort ps).Perm ps := List.mergeSort_perm ps _

def Apart (a b : Patch) : Prop := a.span.meets b.span = false

instance : Std.Symm Apart where
  symm a b h := by rw [Apart, Span.meets_comm]; exact h

def Clear (ps : List Patch) : Prop := ps.Pairwise Apart

theorem Clear.perm {ps qs : List Patch} (h : Clear ps) (hperm : ps.Perm qs) : Clear qs :=
  List.Pairwise.perm h hperm fun hab => Std.Symm.symm _ _ hab

theorem Clear.nodup_spans {ps : List Patch} (h : Clear ps) : (ps.map Patch.span).Nodup :=
  List.pairwise_map.mpr (h.imp fun hapart => ((Span.meets_eq_false_iff _ _).mp hapart).1)

theorem sort_eq_of_perm {ps qs : List Patch} (h : (ps.map Patch.span).Nodup) (hperm : ps.Perm qs) :
    sort ps = sort qs := by
  have hsorts : (sort ps).Perm (sort qs) := (sort_perm ps).trans (hperm.trans (sort_perm qs).symm)
  refine hsorts.eq_of_pairwise ?_ (pairwise_le_sort ps) (pairwise_le_sort qs)
  intro a b ha hb hab hba
  have hmem (p : Patch) (hp : p ∈ sort ps) : p ∈ ps := (sort_perm ps).mem_iff.mp hp
  exact List.inj_on_of_nodup_map h (hmem a ha) (hmem b (hsorts.mem_iff.mpr hb)) (Span.le_antisymm _ _ hab hba)

/-! ## Which patches are applied -/

/-- Those that are applied to a source of `length` bytes when `taken` have been: each that ends within
the source and overlaps none taken before it. -/
def takeClear (length : Nat) (taken : List Patch) : List Patch → List Patch
  | [] => []
  | p :: ps =>
    if p.span.stop ≤ length ∧ ∀ a ∈ taken, a.span.overlaps p.span = false then
      p :: takeClear length (taken ++ [p]) ps
    else takeClear length taken ps

theorem takeClear_eq_self {length : Nat} {taken ps : List Patch} (hstop : ∀ p ∈ ps, p.span.stop ≤ length)
    (hclear : (taken ++ ps).Pairwise fun a b => a.span.overlaps b.span = false) : takeClear length taken ps = ps := by
  induction ps generalizing taken with
  | nil => rfl
  | cons p ps ih =>
    have hp : ∀ a ∈ taken, a.span.overlaps p.span = false := fun a ha =>
      (List.pairwise_append.mp hclear).2.2 a ha p List.mem_cons_self
    rw [takeClear, if_pos ⟨hstop p List.mem_cons_self, hp⟩]
    rw [List.append_cons] at hclear
    rw [ih (fun q hq => hstop q (List.mem_cons_of_mem _ hq)) hclear]

/-- The patches applied so far end at the cursor or before it, and one of them at it. -/
structure Passed (taken : List Patch) (cursor : Nat) : Prop where
  stop_le : ∀ a ∈ taken, a.span.stop ≤ cursor
  reached : cursor = 0 ∨ ∃ a ∈ taken, a.span.stop = cursor

theorem Passed.clear_iff {taken : List Patch} {cursor : Nat} (h : Passed taken cursor) {p : Patch}
    (hp : p.span.Forward) (hforward : ∀ a ∈ taken, a.span.Forward) (hle : ∀ a ∈ taken, a.span.le p.span) :
    (∀ a ∈ taken, a.span.overlaps p.span = false) ↔ cursor ≤ p.span.start := by
  constructor
  · intro hclear
    rcases h.reached with hzero | ⟨a, ha, hstop⟩
    · omega
    · rw [← hstop]
      exact (Span.overlaps_eq_false_iff (hforward a ha) hp (hle a ha)).mp (hclear a ha)
  · intro hcursor a ha
    exact (Span.overlaps_eq_false_iff (hforward a ha) hp (hle a ha)).mpr (Nat.le_trans (h.stop_le a ha) hcursor)

theorem Passed.snoc {taken : List Patch} {cursor : Nat} (h : Passed taken cursor) {p : Patch}
    (hp : p.span.Forward) (hstart : cursor ≤ p.span.start) : Passed (taken ++ [p]) p.span.stop := by
  unfold Span.Forward at hp
  refine ⟨?_, .inr ⟨p, by simp, rfl⟩⟩
  intro a ha
  rcases List.mem_append.mp ha with ha | ha
  · have := h.stop_le a ha
    omega
  · obtain rfl := List.mem_singleton.mp ha
    exact Nat.le_refl _

/-! ## What is left of the source -/

/-- The loop that renders compares a start with its cursor. In the order of the spans that tells
whether a patch overlaps one applied before it. -/
theorem splice_renderFrom (done rest : List Char) (taken ps : List Patch)
    (hforward : ∀ p ∈ taken ++ ps, p.span.Forward)
    (hbounds : ∀ p ∈ ps, p.span.stop ≤ byteLength (done ++ rest) →
      Boundary (done ++ rest) p.span.start ∧ Boundary (done ++ rest) p.span.stop)
    (hpassed : Passed taken (byteLength done))
    (hsorted : (taken ++ ps).Pairwise fun a b => a.span.le b.span) :
    Splice (byteLength done) rest (takeClear (byteLength (done ++ rest)) taken ps)
      (renderFrom (byteLength (done ++ rest)) (byteLength done) rest ps) := by
  induction ps generalizing done rest taken with
  | nil => exact .done _ _
  | cons p ps ih =>
    have hf : p.span.Forward := hforward p (by simp)
    have hiff := hpassed.clear_iff hf (fun a ha => hforward a (List.mem_append_left _ ha)) fun a ha =>
      (List.pairwise_append.mp hsorted).2.2 a ha p List.mem_cons_self
    rw [takeClear, renderFrom]
    by_cases happlied : p.span.stop ≤ byteLength (done ++ rest) ∧ byteLength done ≤ p.span.start
    · obtain ⟨hend, hc⟩ := happlied
      obtain ⟨hstart, hstop⟩ := hbounds p List.mem_cons_self hend
      rw [if_pos ⟨hend, hiff.mpr hc⟩, if_neg (by omega)]
      have hle : p.span.start ≤ p.span.stop := hf
      -- The source falls into what the cursor has passed, what stays, what goes, and what follows.
      obtain ⟨kept, cut, after, rfl, hkept, hcut⟩ :=
        (hstart.of_append hc).split (hstop.of_append (Nat.le_trans hc hle)) (Nat.sub_le_sub_right hle _)
      have hcursor : byteLength (done ++ kept ++ cut) = p.span.stop := by
        simp only [byteLength_append]
        omega
      have hsource : done ++ kept ++ cut ++ after = done ++ (kept ++ cut ++ after) := by
        simp only [List.append_assoc]
      have htail := ih (done ++ kept ++ cut) after (taken ++ [p])
        (by rw [← List.append_cons]; exact hforward)
        (fun q hq => by rw [hsource]; exact hbounds q (List.mem_cons_of_mem _ hq))
        (by rw [hcursor]; exact hpassed.snoc hf hc)
        (by rw [← List.append_cons]; exact hsorted)
      rw [hcursor, hsource] at htail
      have htake : takeBytes (p.span.start - byteLength done) (kept ++ cut ++ after) = kept := by
        rw [← hkept, List.append_assoc, takeBytes_byteLength_append]
      have hdrop : dropBytes (p.span.stop - byteLength done) (kept ++ cut ++ after) = after := by
        have hbytes : p.span.stop - byteLength done = byteLength (kept ++ cut) := by
          rw [byteLength_append]
          omega
        rw [hbytes, dropBytes_byteLength_append]
      rw [htake, hdrop]
      exact .patch (by omega) (by omega) htail
    · rw [if_neg fun h => happlied ⟨h.1, hiff.mp h.2⟩, if_pos (by omega)]
      have hsub : (taken ++ ps).Sublist (taken ++ p :: ps) := (List.sublist_cons_self p ps).append_left taken
      exact ih done rest taken (fun q hq => hforward q (hsub.subset hq))
        (fun q hq => hbounds q (List.mem_cons_of_mem _ hq)) hpassed (hsorted.sublist hsub)

theorem splice_render_takeClear (source : String) (ps : List Patch) (hforward : ∀ p ∈ ps, p.span.Forward)
    (hbounds : ∀ p ∈ ps, p.span.stop ≤ byteLength source.toList →
      Boundary source.toList p.span.start ∧ Boundary source.toList p.span.stop) :
    Splice 0 source.toList (takeClear (byteLength source.toList) [] (sort ps)) (render source ps).toList := by
  have hmem (p : Patch) (hp : p ∈ sort ps) : p ∈ ps := (sort_perm ps).mem_iff.mp hp
  rw [render, String.toList_ofList]
  exact splice_renderFrom [] source.toList [] (sort ps) (fun p hp => hforward p (hmem p hp))
    (fun p hp => hbounds p (hmem p hp)) ⟨by simp, .inl rfl⟩ (pairwise_le_sort ps)

theorem splice_render (source : String) (ps : List Patch) (hclear : Clear ps)
    (hforward : ∀ p ∈ ps, p.span.Forward)
    (hbounds : ∀ p ∈ ps, Boundary source.toList p.span.start ∧ Boundary source.toList p.span.stop) :
    Splice 0 source.toList (sort ps) (render source ps).toList := by
  have hall : takeClear (byteLength source.toList) [] (sort ps) = sort ps := by
    apply takeClear_eq_self
    · intro p hp
      exact boundary_le (hbounds p ((sort_perm ps).mem_iff.mp hp)).2
    · exact (hclear.perm (sort_perm ps).symm).imp fun hapart => ((Span.meets_eq_false_iff _ _).mp hapart).2
  have h := splice_render_takeClear source ps hforward fun p hp _ => hbounds p hp
  rwa [hall] at h

theorem render_eq_of_perm (source : String) {ps qs : List Patch} (h : (ps.map Patch.span).Nodup)
    (hperm : ps.Perm qs) : render source ps = render source qs := by
  rw [render, render, sort_eq_of_perm h hperm]

end Patch

end Nodeless
