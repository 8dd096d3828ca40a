import Nodeless.Proofs.Module.Splice

/-!
# Patches that overlap

Patches of a text may overlap, repeat a span or end past the text. Rendering takes them by their
spans, those of one span as they were added, and leaves out each that overlaps one taken before it.
Patches at one place are no harm to each other.
-/

namespace Nodeless.Patch

open Source

/-! ## The order -/

theorem filter_sort (ps : List Patch) (s : Span) :
    (sort ps).filter (fun p => p.span = s) = ps.filter fun p => p.span = s := by
  have hsorted : (ps.filter fun p => p.span = s).Pairwise fun a b => a.span.le b.span := by
    refine List.pairwise_of_forall_mem_list ?_
    intro a ha b hb
    have hspan : a.span = b.span :=
      (of_decide_eq_true (List.mem_filter.mp ha).2).trans (of_decide_eq_true (List.mem_filter.mp hb).2).symm
    rw [hspan, Span.le_iff]
    exact .inr ⟨rfl, Nat.le_refl _⟩
  have hsub : (ps.filter fun p => p.span = s).Sublist (sort ps) :=
    List.sublist_mergeSort (fun a b c => Span.le_trans a.span b.span c.span)
      (fun a b => Span.le_total a.span b.span) hsorted List.filter_sublist
  have hfiltered := hsub.filter fun p => p.span = s
  simp only [List.filter_filter, Bool.and_self] at hfiltered
  exact (hfiltered.eq_of_length ((sort_perm ps).filter _).length_eq.symm).symm

/-! ## What is taken -/

theorem stop_le_of_mem_takeClear {length : Nat} {taken ps : List Patch} :
    ∀ p ∈ takeClear length taken ps, p.span.stop ≤ length := by
  induction ps generalizing taken with
  | nil => simp [takeClear]
  | cons p ps ih =>
    unfold takeClear
    split
    · rename_i htaken
      exact List.forall_mem_cons.mpr ⟨htaken.1, ih⟩
    · exact ih

theorem pairwise_takeClear (length : Nat) {taken : List Patch} (ps : List Patch)
    (h : taken.Pairwise fun a b => a.span.overlaps b.span = false) :
    (taken ++ takeClear length taken ps).Pairwise fun a b => a.span.overlaps b.span = false := by
  induction ps generalizing taken with
  | nil => rwa [takeClear, List.append_nil]
  | cons p ps ih =>
    unfold takeClear
    split
    · rename_i htaken
      rw [List.append_cons]
      refine ih (List.pairwise_append.mpr ⟨h, List.pairwise_singleton _ _, ?_⟩)
      intro a ha b hb
      rw [List.mem_singleton.mp hb]
      exact htaken.2 a ha
    · exact ih h

theorem filter_takeClear {length : Nat} {taken ps : List Patch} {place : Span} (hstop : place.stop ≤ length)
    (hclear : ∀ a ∈ taken ++ takeClear length taken ps, a.span.overlaps place = false) :
    (takeClear length taken ps).filter (fun p => p.span = place) = ps.filter fun p => p.span = place := by
  induction ps generalizing taken with
  | nil => rfl
  | cons p ps ih =>
    rw [takeClear] at hclear ⊢
    by_cases hp : p.span = place
    · have htaken : p.span.stop ≤ length ∧ ∀ a ∈ taken, a.span.overlaps p.span = false := by
        rw [hp]
        exact ⟨hstop, fun a ha => hclear a (List.mem_append_left _ ha)⟩
      rw [if_pos htaken] at hclear ⊢
      rw [List.append_cons] at hclear
      simp only [List.filter_cons, hp, decide_true, if_true, ih hclear]
    · split at hclear
      · rename_i htaken
        rw [List.append_cons] at hclear
        simp only [if_pos htaken, List.filter_cons, hp, decide_false, Bool.false_eq_true, if_false, ih hclear]
      · rename_i htaken
        simp only [if_neg htaken, List.filter_cons, hp, decide_false, Bool.false_eq_true, if_false, ih hclear]

theorem filter_takeClear_of_mem {length : Nat} {ps : List Patch} {p : Patch} (hp : p ∈ takeClear length [] ps)
    (hplace : p.span.isEmpty = true) :
    (takeClear length [] ps).filter (fun q => q.span = p.span) = ps.filter fun q => q.span = p.span := by
  have hself : p.span.overlaps p.span = false := by
    unfold Span.overlaps
    rw [hplace]
  have hpairs : ([] ++ takeClear length [] ps).Pairwise fun a b : Patch => a.span.overlaps b.span = false :=
    pairwise_takeClear length ps .nil
  refine filter_takeClear (stop_le_of_mem_takeClear p hp) ?_
  intro a ha
  obtain ⟨before, after, hsplit⟩ := List.append_of_mem hp
  rw [List.nil_append, hsplit] at hpairs ha
  obtain ⟨-, hafter, hbefore⟩ := List.pairwise_append.mp hpairs
  rcases List.mem_append.mp ha with ha | ha
  · exact hbefore a ha p List.mem_cons_self
  · rcases List.mem_cons.mp ha with rfl | ha
    · exact hself
    · rw [Span.overlaps_comm]
      exact (List.pairwise_cons.mp hafter).1 a ha

/-! ## Rendering -/

/-- Whatever the patches, rendering takes them in the order of their spans, and those of one span as
they were added. It applies each that ends within the source and overlaps none applied before it, and
keeps every other byte. Of the patches at one place all are applied or none is, and where no two
spans are equal it does not matter in what order the patches were added. -/
theorem render_takes_clear (source : String) (ps : List Patch) (hforward : ∀ p ∈ ps, p.span.Forward)
    (hbounds : ∀ p ∈ ps, p.span.stop ≤ byteLength source.toList →
      Boundary source.toList p.span.start ∧ Boundary source.toList p.span.stop) :
    let order := sort ps
    let taken := takeClear (byteLength source.toList) [] order
    (order.Perm ps ∧ (order.Pairwise fun a b => a.span.le b.span) ∧
      ∀ s, (order.filter fun p => p.span = s) = ps.filter fun p => p.span = s) ∧
    Splice 0 source.toList taken (render source ps).toList ∧
    (∀ p ∈ taken, p.span.isEmpty = true →
      (taken.filter fun q => q.span = p.span) = ps.filter fun q => q.span = p.span) ∧
    ((ps.map Patch.span).Nodup → ∀ qs, qs.Perm ps → render source qs = render source ps) := by
  intro order taken
  refine ⟨⟨sort_perm ps, pairwise_le_sort ps, filter_sort ps⟩, ?_, ?_, ?_⟩
  · exact splice_render_takeClear source ps hforward hbounds
  · intro p hp hplace
    rw [filter_takeClear_of_mem hp hplace, filter_sort]
  · intro hspans qs hperm
    exact (render_eq_of_perm source hspans hperm.symm).symm

/-- Ranges that share bytes, one of them twice, places at an edge and inside, and a patch that ends
past the source. -/
def crowded : List Patch :=
  [⟨⟨3, 5⟩, "late"⟩, ⟨⟨1, 4⟩, "X"⟩, ⟨⟨3, 3⟩, "!"⟩, ⟨⟨1, 1⟩, "<"⟩, ⟨⟨4, 4⟩, ">"⟩,
    ⟨⟨1, 4⟩, "Y"⟩, ⟨⟨1, 1⟩, "("⟩, ⟨⟨5, 7⟩, "past"⟩, ⟨⟨4, 4⟩, ")"⟩]

/-- Those of them without the second patch of each span. -/
def crowdedOnce : List Patch :=
  [⟨⟨3, 5⟩, "late"⟩, ⟨⟨1, 4⟩, "X"⟩, ⟨⟨3, 3⟩, "!"⟩, ⟨⟨1, 1⟩, "<"⟩, ⟨⟨4, 4⟩, ">"⟩,
    ⟨⟨5, 7⟩, "past"⟩]

theorem render_takes_clear_crowded :
    let fits (p : Patch) : Prop := p.span.stop ≤ byteLength "aé-bc".toList →
      Boundary "aé-bc".toList p.span.start ∧ Boundary "aé-bc".toList p.span.stop
    (∀ p ∈ crowded, p.span.Forward ∧ fits p) ∧
    takeClear (byteLength "aé-bc".toList) [] (sort crowded) =
      [⟨⟨1, 1⟩, "<"⟩, ⟨⟨1, 1⟩, "("⟩, ⟨⟨1, 4⟩, "X"⟩, ⟨⟨4, 4⟩, ">"⟩,
        ⟨⟨4, 4⟩, ")"⟩] ∧
    render "aé-bc" crowded = "a<(X>)bc" ∧
    Splice 0 "aé-bc".toList (takeClear (byteLength "aé-bc".toList) [] (sort crowded))
      (render "aé-bc" crowded).toList ∧
    (∀ p ∈ crowdedOnce, p.span.Forward ∧ fits p) ∧ (crowdedOnce.map Patch.span).Nodup ∧
    render "aé-bc" crowdedOnce.reverse = render "aé-bc" crowdedOnce := by
  intro fits
  have hforward : ∀ p ∈ crowded, p.span.Forward := by decide
  have hbounds : ∀ p ∈ crowded, fits p := by decide +kernel
  have hforwardOnce : ∀ p ∈ crowdedOnce, p.span.Forward := by decide
  have hboundsOnce : ∀ p ∈ crowdedOnce, fits p := by decide +kernel
  have hspans : (crowdedOnce.map Patch.span).Nodup := by decide
  have hsort : sort crowded =
      [⟨⟨1, 1⟩, "<"⟩, ⟨⟨1, 1⟩, "("⟩, ⟨⟨1, 4⟩, "X"⟩, ⟨⟨1, 4⟩, "Y"⟩, ⟨⟨3, 3⟩, "!"⟩,
        ⟨⟨3, 5⟩, "late"⟩, ⟨⟨4, 4⟩, ">"⟩, ⟨⟨4, 4⟩, ")"⟩,
        ⟨⟨5, 7⟩, "past"⟩] := by
    simp [sort, crowded, List.mergeSort, List.MergeSort.Internal.splitInTwo, Span.compare, Nat.compare_eq_ite_lt,
      Ordering.then]
  have htaken : takeClear (byteLength "aé-bc".toList) [] (sort crowded) =
      [⟨⟨1, 1⟩, "<"⟩, ⟨⟨1, 1⟩, "("⟩, ⟨⟨1, 4⟩, "X"⟩, ⟨⟨4, 4⟩, ">"⟩,
        ⟨⟨4, 4⟩, ")"⟩] := by
    rw [hsort]
    decide +kernel
  have hrender : render "aé-bc" crowded = "a<(X>)bc" := by
    unfold render
    rw [hsort]
    decide +kernel
  obtain ⟨-, hsplice, -, -⟩ := render_takes_clear "aé-bc" crowded hforward hbounds
  obtain ⟨-, -, -, horder⟩ := render_takes_clear "aé-bc" crowdedOnce hforwardOnce hboundsOnce
  exact ⟨fun p hp => ⟨hforward p hp, hbounds p hp⟩, htaken, hrender, hsplice,
    fun p hp => ⟨hforwardOnce p hp, hboundsOnce p hp⟩, hspans, horder hspans _ (List.reverse_perm crowdedOnce)⟩

end Nodeless.Patch
