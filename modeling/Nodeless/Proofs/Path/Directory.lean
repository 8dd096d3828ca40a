import Nodeless.Proofs.Path.Relative

/-!
# Files and their directories

The directory of a path has the parts of the path but the last. So the way to a file is the way to its
directory and then one name more, unless the way ends where it starts or further up.
-/

namespace Nodeless.Path

/-! ## One name more -/

/-- The name in a directory. The empty text stands for the directory where the way starts. -/
def beneath (dir : String) (name : Part) : String :=
  if dir = "" then String.ofList name else dir ++ "/" ++ String.ofList name

theorem ofList_joinParts_concat {ps : List Part} (h : ∀ part ∈ ps, part ≠ []) (last : Part) :
    String.ofList (joinParts (ps ++ [last])) = beneath (String.ofList (joinParts ps)) last := by
  have hempty := ofList_joinParts_eq_empty_iff h
  unfold beneath
  by_cases hps : ps = []
  · rw [if_pos (hempty.mpr hps), hps]
    simp [joinParts]
  · rw [if_neg fun heq => hps (hempty.mp heq), joinParts_concat hps, String.ofList_append, String.ofList_cons,
      String.append_assoc]
    rfl

theorem dropCommon_concat {ps parents above rest : List Part} {last : Part}
    (h : dropCommon ps parents = (above, rest)) (hnot : ¬parents ++ [last] <+: ps) :
    dropCommon ps (parents ++ [last]) = (above, rest ++ [last]) := by
  fun_induction dropCommon ps parents with
  | case1 ps part parents ih =>
    rw [List.cons_append, dropCommon, if_pos rfl]
    exact ih h fun hprefix => hnot (List.cons_prefix_cons.mpr ⟨rfl, hprefix⟩)
  | case2 part ps other parents hne =>
    cases h
    rw [List.cons_append, dropCommon, if_neg hne]
  | case3 ps parents hnil =>
    obtain ⟨rfl, rfl⟩ := Prod.mk.inj h
    cases ps with
    | nil => simp [dropCommon]
    | cons part ps =>
      cases parents with
      | nil =>
        have hne : part ≠ last := by
          rintro rfl
          exact hnot (by simp)
        rw [List.nil_append, dropCommon, if_neg hne]
      | cons other parents => exact (hnil _ _ _ _ rfl rfl).elim

theorem route_concat {ps parents : List Part} {last : Part} (hnames : AreNames parents)
    (hnot : ¬parents ++ [last] <+: ps) :
    String.ofList (route ps (parents ++ [last])) = beneath (String.ofList (route ps parents)) last := by
  obtain ⟨above, rest, hdrop⟩ : ∃ above rest, dropCommon ps parents = (above, rest) := ⟨_, _, rfl⟩
  have hsteps := upsThenNames_dropCommon hdrop hnames
  unfold route
  rw [hdrop, dropCommon_concat hdrop hnot]
  dsimp only
  rw [← List.append_assoc]
  exact ofList_joinParts_concat (fun part hpart => (hsteps.plain part hpart).1) last

/-! ## Directories -/

/-- What the directory of a path is: its text is normalized, on the root of the path, and leads through
all parts of the path but the last. -/
structure IsDirectoryOf (dir path : String) : Prop where
  normalized : normalize dir = dir
  root_eq : (splitRoot dir.toList).1 = (splitRoot path.toList).1
  components_eq : components dir = (components path).dropLast
  text_eq : dir = String.ofList (written (splitRoot path.toList).1 (components path).dropLast)

theorem Stands.isDirectoryOf_dirname {path : String} {root : Root} {parents : List Part} {last : Part}
    (h : Stands path.toList root (parents ++ [last])) : IsDirectoryOf (dirname path) path := by
  have hnames : AreNames parents := fun part hpart => h.names part (List.mem_append_left _ hpart)
  have hdir : Stands (dirname path).toList root parents := by
    rw [h.dirname_eq, String.toList_ofList]
    exact stands_written h.real hnames
  have hparents : (components path).dropLast = parents := by
    rw [components, h.parts_eq, List.dropLast_concat]
  refine ⟨?_, hdir.root_eq.trans h.root_eq.symm, hdir.parts_eq.trans hparents.symm, ?_⟩
  · rw [hdir.normalize_eq, h.dirname_eq]
  · rw [h.root_eq, hparents, h.dirname_eq]

/-- The directory of a path that has parts is written with all of them but the last, down to the bare
root. On one root, the way to a file that the start does not lie in or below is the way to the directory
of the file, and then the last part of the file. -/
theorem relative_through_dirname {start file : String} (hstart : Anchored start.toList)
    (hfile : Anchored file.toList) (hne : components file ≠ []) :
    IsDirectoryOf (dirname file) file ∧
    ((components file).dropLast = [] → dirname file = String.ofList (splitRoot file.toList).1.chars) ∧
    ((splitRoot start.toList).1.same (splitRoot file.toList).1 = true →
      ¬components file <+: components start →
      relative start file = beneath (relative start (dirname file)) ((components file).getLast hne)) := by
  obtain ⟨a, ps, hps⟩ := hstart.exists_stands
  obtain ⟨b, qs, hqs⟩ := hfile.exists_stands
  have hparts : components file = qs := hqs.parts_eq
  obtain ⟨parents, last, rfl⟩ := List.eq_nil_or_concat' qs |>.resolve_left (hparts ▸ hne)
  have hdir := hqs.isDirectoryOf_dirname
  refine ⟨hdir, ?_, ?_⟩
  · intro hroot
    rw [hdir.text_eq, hroot, written, joinParts]
    simp
  · intro hsame hnot
    have hsameDir : (splitRoot start.toList).1.same (splitRoot (dirname file).toList).1 = true := by
      rwa [hdir.root_eq]
    have hparents : AreNames parents := fun part hpart => hqs.names part (List.mem_append_left _ hpart)
    rw [relative_of_same hsame, relative_of_same hsameDir, hdir.components_eq]
    simp only [hparts, List.dropLast_concat, List.getLast_append_singleton]
    exact route_concat hparents (by rwa [← hparts])

/-- A file on a drive that is also written in the other case, beside the start and right below the root. -/
theorem relative_through_dirname_drive :
    Anchored "c:\\work\\src".toList ∧ Anchored "C:/lib/..//x.js".toList ∧ components "C:/lib/..//x.js" ≠ [] ∧
    dirname "C:/lib/..//x.js" = "C:/" ∧ relative "c:\\work\\src" "C:/lib/..//x.js" = "../../x.js" ∧
    relative "c:\\work\\src" "C:/lib/..//x.js" = beneath (relative "c:\\work\\src" "C:/") "x.js".toList := by
  have hstart : Anchored "c:\\work\\src".toList := .drive (by decide) (by decide) _
  have hfile : Anchored "C:/lib/..//x.js".toList := .drive (by decide) (by decide) _
  have hne : components "C:/lib/..//x.js" ≠ [] := by decide
  obtain ⟨-, hroot, hway⟩ := relative_through_dirname hstart hfile hne
  have hdir : dirname "C:/lib/..//x.js" = "C:/" := (hroot (by decide)).trans (by decide)
  have hrelative := hway (by decide) (by decide)
  rw [hdir, show (components "C:/lib/..//x.js").getLast (by decide) = "x.js".toList by decide] at hrelative
  exact ⟨hstart, hfile, hne, hdir, by decide, hrelative⟩

end Nodeless.Path
