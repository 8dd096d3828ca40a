import Mathlib.Data.List.Basic
import Nodeless.Command.Plan
import Nodeless.Proofs.Path.Rooted

/-!
# Where code is written

A module below the root is written to the same place below the directory that was asked for, unless
the first of its parts looks like a step up or like a drive. Then it is taken to lie outside, only its
file name is kept, and another module may have that name.
-/

namespace Nodeless

/-! ## Parts of file paths -/

namespace FilePath

theorem splitSlashes_eq (cs : List Char) : splitSlashes cs = cs.splitOn '/' := by
  induction cs with
  | nil => rfl
  | cons c cs ih =>
    obtain ⟨part, parts, hcs⟩ := List.exists_cons_of_ne_nil (List.splitOn_ne_nil '/' cs)
    rw [splitSlashes, ih, List.splitOn_cons_eq_if_modifyHead, hcs]
    by_cases hc : c = '/' <;> simp [hc]

end FilePath

namespace Path

theorem splitSlashes_joinParts {ps : List Part} (h : AreNames ps) (hne : ps ≠ []) :
    FilePath.splitSlashes (joinParts ps) = ps := by
  rw [FilePath.splitSlashes_eq]
  exact List.splitOn_intercalate '/' (fun part hpart => (h part hpart).not_mem_slash) hne

end Path

namespace FilePath

open Nodeless.Path (Part IsName AreNames)

def partsOf (cs : List Char) : List (List Char) := (splitSlashes cs).filter fun part => part ≠ [] ∧ part ≠ ['.']

theorem parts_eq (path : String) : parts path = (partsOf path.toList).map String.ofList := rfl

theorem partsOf_append_slash (a b : List Char) : partsOf (a ++ '/' :: b) = partsOf a ++ partsOf b := by
  simp only [partsOf, splitSlashes_eq, List.splitOn_append_cons_self, List.filter_append]

theorem partsOf_of_isName {name : Part} (h : IsName name) : partsOf name = [name] := by
  rw [partsOf, splitSlashes_eq, List.splitOn_eq_singleton h.not_mem_slash]
  simp [h.ne_nil, h.ne_dot]

theorem isAbsolute_of_isName {name : Part} (h : IsName name) : isAbsolute (String.ofList name) = false := by
  obtain ⟨c, cs, rfl⟩ := List.exists_cons_of_ne_nil h.ne_nil
  have hc : c ≠ '/' := fun heq => h.not_mem_slash (by simp [heq])
  simp [isAbsolute, hc]

theorem parts_join (path : String) {name : Part} (h : IsName name) :
    parts (join path (String.ofList name)) = parts path ++ [String.ofList name] := by
  have hcut (front : List Char) : partsOf (front ++ '/' :: name) = partsOf front ++ [name] := by
    rw [partsOf_append_slash, partsOf_of_isName h]
  unfold join
  rw [isAbsolute_of_isName h]
  simp only [Bool.false_eq_true, if_false, parts_eq]
  -- A slash is put in between, unless the path is empty or ends in one.
  split
  · rename_i hend
    rw [String.toList_append, String.toList_ofList]
    rcases Bool.or_eq_true_iff.mp hend with hempty | hslash
    · rw [String.isEmpty_iff.mp hempty, String.toList_empty, List.nil_append, partsOf_of_isName h]
      rfl
    · obtain ⟨front, hfront⟩ := List.getLast?_eq_some_iff.mp (of_decide_eq_true hslash)
      have hdrop : partsOf (front ++ ['/']) = partsOf front := by
        rw [partsOf_append_slash, show partsOf [] = [] from rfl, List.append_nil]
      rw [hfront, hdrop, List.append_assoc, List.singleton_append, hcut, List.map_append]
      rfl
  · rw [String.toList_append, String.toList_append, String.toList_ofList, List.append_assoc]
    rw [String.toList_ofList, List.singleton_append, hcut, List.map_append]
    rfl

theorem isAbsolute_join (path : String) {name : Part} (h : IsName name) :
    isAbsolute (join path (String.ofList name)) = isAbsolute path := by
  unfold join
  rw [isAbsolute_of_isName h]
  simp only [Bool.false_eq_true, if_false]
  by_cases hempty : path = ""
  · subst hempty
    exact (isAbsolute_of_isName h).trans (by decide)
  · have hne : path.toList ≠ [] := fun hnil => hempty (String.toList_eq_nil_iff.mp hnil)
    obtain ⟨c, cs, hpath⟩ := List.exists_cons_of_ne_nil hne
    split <;> simp [isAbsolute, hpath]

variable {names : List Part}

theorem parts_foldl_join (path : String) (h : AreNames names) :
    parts ((names.map String.ofList).foldl join path) = parts path ++ names.map String.ofList := by
  induction names generalizing path with
  | nil => simp
  | cons name names ih =>
    obtain ⟨hname, hnames⟩ := List.forall_mem_cons.mp h
    rw [List.map_cons, List.foldl_cons, ih _ hnames, parts_join path hname, List.append_assoc, List.singleton_append]

theorem isAbsolute_foldl_join (path : String) (h : AreNames names) :
    isAbsolute ((names.map String.ofList).foldl join path) = isAbsolute path := by
  induction names generalizing path with
  | nil => rfl
  | cons name names ih =>
    obtain ⟨hname, hnames⟩ := List.forall_mem_cons.mp h
    rw [List.map_cons, List.foldl_cons, ih _ hnames, isAbsolute_join path hname]

end FilePath

/-! ## Below a root -/

namespace Path

/-- The path leads from the root strictly down, through the names. -/
structure LiesBelow (root path : String) (names : List Part) : Prop where
  same : (splitRoot root.toList).1.same (splitRoot path.toList).1 = true
  parts_eq : parts (splitRoot path.toList).2 = parts (splitRoot root.toList).2 ++ names
  ne_nil : names ≠ []
  down : up ∉ names

variable {root path : String} {names : List Part}

theorem LiesBelow.areNames (h : LiesBelow root path names) : AreNames names := by
  intro name hname
  have hpart : name ∈ parts (splitRoot path.toList).2 := by
    rw [h.parts_eq]
    exact List.mem_append_right _ hname
  exact (isName_of_mem_parts hpart).resolve_left fun hup => h.down (hup.1 ▸ hname)

theorem LiesBelow.relative_eq (h : LiesBelow root path names) :
    relative root path = String.ofList (joinParts names) := by
  have hcommon := dropCommon_append (parts (splitRoot root.toList).2) [] names
  rw [List.append_nil] at hcommon
  unfold relative
  dsimp only
  rw [if_pos h.same, h.parts_eq, hcommon]
  rfl

end Path

/-! ## Where the code lands -/

namespace Request

open Nodeless.Path (Part LiesBelow AreNames joinParts)

/-- A name that reads like a step up in front of a relative path, or like a drive. -/
def looksOutward (name : Part) : Bool :=
  ['.', '.'].isPrefixOf name || name.head?.any Char.isAlpha && name[1]? = some ':'

/-- The names that are left of the names of a module below the root. -/
def landing (names : List Part) : List Part :=
  if names.head?.any looksOutward then names.getLast?.toList else names

theorem leadsOut_of_not_separator {c : Char} (h : Path.isSeparator c = false) (cs : List Char) :
    leadsOut (String.ofList (c :: cs)) = looksOutward (c :: cs) := by
  have hrooted : Path.rooted (c :: cs) = (c.isAlpha && cs.head? = some ':') := by
    unfold Path.rooted Path.splitRoot
    cases hdrive : c.isAlpha && decide (cs.head? = some ':') <;> simp [hdrive, h]
  unfold leadsOut looksOutward Path.isAbsolute
  rw [String.toList_ofList, hrooted]
  simp [List.head?_eq_getElem?]

theorem looksOutward_append_slash {name : Part} (hne : name ≠ []) (more : List Char) :
    looksOutward (name ++ '/' :: more) = looksOutward name := by
  rcases name with _ | ⟨c, _ | ⟨d, name⟩⟩
  · exact absurd rfl hne
  · simp [looksOutward, List.isPrefixOf]
  · simp [looksOutward, List.isPrefixOf]

/-- The text of a relative path leads out only by its first name. -/
theorem leadsOut_joinParts {names : List Part} (h : AreNames names) (hne : names ≠ []) :
    leadsOut (String.ofList (joinParts names)) = names.head?.any looksOutward := by
  obtain ⟨first, rest, rfl⟩ := List.exists_cons_of_ne_nil hne
  have hfirst := h first List.mem_cons_self
  have hcut : leadsOut (String.ofList (joinParts (first :: rest))) = looksOutward (joinParts (first :: rest)) := by
    obtain ⟨c, cs, hcs⟩ := List.exists_cons_of_ne_nil hfirst.ne_nil
    have hjoin : ∃ more, joinParts (first :: rest) = c :: more := by
      cases rest with
      | nil => exact ⟨cs, by simp [joinParts, hcs]⟩
      | cons next rest => exact ⟨_, by rw [Path.joinParts_cons, hcs]; rfl⟩
    obtain ⟨more, hmore⟩ := hjoin
    rw [hmore]
    exact leadsOut_of_not_separator (hfirst.unsplit c (by simp [hcs])) more
  rw [hcut]
  cases rest with
  | nil => simp [joinParts]
  | cons next rest => rw [Path.joinParts_cons, looksOutward_append_slash hfirst.ne_nil]; rfl

theorem target_eq_foldl (outDir : String) {root path : String} {names : List Part} (h : LiesBelow root path names) :
    target outDir root path = ((landing names).map String.ofList).foldl FilePath.join outDir := by
  unfold target landing
  dsimp only
  rw [h.relative_eq, leadsOut_joinParts h.areNames h.ne_nil, String.toList_ofList,
    Path.splitSlashes_joinParts h.areNames h.ne_nil]
  split
  · rw [List.getLast?_eq_some_getLast h.ne_nil]
    simp [List.getLastD_eq_getLast?, List.getLast?_eq_some_getLast h.ne_nil]
  · rfl

theorem landing_subset (names : List Part) : landing names ⊆ names := by
  unfold landing
  split
  · intro name hname
    exact List.mem_of_getLast? (Option.mem_toList.mp hname)
  · exact List.Subset.refl names

/-- A target that lies below the directory, at the names. -/
structure LandsAt (outDir target : String) (names : List Part) : Prop where
  parts : FilePath.parts target = FilePath.parts outDir ++ names.map String.ofList
  isAbsolute : FilePath.isAbsolute target = FilePath.isAbsolute outDir
  names : AreNames names

theorem landsAt_target (outDir : String) {root path : String} {names : List Part} (h : LiesBelow root path names) :
    LandsAt outDir (target outDir root path) (landing names) := by
  have hnames : AreNames (landing names) := fun name hname => h.areNames name (landing_subset names hname)
  rw [target_eq_foldl outDir h]
  exact ⟨FilePath.parts_foldl_join outDir hnames, FilePath.isAbsolute_foldl_join outDir hnames, hnames⟩

theorem LandsAt.names_eq {outDir target : String} {names others : List Part} (h : LandsAt outDir target names)
    (hothers : LandsAt outDir target others) : names = others := by
  have hmap := List.append_cancel_left (h.parts.symm.trans hothers.parts)
  exact List.map_injective_iff.mpr (fun a b => String.ofList_injective) hmap

/-- Modules below the root are written below the directory, under the names that they keep, and one
is written over another only where both keep the same names. Where neither starts with a name that
looks outward, each keeps all of its names, and no module is written over. -/
theorem targets_apart_iff (outDir : String) {root a b : String} {ps qs : List Part} (ha : LiesBelow root a ps)
    (hb : LiesBelow root b qs) (hne : ps ≠ qs) :
    LandsAt outDir (target outDir root a) (landing ps) ∧ LandsAt outDir (target outDir root b) (landing qs) ∧
    (target outDir root a ≠ target outDir root b ↔ landing ps ≠ landing qs) ∧
    (ps.head?.any looksOutward = false → qs.head?.any looksOutward = false →
      LandsAt outDir (target outDir root a) ps ∧ LandsAt outDir (target outDir root b) qs ∧
      target outDir root a ≠ target outDir root b) := by
  have hlandsA := landsAt_target outDir ha
  have hlandsB := landsAt_target outDir hb
  have hapart : target outDir root a ≠ target outDir root b ↔ landing ps ≠ landing qs := by
    apply not_congr
    constructor
    · intro heq
      rw [← heq] at hlandsB
      exact hlandsA.names_eq hlandsB
    · intro heq
      rw [target_eq_foldl outDir ha, target_eq_foldl outDir hb, heq]
  refine ⟨hlandsA, hlandsB, hapart, ?_⟩
  intro hp hq
  have hkeptA : landing ps = ps := by simp [landing, hp]
  have hkeptB : landing qs = qs := by simp [landing, hq]
  rw [hkeptA] at hlandsA hapart
  rw [hkeptB] at hlandsB hapart
  exact ⟨hlandsA, hlandsB, hapart.mpr hne⟩

theorem targets_apart_in_project :
    let a : List Part := ["src".toList, "a.js".toList]
    let b : List Part := ["c:".toList, "a.js".toList]
    LiesBelow "D:/project" "d:\\project\\src\\a.js" a ∧
    LiesBelow "D:/project" "D:/project/./c:/a.js" b ∧ a ≠ b ∧
    LandsAt "dist" (target "dist" "D:/project" "d:\\project\\src\\a.js") a ∧
    LandsAt "dist" (target "dist" "D:/project" "D:/project/./c:/a.js") ["a.js".toList] ∧
    target "dist" "D:/project" "d:\\project\\src\\a.js" ≠ target "dist" "D:/project" "D:/project/./c:/a.js" := by
  intro a b
  have ha : LiesBelow "D:/project" "d:\\project\\src\\a.js" a := ⟨by decide, by decide, by decide, by decide⟩
  have hb : LiesBelow "D:/project" "D:/project/./c:/a.js" b := ⟨by decide, by decide, by decide, by decide⟩
  have hne : a ≠ b := by decide
  obtain ⟨hlandsA, hlandsB, hapart, -⟩ := targets_apart_iff "dist" ha hb hne
  exact ⟨ha, hb, hne, hlandsA, hlandsB, hapart.mpr (by decide)⟩

/-- Two modules below the root, and one file for the code of both. -/
theorem target_of_two_modules :
    LiesBelow "/project" "/project/..x/y.js" ["..x".toList, "y.js".toList] ∧
    LiesBelow "/project" "/project/y.js" ["y.js".toList] ∧
    target "dist" "/project" "/project/..x/y.js" = "dist/y.js" ∧
    target "dist" "/project" "/project/y.js" = "dist/y.js" := by
  exact ⟨⟨by decide, by decide, by decide, by decide⟩, ⟨by decide, by decide, by decide, by decide⟩,
    by decide, by decide⟩

end Request

end Nodeless
