import Nodeless.Environment
import Nodeless.Proofs.Path.Canonical

/-!
# Requests for the shim

A module asks for the shim by the way from its directory, which is marked as relative by `./`, and by
its whole path where there is no way. Whether there is one is read from the text of the result, which
starts with a drive: a shim below `/` never does, and a name that reads like a drive does as well.
-/

namespace Nodeless.Environment

open Nodeless.Path

/-! ## Marks -/

theorem isAbsolute_mark (path : String) : isAbsolute ("./" ++ path) = false := by
  rw [isAbsolute, String.toList_append]
  change rooted ('.' :: '/' :: path.toList) = false
  rw [rooted_cons]
  rfl

theorem mark_inj {path other : String} (h : "./" ++ path = "./" ++ other) : path = other := by
  have hlist := congrArg String.toList h
  rw [String.toList_append, String.toList_append] at hlist
  exact String.toList_inj.mp (List.append_cancel_left hlist)

theorem mark_ne (path : String) : path ≠ "./" ++ path := by
  intro h
  have hlength := congrArg String.length h
  rw [String.length_append, show "./".length = 2 from rfl] at hlength
  omega

/-- A request starts with `./` if it is relative, and what is marked so is relative. -/
structure Marked (request : String) : Prop where
  mark : isAbsolute request = false → ∃ path, request = "./" ++ path
  of_mark : ∀ path, request = "./" ++ path → isAbsolute path = false

theorem marked_relative {path : String} (h : isAbsolute path = false) : Marked ("./" ++ path) where
  mark _ := ⟨path, rfl⟩
  of_mark _ hmark := mark_inj hmark ▸ h

theorem marked_absolute {path : String} (h : isAbsolute path = true) : Marked path where
  mark hrelative := absurd (hrelative.symm.trans h) Bool.false_ne_true
  of_mark _ hmark := absurd ((isAbsolute_mark _).symm.trans (hmark ▸ h)) Bool.false_ne_true

/-! ## What reads like a drive -/

theorem isDriveAbsolute_of_root_eq {path other : String} (h : (splitRoot path.toList).1 = (splitRoot other.toList).1) :
    isDriveAbsolute path = isDriveAbsolute other := by
  rw [isDriveAbsolute, isDriveAbsolute, h]

theorem isDriveAbsolute_of_head {path : String} (h : ∀ c ∈ path.toList.head?, isSeparator c = false) :
    isDriveAbsolute path = isAbsolute path := by
  unfold isDriveAbsolute isAbsolute rooted
  cases hpath : path.toList with
  | nil => rfl
  | cons c cs =>
    have hc : isSeparator c = false := h c (by rw [hpath]; rfl)
    by_cases hdrive : c.isAlpha = true ∧ cs.head? = some ':' <;> simp [splitRoot, hdrive, hc]

theorem isDriveAbsolute_route (ps : List Part) {qs : List Part} (hqs : AreNames qs) :
    isDriveAbsolute (String.ofList (route ps qs)) = isAbsolute (String.ofList (route ps qs)) := by
  have hsteps := upsThenNames_dropCommon (show dropCommon ps qs = (_, _) from rfl) hqs
  refine isDriveAbsolute_of_head fun c hc => ?_
  rw [String.toList_ofList, route] at hc
  dsimp only at hc
  generalize List.map _ _ ++ _ = steps at hsteps hc
  cases steps with
  | nil => exact absurd hc (by simp [joinParts])
  | cons first steps =>
    obtain ⟨hne, -⟩ := hsteps.plain first List.mem_cons_self
    have hmem : c ∈ first := by
      cases first with
      | nil => exact absurd rfl hne
      | cons d first => cases steps <;> simp_all [joinParts]
    exact hsteps.unsplit first List.mem_cons_self c hmem

theorem isAbsolute_route_iff (ps : List Part) {qs : List Part} (hqs : AreNames qs) :
    isAbsolute (String.ofList (route ps qs)) = true ↔
      ∃ name names, qs = ps ++ name :: names ∧ rooted name = true := by
  obtain ⟨above, below, hdrop⟩ : ∃ above below, dropCommon ps qs = (above, below) := ⟨_, _, rfl⟩
  simp only [← dropCommon_eq_nil_iff, hdrop, route, isAbsolute, String.toList_ofList, Prod.mk.injEq]
  cases above with
  | cons part above =>
    rw [List.map_cons, List.cons_append, rooted_joinParts (by decide)]
    simp [show rooted up = false by decide]
  | nil =>
    cases below with
    | nil => simp [joinParts, rooted, splitRoot]
    | cons name names =>
      obtain ⟨base, -, rfl⟩ := exists_common hdrop
      rw [List.map_nil, List.nil_append, rooted_joinParts (hqs name (by simp)).ne_nil]
      simp

/-! ## Requests -/

/-- The request that leads from a directory to the shim. -/
def properRequest (shim context : String) : String :=
  if (splitRoot context.toList).1.same (splitRoot shim.toList).1 then "./" ++ relative context shim
  else normalize shim

/-- The way to the shim leads down from the directory, to a name that reads like a drive. -/
def ReadsLikeDrive (shim context : String) : Prop :=
  ∃ name names, components shim = components context ++ name :: names ∧ rooted name = true

section

variable {shim context : String}

theorem shimRequest_eq_mark_iff : shimRequest shim (some context) = "./" ++ relative context shim ↔
    isDriveAbsolute (relative context shim) = false := by
  unfold shimRequest
  dsimp only
  split <;> rename_i hdrive <;> simp [hdrive, mark_ne]

theorem shimRequest_eq_relative_iff : shimRequest shim (some context) = relative context shim ↔
    isDriveAbsolute (relative context shim) = true := by
  unfold shimRequest
  dsimp only
  split <;> rename_i hdrive <;> simp [hdrive, (mark_ne _).symm]

theorem shimRequest_of_same (hsame : (splitRoot context.toList).1.same (splitRoot shim.toList).1 = true)
    (hnames : AreNames (components shim)) :
    (shimRequest shim (some context) = properRequest shim context ↔ ¬ReadsLikeDrive shim context) ∧
    (shimRequest shim (some context) = properRequest shim context → Marked (properRequest shim context)) := by
  have habsolute : isAbsolute (relative context shim) = true ↔ ReadsLikeDrive shim context := by
    rw [relative_of_same hsame]
    exact isAbsolute_route_iff (components context) hnames
  have hdrive : isDriveAbsolute (relative context shim) = isAbsolute (relative context shim) := by
    rw [relative_of_same hsame]
    exact isDriveAbsolute_route (components context) hnames
  rw [properRequest, if_pos hsame, shimRequest_eq_mark_iff, hdrive, ← habsolute, Bool.not_eq_true]
  exact ⟨.rfl, marked_relative⟩

theorem shimRequest_of_apart (hsame : (splitRoot context.toList).1.same (splitRoot shim.toList).1 = false)
    (hshim : Anchored shim.toList) :
    (shimRequest shim (some context) = properRequest shim context ↔ isDriveAbsolute shim = true) ∧
    (shimRequest shim (some context) = properRequest shim context → Marked (properRequest shim context)) := by
  obtain ⟨root, names, hstands⟩ := hshim.exists_stands
  have hroot : (splitRoot (normalize shim).toList).1 = (splitRoot shim.toList).1 :=
    hstands.normalize.root_eq.trans hstands.root_eq.symm
  rw [properRequest, hsame, if_neg Bool.false_ne_true, ← relative_of_not_same hsame, shimRequest_eq_relative_iff,
    relative_of_not_same hsame, isDriveAbsolute_of_root_eq hroot]
  exact ⟨.rfl, fun _ => marked_absolute hstands.isAbsolute_normalize⟩

end

/-- From a directory on the root of the shim the request is the marked way to it if and only if that does
not read like a drive, and from any other directory it is the whole path of the shim if and only if that
starts with a drive. A request as it should be is marked where it is relative, and only there. -/
theorem shimRequest_eq_proper_iff {shim : String} (hshim : Anchored shim.toList) (context : String) :
    ((splitRoot context.toList).1.same (splitRoot shim.toList).1 = true →
      (shimRequest shim (some context) = properRequest shim context ↔ ¬ReadsLikeDrive shim context)) ∧
    ((splitRoot context.toList).1.same (splitRoot shim.toList).1 = false →
      (shimRequest shim (some context) = properRequest shim context ↔ isDriveAbsolute shim = true)) ∧
    (shimRequest shim (some context) = properRequest shim context → Marked (properRequest shim context)) := by
  have hnames : AreNames (components shim) := by
    obtain ⟨root, names, hstands⟩ := hshim.exists_stands
    rw [components, hstands.parts_eq]
    exact hstands.names
  cases hsame : (splitRoot context.toList).1.same (splitRoot shim.toList).1 with
  | true =>
    obtain ⟨hiff, hmarked⟩ := shimRequest_of_same hsame hnames
    exact ⟨fun _ => hiff, fun h => absurd h.symm Bool.false_ne_true, hmarked⟩
  | false =>
    obtain ⟨hiff, hmarked⟩ := shimRequest_of_apart hsame hshim
    exact ⟨fun h => absurd h Bool.false_ne_true, fun _ => hiff, hmarked⟩

/-- Up from a directory whose drive is written in the other case, and across two drives. -/
theorem shimRequest_eq_proper_drives :
    Anchored "C:\\lib\\module.js".toList ∧
    shimRequest "C:\\lib\\module.js" (some "c:/project") = properRequest "C:\\lib\\module.js" "c:/project" ∧
    properRequest "C:\\lib\\module.js" "c:/project" = "./../lib/module.js" ∧
    shimRequest "C:\\lib\\module.js" (some "D:/project") = properRequest "C:\\lib\\module.js" "D:/project" ∧
    properRequest "C:\\lib\\module.js" "D:/project" = "C:/lib/module.js" := by
  have hshim : Anchored "C:\\lib\\module.js".toList := .drive (by decide) (by decide) _
  have hplain : ¬ReadsLikeDrive "C:\\lib\\module.js" "c:/project" := by
    rintro ⟨name, names, hcomponents, -⟩
    revert hcomponents
    rw [show components "C:\\lib\\module.js" = ["lib".toList, "module.js".toList] by decide,
      show components "c:/project" = ["project".toList] by decide]
    simp
  have hup := ((shimRequest_eq_proper_iff hshim "c:/project").1 (by decide)).mpr hplain
  have hacross := ((shimRequest_eq_proper_iff hshim "D:/project").2.1 (by decide)).mpr (by decide)
  exact ⟨hshim, hup, by decide, hacross, by decide⟩

/-- A shim below `/` is asked for as if it were relative, and a directory with the name of a drive as if it
were one. -/
theorem shimRequest_misread :
    shimRequest "/lib/module.js" (some "C:/project") = ".//lib/module.js" ∧
    shimRequest "/lib/module.js" (some "C:/project") ≠ properRequest "/lib/module.js" "C:/project" ∧
    shimRequest "/project/C:/module.js" (some "/project") = "C:/module.js" ∧
    shimRequest "/project/C:/module.js" (some "/project") ≠ properRequest "/project/C:/module.js" "/project" := by
  decide

end Nodeless.Environment
