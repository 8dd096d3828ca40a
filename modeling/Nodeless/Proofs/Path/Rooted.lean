import Mathlib.Data.List.Basic
import Nodeless.Path

/-!
# Rooted paths

A path that starts at a root stands for the root and a list of names: steps up never lead above the
root, so none is left. Every operation on such paths is an operation on the lists.
-/

namespace Nodeless.Path

/-! ## Cutting a text into parts -/

def Unsplit (part : Part) : Prop := ∀ c ∈ part, isSeparator c = false

instance (part : Part) : Decidable (Unsplit part) := List.decidableBAll (isSeparator · = false) part

theorem splitParts_eq (cs : List Char) : splitParts cs = cs.splitOnP isSeparator := by
  induction cs with
  | nil => rfl
  | cons c cs ih =>
    obtain ⟨part, parts, hcs⟩ := List.exists_cons_of_ne_nil (List.splitOnP_ne_nil isSeparator cs)
    rw [splitParts, ih, List.splitOnP_cons_eq_if_modifyHead, hcs]
    rfl

theorem splitParts_append_separator (a : List Char) {c : Char} (h : isSeparator c = true) (b : List Char) :
    splitParts (a ++ c :: b) = splitParts a ++ splitParts b := by
  simp only [splitParts_eq]
  exact List.splitOnP_append_cons a b h

theorem splitParts_of_unsplit {part : Part} (h : Unsplit part) : splitParts part = [part] := by
  rw [splitParts_eq]
  exact List.splitOnP_eq_singleton h

theorem unsplit_of_mem_splitParts (cs : List Char) : ∀ part ∈ splitParts cs, Unsplit part := by
  induction cs with
  | nil => simp [splitParts, Unsplit]
  | cons c cs ih =>
    rw [splitParts_eq] at ih
    obtain ⟨part, parts, hcs⟩ := List.exists_cons_of_ne_nil (List.splitOnP_ne_nil isSeparator cs)
    rw [hcs, List.forall_mem_cons] at ih
    rw [splitParts_eq, List.splitOnP_cons_eq_if_modifyHead, hcs]
    cases hc : isSeparator c with
    | true => exact List.forall_mem_cons.mpr ⟨by simp [Unsplit], List.forall_mem_cons.mpr ih⟩
    | false => exact List.forall_mem_cons.mpr ⟨List.forall_mem_cons.mpr ⟨hc, ih.1⟩, ih.2⟩

/-! ## Names -/

/-- A part that is a name: not empty, no step, and not cut any further. -/
structure IsName (part : Part) : Prop where
  ne_nil : part ≠ []
  ne_dot : part ≠ ['.']
  ne_up : part ≠ up
  unsplit : Unsplit part

instance (part : Part) : Decidable (IsName part) :=
  decidable_of_iff (part ≠ [] ∧ part ≠ ['.'] ∧ part ≠ up ∧ Unsplit part)
    ⟨fun h => ⟨h.1, h.2.1, h.2.2.1, h.2.2.2⟩, fun h => ⟨h.ne_nil, h.ne_dot, h.ne_up, h.unsplit⟩⟩

theorem IsName.not_mem_slash {part : Part} (h : IsName part) : '/' ∉ part := by
  intro hmem
  exact absurd (h.unsplit '/' hmem) (by decide)

def AreNames (ps : List Part) : Prop := ∀ part ∈ ps, IsName part

instance (ps : List Part) : Decidable (AreNames ps) := inferInstanceAs (Decidable (∀ part ∈ ps, IsName part))

theorem AreNames.append {ps qs : List Part} (hps : AreNames ps) (hqs : AreNames qs) : AreNames (ps ++ qs) :=
  List.forall_mem_append.mpr ⟨hps, hqs⟩

theorem AreNames.unsplit {ps : List Part} (h : AreNames ps) : ∀ part ∈ ps, Unsplit part :=
  fun part hpart => (h part hpart).unsplit

theorem push_of_isName {part : Part} (h : IsName part) (topmost : Bool) (stack : List Part) :
    push topmost stack part = part :: stack := by
  unfold push
  rw [if_neg (not_or.mpr ⟨h.ne_nil, h.ne_dot⟩), if_neg h.ne_up]

theorem foldl_push_of_areNames {ps : List Part} (h : AreNames ps) (topmost : Bool) (stack : List Part) :
    ps.foldl (push topmost) stack = ps.reverse ++ stack := by
  induction ps generalizing stack with
  | nil => rfl
  | cons part ps ih =>
    rw [List.foldl_cons, push_of_isName (h part List.mem_cons_self),
      ih fun q hq => h q (List.mem_cons_of_mem part hq)]
    simp

theorem mem_push {topmost : Bool} {stack : List Part} {part p : Part} (hpart : Unsplit part)
    (hp : p ∈ push topmost stack part) : p ∈ stack ∨ p = up ∧ topmost = false ∨ IsName p := by
  unfold push at hp
  split at hp
  · exact .inl hp
  · rename_i hempty
    split at hp
    · cases stack with
      | nil => cases topmost <;> simp_all
      | cons top rest =>
        dsimp only at hp
        split at hp
        · exact .inl (List.mem_cons_of_mem top hp)
        · cases topmost with
          | true => exact .inl hp
          | false => exact (List.mem_cons.mp hp).elim (fun heq => .inr (.inl ⟨heq, rfl⟩)) .inl
    · rename_i hup
      rcases List.mem_cons.mp hp with rfl | hp
      · exact .inr (.inr ⟨fun h => hempty (.inl h), fun h => hempty (.inr h), hup, hpart⟩)
      · exact .inl hp

theorem mem_foldl_push {topmost : Bool} {pieces stack : List Part} {p : Part}
    (hpieces : ∀ part ∈ pieces, Unsplit part)
    (hp : p ∈ pieces.foldl (push topmost) stack) : p ∈ stack ∨ p = up ∧ topmost = false ∨ IsName p := by
  induction pieces generalizing stack with
  | nil => exact .inl hp
  | cons part pieces ih =>
    obtain ⟨hpart, hpieces⟩ := List.forall_mem_cons.mp hpieces
    rcases ih hpieces hp with hp | hp
    · exact mem_push hpart hp
    · exact .inr hp

/-- Below a root every part is a name: nothing is above, so a step up leaves no trace. -/
theorem isName_of_mem_parts {rest : List Char} {p : Part} (hp : p ∈ parts rest) :
    p = up ∧ rooted rest = false ∨ IsName p := by
  rw [parts, List.mem_reverse] at hp
  exact (mem_foldl_push (unsplit_of_mem_splitParts rest) hp).resolve_left List.not_mem_nil

/-! ## Texts that start at a root -/

/-- A path that starts with a separator, or with a drive and a separator. -/
inductive Anchored : List Char → Prop
  | slash {c : Char} (separator : isSeparator c = true) (rest : List Char) : Anchored (c :: rest)
  | drive {letter c : Char} (isLetter : letter.isAlpha = true) (separator : isSeparator c = true)
      (rest : List Char) : Anchored (letter :: ':' :: c :: rest)

theorem splitRoot_of_separator {c : Char} (h : isSeparator c = true) (rest : List Char) :
    splitRoot (c :: rest) = (.slash, c :: rest) := by
  have hletter : c.isAlpha = false := by
    simp only [isSeparator, Bool.or_eq_true, decide_eq_true_eq] at h
    rcases h with rfl | rfl <;> decide
  simp [splitRoot, hletter, h]

theorem rooted_of_separator {c : Char} (h : isSeparator c = true) (rest : List Char) :
    rooted (c :: rest) = true := by
  simp [rooted, splitRoot_of_separator h]

theorem areNames_parts {c : Char} (h : isSeparator c = true) (rest : List Char) : AreNames (parts (c :: rest)) := by
  intro part hpart
  refine (isName_of_mem_parts hpart).resolve_left ?_
  rw [rooted_of_separator h]
  simp

/-- The directory `dir` with names below it. -/
def below (dir : List Char) (ps : List Part) : List Char := dir ++ ps.flatMap fun part => '/' :: part

theorem splitParts_below (dir : List Char) {ps : List Part} (h : ∀ part ∈ ps, Unsplit part) :
    splitParts (below dir ps) = splitParts dir ++ ps := by
  induction ps generalizing dir with
  | nil => simp [below]
  | cons part ps ih =>
    obtain ⟨hpart, hps⟩ := List.forall_mem_cons.mp h
    have hstep : below dir (part :: ps) = below (dir ++ '/' :: part) ps := by simp [below]
    rw [hstep, ih _ hps, splitParts_append_separator dir (by decide), splitParts_of_unsplit hpart]
    simp

theorem parts_below {c : Char} (h : isSeparator c = true) (rest : List Char) {ps : List Part} (hps : AreNames ps) :
    parts (below (c :: rest) ps) = parts (c :: rest) ++ ps := by
  have hrooted : rooted (below (c :: rest) ps) = true := rooted_of_separator h _
  unfold parts
  rw [hrooted, rooted_of_separator h, splitParts_below _ hps.unsplit, List.foldl_append, foldl_push_of_areNames hps]
  simp

/-! ## What a path stands for -/

def Root.Real : Root → Prop
  | none => False
  | slash => True
  | drive letter => letter.isAlpha = true

theorem Root.Real.ne_none {root : Root} (h : root.Real) : root ≠ .none := by
  rintro rfl
  exact h

/-- The path starts at the root and leads down through the names. -/
structure Stands (path : List Char) (root : Root) (ps : List Part) : Prop where
  real : root.Real
  names : AreNames ps
  root_eq : (splitRoot path).1 = root
  parts_eq : parts (splitRoot path).2 = ps

theorem Anchored.stands {dir : List Char} (h : Anchored dir) :
    ∃ root base, ∀ ps, AreNames ps → Stands (below dir ps) root (base ++ ps) := by
  cases h with
  | @slash c separator rest =>
    refine ⟨.slash, parts (c :: rest), fun ps hps => ?_⟩
    have hsplit : splitRoot (below (c :: rest) ps) = (.slash, below (c :: rest) ps) :=
      splitRoot_of_separator separator _
    refine ⟨trivial, (areNames_parts separator rest).append hps, by rw [hsplit], ?_⟩
    rw [hsplit]
    exact parts_below separator rest hps
  | @drive letter c isLetter separator rest =>
    refine ⟨.drive letter, parts (c :: rest), fun ps hps => ?_⟩
    have hsplit : splitRoot (below (letter :: ':' :: c :: rest) ps) = (.drive letter, below (c :: rest) ps) := by
      simp [splitRoot, below, isLetter]
    refine ⟨isLetter, (areNames_parts separator rest).append hps, by rw [hsplit], ?_⟩
    rw [hsplit]
    exact parts_below separator rest hps

/-- The path as operations write it. -/
def written (root : Root) (ps : List Part) : List Char := root.chars ++ joinParts ps

theorem joinParts_cons (part next : Part) (ps : List Part) :
    joinParts (part :: next :: ps) = part ++ '/' :: joinParts (next :: ps) := by
  simp [joinParts]

theorem slash_joinParts {ps : List Part} (h : ps ≠ []) : '/' :: joinParts ps = below [] ps := by
  induction ps with
  | nil => exact absurd rfl h
  | cons part ps ih =>
    cases ps with
    | nil => simp [joinParts, below]
    | cons next ps =>
      rw [joinParts_cons, ih (List.cons_ne_nil next ps)]
      simp [below]

theorem joinParts_concat {ps : List Part} (h : ps ≠ []) (last : Part) :
    joinParts (ps ++ [last]) = joinParts ps ++ '/' :: last := by
  have hslash : '/' :: joinParts (ps ++ [last]) = '/' :: (joinParts ps ++ '/' :: last) := by
    rw [slash_joinParts (by simp), ← List.cons_append, slash_joinParts h]
    simp [below]
  exact (List.cons.inj hslash).2

theorem parts_slash_joinParts {ps : List Part} (h : AreNames ps) : parts ('/' :: joinParts ps) = ps := by
  unfold parts
  by_cases hps : ps = []
  · subst hps
    rfl
  · rw [slash_joinParts hps, splitParts_below [] h.unsplit]
    change (ps.foldl (push _) []).reverse = ps
    rw [foldl_push_of_areNames h]
    simp

theorem splitRoot_written {root : Root} (hroot : root.Real) (ps : List Part) :
    splitRoot (written root ps) = (root, '/' :: joinParts ps) := by
  cases root with
  | none => exact hroot.elim
  | slash => exact splitRoot_of_separator (by decide) _
  | drive letter =>
    have hletter : letter.isAlpha = true := hroot
    simp [written, Root.chars, splitRoot, hletter]

theorem stands_written {root : Root} (hroot : root.Real) {ps : List Part} (h : AreNames ps) :
    Stands (written root ps) root ps := by
  have hsplit := splitRoot_written hroot ps
  exact ⟨hroot, h, by rw [hsplit], by rw [hsplit]; exact parts_slash_joinParts h⟩

namespace Stands

variable {path other : List Char} {root : Root} {ps : List Part}

theorem normalizeChars_eq (h : Stands path root ps) : normalizeChars path = written root ps := by
  unfold normalizeChars
  dsimp only
  rw [h.root_eq, h.parts_eq, if_neg fun hnone => h.real.ne_none hnone.1]
  rfl

theorem normalize_eq {path : String} (h : Stands path.toList root ps) :
    normalize path = String.ofList (written root ps) := by
  rw [normalize, h.normalizeChars_eq]

end Stands

/-! ## The directory of a path -/

theorem beforeLastSlash?_append {part : Part} (h : '/' ∉ part) (before : List Char) :
    beforeLastSlash? (before ++ '/' :: part) = some before := by
  have hdrop : (before ++ '/' :: part).reverse.dropWhile (fun c => c ≠ '/') = '/' :: before.reverse := by
    rw [List.reverse_append, List.reverse_cons, List.append_assoc, List.dropWhile_append_of_pos]
    · simp
    · intro c hc
      rw [List.mem_reverse] at hc
      exact decide_eq_true fun heq => h (heq ▸ hc)
  rw [beforeLastSlash?, hdrop]
  simp

theorem written_concat {root : Root} (hroot : root.Real) (ps : List Part) (last : Part) :
    ∃ before, written root (ps ++ [last]) = before ++ '/' :: last ∧
      (if before.length < root.chars.length then root.chars else before) = written root ps := by
  by_cases hps : ps = []
  · subst hps
    cases root with
    | none => exact hroot.elim
    | slash => exact ⟨[], by simp [written, Root.chars, joinParts], by simp [written, Root.chars, joinParts]⟩
    | drive letter =>
      exact ⟨[letter, ':'], by simp [written, Root.chars, joinParts], by simp [written, Root.chars, joinParts]⟩
  · refine ⟨written root ps, ?_, ?_⟩
    · rw [written, written, joinParts_concat hps, List.append_assoc]
    · rw [if_neg]
      simp [written]

theorem Stands.dirname_eq {path : String} {root : Root} {ps : List Part} {last : Part}
    (h : Stands path.toList root (ps ++ [last])) : dirname path = String.ofList (written root ps) := by
  have hlast : '/' ∉ last := (h.names last (by simp)).not_mem_slash
  obtain ⟨before, hbefore, hend⟩ := written_concat h.real ps last
  have hroot := (stands_written h.real h.names).root_eq
  unfold dirname
  dsimp only
  rw [h.normalizeChars_eq, hroot, hbefore, beforeLastSlash?_append hlast]
  dsimp only
  rw [hend]

/-! ## From one path to another -/

/-- The way from one list of names to another: up to where they part, and down again. -/
def route (ps qs : List Part) : List Char :=
  let (above, below) := dropCommon ps qs
  joinParts (above.map (fun _ => up) ++ below)

theorem dropCommon_append (base ps qs : List Part) : dropCommon (base ++ ps) (base ++ qs) = dropCommon ps qs := by
  induction base with
  | nil => rfl
  | cons part base ih => simp [dropCommon, ih]

theorem route_nil (ps : List Part) : route [] ps = joinParts ps := by
  simp [route, dropCommon]

theorem Root.same_self (root : Root) : root.same root = true := by
  cases root <;> simp [Root.same]

theorem Stands.relative_eq {source target : String} {root : Root} {base ps qs : List Part}
    (hsource : Stands source.toList root (base ++ ps)) (htarget : Stands target.toList root (base ++ qs)) :
    relative source target = String.ofList (route ps qs) := by
  unfold relative route
  dsimp only
  rw [hsource.root_eq, htarget.root_eq, root.same_self, if_pos rfl, hsource.parts_eq, htarget.parts_eq,
    dropCommon_append]

end Nodeless.Path
