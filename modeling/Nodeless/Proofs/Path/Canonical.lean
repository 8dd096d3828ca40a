import Nodeless.Proofs.Path.Relative

/-!
# Normalized paths

A normalized path has one spelling, and to normalize it again changes nothing. That fails in two
places, since the root of a path is read from its text alone: steps up may be left behind a drive that
no separator follows, and the first part of a path without a root may read like a drive.
-/

namespace Nodeless.Path

/-! ## Steps up come first -/

theorem push_up (topmost : Bool) (n : Nat) :
    push topmost (List.replicate n up) up = List.replicate (if topmost then n else n + 1) up := by
  cases n <;> cases topmost <;> simp [push, up, List.replicate_succ]

theorem foldl_push_ups (topmost : Bool) (n m : Nat) :
    (List.replicate n up).foldl (push topmost) (List.replicate m up) =
      List.replicate (if topmost then m else n + m) up := by
  induction n generalizing m with
  | zero => simp
  | succ n ih =>
    rw [List.replicate_succ, List.foldl_cons, push_up, ih]
    cases topmost with
    | true => rfl
    | false =>
      simp only [Bool.false_eq_true, if_false]
      congr 1
      omega

/-- On a stack, the steps up that nothing cancels lie below the names. -/
def UpsBelow (stack : List Part) : Prop :=
  ∃ names n, stack = names ++ List.replicate n up ∧ AreNames names

theorem UpsBelow.push {stack : List Part} (h : UpsBelow stack) {part : Part} (hpart : Unsplit part)
    (topmost : Bool) : UpsBelow (push topmost stack part) := by
  obtain ⟨names, n, rfl, hnames⟩ := h
  by_cases hempty : part = [] ∨ part = ['.']
  · exact ⟨names, n, by unfold Path.push; rw [if_pos hempty], hnames⟩
  by_cases hup : part = up
  · subst hup
    cases names with
    | nil => exact ⟨[], if topmost then n else n + 1, push_up topmost n, hnames⟩
    | cons name names =>
      obtain ⟨hname, hnames⟩ := List.forall_mem_cons.mp hnames
      refine ⟨names, n, ?_, hnames⟩
      unfold Path.push
      rw [if_neg hempty, if_pos rfl]
      exact if_pos hname.ne_up
  · have hname : IsName part := ⟨fun h => hempty (.inl h), fun h => hempty (.inr h), hup, hpart⟩
    exact ⟨part :: names, n, push_of_isName hname topmost _, List.forall_mem_cons.mpr ⟨hname, hnames⟩⟩

theorem UpsBelow.foldl_push {pieces stack : List Part} (h : UpsBelow stack)
    (hpieces : ∀ part ∈ pieces, Unsplit part) (topmost : Bool) :
    UpsBelow (pieces.foldl (Path.push topmost) stack) := by
  induction pieces generalizing stack with
  | nil => exact h
  | cons part pieces ih =>
    obtain ⟨hpart, hpieces⟩ := List.forall_mem_cons.mp hpieces
    exact ih (h.push hpart topmost) hpieces

theorem exists_upsThenNames (rest : List Char) : ∃ n names, UpsThenNames (parts rest) n names := by
  have hnil : UpsBelow [] := ⟨[], 0, rfl, by simp [AreNames]⟩
  obtain ⟨names, n, hstack, hnames⟩ := hnil.foldl_push (unsplit_of_mem_splitParts rest) (rooted rest)
  refine ⟨n, names.reverse, ?_, fun name hname => hnames name (List.mem_reverse.mp hname)⟩
  rw [parts, hstack, List.reverse_append, List.reverse_replicate]

theorem UpsThenNames.foldl_push {ps names : List Part} {n : Nat} (h : UpsThenNames ps n names) (topmost : Bool) :
    (ps.foldl (Path.push topmost) []).reverse = if topmost then names else ps := by
  have hups := foldl_push_ups topmost n 0
  rw [List.replicate_zero] at hups
  rw [h.eq, List.foldl_append, hups, foldl_push_of_areNames h.names]
  cases topmost <;> simp

/-! ## The root of a text -/

theorem real_of_rooted {path : List Char} (h : rooted path = true) : (splitRoot path).1.Real := by
  unfold rooted at h
  revert h
  fun_cases splitRoot path with
  | case1 c cs hdrive =>
    simp only [Bool.and_eq_true] at hdrive
    exact fun _ => hdrive.1
  | case2 => exact fun _ => trivial
  | case3 | case4 => simp

theorem splitRoot_of_not_rooted {path : List Char} (h : rooted path = false) : splitRoot path = (.none, path) := by
  unfold rooted at h
  revert h
  fun_cases splitRoot path <;> simp

theorem rooted_cons (c : Char) (cs : List Char) :
    rooted (c :: cs) = (c.isAlpha && cs.head? = some ':' || isSeparator c) := by
  by_cases hdrive : c.isAlpha = true ∧ cs.head? = some ':'
  · simp [rooted, splitRoot, hdrive]
  · cases hseparator : isSeparator c with
    | true => simp [rooted, splitRoot, hdrive, hseparator]
    | false =>
      simp only [rooted, splitRoot, Bool.and_eq_true, decide_eq_true_eq, if_neg hdrive, hseparator]
      simpa using hdrive

/-- The first part of a text is followed by a slash or by nothing, so the root is read from it alone. -/
theorem rooted_joinParts {first : Part} (h : first ≠ []) (ps : List Part) :
    rooted (joinParts (first :: ps)) = rooted first := by
  obtain ⟨more, hmore, hhead⟩ : ∃ more, joinParts (first :: ps) = first ++ more ∧ more.head? ≠ some ':' := by
    cases ps with
    | nil => exact ⟨[], by simp [joinParts], by simp⟩
    | cons next ps => exact ⟨_, joinParts_cons first next ps, by simp⟩
  obtain ⟨c, cs, rfl⟩ := List.exists_cons_of_ne_nil h
  rw [hmore, List.cons_append, rooted_cons, rooted_cons]
  cases cs with
  | nil => simp [hhead]
  | cons d cs => rfl

theorem splitParts_joinParts {ps : List Part} (hne : ps ≠ []) (h : ∀ part ∈ ps, Unsplit part) :
    splitParts (joinParts ps) = ps := by
  have hcut := splitParts_below [] h
  rw [← slash_joinParts hne] at hcut
  change [] :: splitParts (joinParts ps) = [] :: ps at hcut
  exact (List.cons.inj hcut).2

theorem UpsThenNames.parts_joinParts {ps names : List Part} {n : Nat} (h : UpsThenNames ps n names) (hne : ps ≠ [])
    (hroot : rooted (joinParts ps) = false) : parts (joinParts ps) = ps := by
  rw [parts, hroot, splitParts_joinParts hne h.unsplit, h.foldl_push]
  rfl

theorem backslash_not_mem_joinParts {ps : List Part} (h : ∀ part ∈ ps, Unsplit part) : '\\' ∉ joinParts ps := by
  intro hmem
  have hne : ps ≠ [] := by
    rintro rfl
    simp [joinParts] at hmem
  have hbelow : '\\' ∈ below [] ps := slash_joinParts hne ▸ List.mem_cons_of_mem '/' hmem
  simp only [below, List.nil_append, List.mem_flatMap, List.mem_cons] at hbelow
  obtain ⟨part, hpart, heq | hc⟩ := hbelow
  · exact absurd heq (by decide)
  · exact absurd (h part hpart _ hc) (by decide)

theorem Root.Real.backslash_not_mem_chars {root : Root} (h : root.Real) : '\\' ∉ root.chars := by
  cases root with
  | none => exact h.elim
  | slash => decide
  | drive letter =>
    have hletter : letter.isAlpha = true := h
    have hne : letter ≠ '\\' := by
      rintro rfl
      exact absurd hletter (by decide)
    simp [Root.chars, hne.symm]

/-! ## What a normalized path looks like -/

/-- The text behind the root of a path and one slash. -/
def behindRoot (path : String) : String :=
  String.ofList (match (splitRoot path.toList).2 with
    | '/' :: rest => rest
    | rest => rest)

theorem behindRoot_of_not_rooted {path : String} (h : isAbsolute path = false) : behindRoot path = path := by
  unfold behindRoot
  rw [splitRoot_of_not_rooted h]
  split
  · rename_i rest heq
    have hrooted : rooted ('/' :: rest) = true := rooted_of_separator (by decide) rest
    rw [← show path.toList = '/' :: rest from heq] at hrooted
    exact absurd (h.symm.trans hrooted) Bool.false_ne_true
  · exact String.ofList_toList

/-- What is expected of the text that normalizes a path. -/
structure Canonical (path normal : String) : Prop where
  stable : normalize normal = normal
  slashes : '\\' ∉ normal.toList
  plain : normal = "." ∨ ∀ part ∈ pieces (behindRoot normal), part ≠ [] ∧ part ≠ ['.']
  upsFirst : ∃ n names, pieces (behindRoot normal) = List.replicate n up ++ names ∧ up ∉ names ∧
    (isAbsolute normal = true → n = 0)
  absolute : isAbsolute normal = isAbsolute path

/-- No step up is left below a root, and without a root the first part does not read like one. -/
def Settles (path : String) : Prop :=
  if isAbsolute path then up ∉ components path
  else ∀ first ∈ (components path).head?, rooted first = false

instance (path : String) : Decidable (Settles path) :=
  inferInstanceAs (Decidable (if isAbsolute path then up ∉ components path
    else ∀ first ∈ (components path).head?, rooted first = false))

section

variable {path : String}

theorem normalize_of_rooted (h : isAbsolute path = true) :
    normalize path = String.ofList (written (splitRoot path.toList).1 (components path)) := by
  unfold normalize normalizeChars
  dsimp only
  rw [if_neg fun hnone => of_decide_eq_true h hnone.1]
  rfl

theorem normalize_of_not_rooted (h : isAbsolute path = false) :
    normalize path = if components path = [] then "." else String.ofList (joinParts (components path)) := by
  unfold normalize normalizeChars components
  dsimp only
  rw [splitRoot_of_not_rooted h]
  simp only [true_and, Root.chars, List.nil_append]
  split <;> rfl

theorem backslash_not_mem_normalize (path : String) : '\\' ∉ (normalize path).toList := by
  obtain ⟨n, names, hps⟩ : ∃ n names, UpsThenNames (components path) n names := exists_upsThenNames _
  have hparts := backslash_not_mem_joinParts hps.unsplit
  cases h : isAbsolute path with
  | true =>
    rw [normalize_of_rooted h, String.toList_ofList, written, List.mem_append]
    exact not_or.mpr ⟨(real_of_rooted h).backslash_not_mem_chars, hparts⟩
  | false =>
    rw [normalize_of_not_rooted h]
    split
    · decide
    · rwa [String.toList_ofList]

theorem canonical_iff_of_rooted (h : isAbsolute path = true) :
    Canonical path (normalize path) ↔ up ∉ components path := by
  have hreal := real_of_rooted h
  obtain ⟨n, names, hps⟩ := exists_upsThenNames (splitRoot path.toList).2
  have hsplit := splitRoot_written hreal (components path)
  have habsolute : isAbsolute (normalize path) = true := by
    rw [isAbsolute, rooted, normalize_of_rooted h, String.toList_ofList, hsplit]
    exact h
  have hbehind : pieces (behindRoot (normalize path)) = components path := by
    rw [behindRoot, normalize_of_rooted h, String.toList_ofList, hsplit]
    exact hps.pieces_joinParts
  constructor
  · intro hcanonical
    obtain ⟨m, others, hpieces, hdown, hzero⟩ := hcanonical.upsFirst
    rw [hzero habsolute, List.replicate_zero, List.nil_append, hbehind] at hpieces
    rwa [hpieces]
  · intro hnone
    have hnames : AreNames (components path) := fun part hpart =>
      (hps.part_cases hpart).resolve_left fun hup => hnone (hup ▸ hpart)
    have hstands : Stands path.toList (splitRoot path.toList).1 (components path) := ⟨hreal, hnames, rfl, rfl⟩
    exact
      { stable := by rw [hstands.normalize.normalize_eq, hstands.normalize_eq]
        slashes := backslash_not_mem_normalize path
        plain := .inr (hbehind ▸ hps.plain)
        upsFirst := ⟨0, components path, hbehind, hnone, fun _ => rfl⟩
        absolute := habsolute.trans h.symm }

theorem canonical_dot (h : isAbsolute path = false) : Canonical path "." where
  stable := by decide
  slashes := by decide
  plain := .inl rfl
  upsFirst := ⟨0, [['.']], by decide, by decide, by decide⟩
  absolute := h.symm ▸ by decide

theorem canonical_iff_of_not_rooted (h : isAbsolute path = false) :
    Canonical path (normalize path) ↔ ∀ first ∈ (components path).head?, rooted first = false := by
  obtain ⟨n, names, hps⟩ : ∃ n names, UpsThenNames (components path) n names := exists_upsThenNames _
  have hnormal := normalize_of_not_rooted h
  cases hparts : components path with
  | nil =>
    rw [hnormal, if_pos hparts]
    simp [canonical_dot h]
  | cons first rest =>
    have hne : components path ≠ [] := hparts ▸ List.cons_ne_nil first rest
    rw [if_neg hne] at hnormal
    have hfirst : first ≠ [] := (hps.plain first (hparts ▸ List.mem_cons_self)).1
    have hroot : isAbsolute (normalize path) = rooted first := by
      rw [hnormal, isAbsolute, String.toList_ofList, hparts, rooted_joinParts hfirst]
    constructor
    · intro hcanonical part hpart
      obtain rfl := Option.some.inj hpart
      rw [← hroot, hcanonical.absolute, h]
    · intro hplain
      rw [hplain first rfl] at hroot
      have hbehind : pieces (behindRoot (normalize path)) = components path := by
        rw [behindRoot_of_not_rooted hroot, hnormal, hps.pieces_joinParts]
      have hsame : components (normalize path) = components path := by
        rw [components, splitRoot_of_not_rooted hroot]
        rw [isAbsolute, hnormal, String.toList_ofList] at hroot
        rw [hnormal, String.toList_ofList]
        exact hps.parts_joinParts hne hroot
      exact
        { stable := by rw [normalize_of_not_rooted hroot, hsame, if_neg hne, hnormal]
          slashes := backslash_not_mem_normalize path
          plain := .inr (hbehind ▸ hps.plain)
          upsFirst := ⟨n, names, hbehind.trans hps.eq, fun hup => (hps.names up hup).ne_up rfl, by simp [hroot]⟩
          absolute := hroot.trans h.symm }

end

/-- A normalized path has no backslash, and it is as expected of it if and only if the path settles. -/
theorem canonical_normalize_iff (path : String) :
    '\\' ∉ (normalize path).toList ∧ (Canonical path (normalize path) ↔ Settles path) := by
  refine ⟨backslash_not_mem_normalize path, ?_⟩
  unfold Settles
  cases h : isAbsolute path with
  | true => exact canonical_iff_of_rooted h
  | false => exact canonical_iff_of_not_rooted h

example : Settles "..\\a//./b" ∧ Settles "C:/.." ∧ ¬Settles "C:.." ∧ ¬Settles "./C:" := by decide

/-- A step up stays behind a drive, and a name that reads like a drive makes a path absolute. -/
theorem not_canonical_drive :
    ¬Canonical "C:.." (normalize "C:..") ∧ ¬Canonical "./C:" (normalize "./C:") := by
  constructor
  · intro h
    exact absurd h.stable (by decide)
  · intro h
    exact absurd h.absolute (by decide)

theorem Anchored.canonical_normalize {path : String} (h : Anchored path.toList) :
    Canonical path (normalize path) := by
  obtain ⟨root, ps, hps⟩ := h.exists_stands
  refine (canonical_iff_of_rooted hps.isAbsolute).mpr fun hup => ?_
  rw [components, hps.parts_eq] at hup
  exact (hps.names up hup).ne_up rfl

end Nodeless.Path
