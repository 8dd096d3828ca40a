import Nodeless.Command.Request

/-!
# Requests that are read

What holds of every request that a command line comes to: it names a file, and none of the paths in
it is empty.
-/

namespace Nodeless

namespace Request

/-- No path of a request is empty. An empty path is the one kind that has no absolute form. -/
structure NamesPaths (r : Request) : Prop where
  value : ∀ p : Parameter, p.isPath = true → ∀ path, r.value? p = some path → path.isEmpty = false
  file : ∀ path ∈ r.files, path.isEmpty = false

theorem value?_withValue (r : Request) (value : String) (p q : Parameter) :
    (r.withValue value p).value? q = if q = p then some value else r.value? q := by
  cases p <;> cases q <;> rfl

theorem files_withValue (r : Request) (value : String) (p : Parameter) : (r.withValue value p).files = r.files := by
  cases p <;> rfl

variable {r r' : Request}

theorem namesPaths_new : NamesPaths {} := by
  refine ⟨?_, by simp⟩
  intro p _ path hvalue
  cases p <;> cases hvalue

/-! ## One word -/

theorem NamesPaths.give? (h : r.NamesPaths) {p : Parameter} {value : String} (hgive : r.give? p value = some r') :
    r'.NamesPaths := by
  unfold Request.give? at hgive
  split at hgive
  · cases hgive
  · rename_i hfree
    cases hgive
    simp only [Bool.or_eq_true, Bool.and_eq_true, not_or, not_and, Bool.not_eq_true] at hfree
    refine ⟨?_, by rw [files_withValue]; exact h.file⟩
    intro q hq path hpath
    rw [value?_withValue] at hpath
    split at hpath
    · rename_i heq
      cases hpath
      exact hfree.2 (heq ▸ hq)
    · exact h.value q hq path hpath

theorem NamesPaths.addFile? (h : r.NamesPaths) {file : String} (hadd : r.addFile? file = some r') :
    r'.NamesPaths := by
  unfold Request.addFile? at hadd
  split at hadd
  · cases hadd
  · rename_i hfile
    cases hadd
    refine ⟨fun p hp path hpath => h.value p hp path (by cases p <;> exact hpath), ?_⟩
    intro path hmem
    rcases List.mem_append.mp hmem with hmem | hmem
    · exact h.file path hmem
    · rw [List.mem_singleton.mp hmem]
      exact Bool.eq_false_iff.mpr hfile

theorem NamesPaths.turn? (h : r.NamesPaths) {switch : Switch} (hturn : r.turn? switch = some (.inr r')) :
    r'.NamesPaths := by
  unfold Request.turn? at hturn
  split at hturn
  · split at hturn
    · cases hturn
    · cases hturn
      exact ⟨fun p hp path hpath => h.value p hp path (by cases p <;> exact hpath), h.file⟩
  all_goals cases hturn

theorem NamesPaths.turnLetters? (h : r.NamesPaths) {letters : List Char}
    (hturn : r.turnLetters? letters = some (.inr r')) : r'.NamesPaths := by
  induction letters generalizing r with
  | nil =>
    cases hturn
    exact h
  | cons letter letters ih =>
    rw [Request.turnLetters?] at hturn
    obtain ⟨switch, -, hturn⟩ := Option.bind_eq_some_iff.mp hturn
    obtain ⟨next, hnext, hturn⟩ := Option.bind_eq_some_iff.mp hturn
    cases next with
    | inl command => cases hturn
    | inr next => exact ih (h.turn? hnext) hturn

theorem turn?_ne_build (r request : Request) (switch : Switch) : r.turn? switch ≠ some (.inl (.build request)) := by
  unfold Request.turn?
  split
  · split <;> simp
  all_goals simp

theorem turnLetters?_ne_build (r request : Request) (letters : List Char) :
    r.turnLetters? letters ≠ some (.inl (.build request)) := by
  induction letters generalizing r with
  | nil => simp [Request.turnLetters?]
  | cons letter letters ih =>
    intro hturn
    rw [Request.turnLetters?] at hturn
    obtain ⟨switch, -, hturn⟩ := Option.bind_eq_some_iff.mp hturn
    obtain ⟨next, hnext, hturn⟩ := Option.bind_eq_some_iff.mp hturn
    cases next with
    | inl command =>
      cases hturn
      exact turn?_ne_build r request switch hnext
    | inr next => exact ih next hturn

theorem NamesPaths.addFiles? (h : r.NamesPaths) {files : List String}
    (hadd : files.foldlM Request.addFile? r = some r') : r'.NamesPaths := by
  induction files generalizing r with
  | nil =>
    cases hadd
    exact h
  | cons file files ih =>
    rw [List.foldlM_cons] at hadd
    obtain ⟨next, hnext, hadd⟩ := Option.bind_eq_some_iff.mp hadd
    exact ih (h.addFile? hnext) hadd

/-! ## All words -/

theorem NamesPaths.command? (h : r.NamesPaths) {request : Request} (hcommand : r.command? = some (.build request)) :
    request.NamesPaths ∧ request.files ≠ [] := by
  unfold Request.command? at hcommand
  split at hcommand
  · cases hcommand
  · rename_i hfiles
    cases hcommand
    exact ⟨h, hfiles⟩

theorem NamesPaths.read? (h : r.NamesPaths) {words : List String} {request : Request}
    (hread : r.read? words = some (.build request)) : request.NamesPaths ∧ request.files ≠ [] := by
  fun_induction Request.read? r words with
  | case1 => exact h.command? hread
  | case2 =>
    obtain ⟨next, hnext, hread⟩ := Option.bind_eq_some_iff.mp hread
    exact (h.addFiles? hnext).command? hread
  | case3 r word words _ ih =>
    obtain ⟨next, hnext, hread⟩ := Option.bind_eq_some_iff.mp hread
    exact ih next (h.addFile? hnext) hread
  | case5 r word words letters _ command hturn =>
    cases hread
    exact absurd hturn (turnLetters?_ne_build r request letters)
  | case6 r word words letters _ next hturn ih => exact ih (h.turnLetters? hturn) hread
  | case7 r word words name value _ ih =>
    obtain ⟨next, hnext, hread⟩ := Option.bind_eq_some_iff.mp hread
    obtain ⟨p, -, hgive⟩ := Option.bind_eq_some_iff.mp hnext
    exact ih next (h.give? hgive) hread
  | case8 r word name _ p value words _ _ ih =>
    obtain ⟨next, hgive, hread⟩ := Option.bind_eq_some_iff.mp hread
    exact ih next (h.give? hgive) hread
  | case12 r word name _ words _ command hturn =>
    cases hread
    obtain ⟨switch, -, hturn⟩ := Option.bind_eq_some_iff.mp hturn
    exact absurd hturn (turn?_ne_build r request switch)
  | case13 r word name _ words _ next hturn ih =>
    obtain ⟨switch, -, hturn⟩ := Option.bind_eq_some_iff.mp hturn
    exact ih (h.turn? hturn) hread
  | case4 | case9 | case10 | case11 => cases hread

end Request

theorem Command.namesPaths_of_build {words : List String} {request : Request}
    (h : ofWords? words = some (.build request)) : request.NamesPaths ∧ request.files ≠ [] :=
  Request.namesPaths_new.read? h

end Nodeless
