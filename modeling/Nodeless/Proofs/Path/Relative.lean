import Mathlib.Data.List.DropRight
import Nodeless.Proofs.Path.Rooted

/-!
# The way from one path to another

A relative path goes up to the directory where two paths part and down again from there. No other
sequence of steps leads from the one to the other with fewer steps. Between two roots there is no
way.
-/

namespace Nodeless.Path

/-- The parts of a path below its root. -/
def components (path : String) : List Part := parts (splitRoot path.toList).2

/-- What the slashes of a text leave between them. An empty text has no pieces. -/
def pieces (text : String) : List Part := if text = "" then [] else text.toList.splitOn '/'

theorem pieces_eq_nil_iff (text : String) : pieces text = [] ↔ text = "" := by
  unfold pieces
  split
  · simp [*]
  · simp [*, List.splitOn_ne_nil]

theorem ofList_joinParts_eq_empty_iff {ps : List Part} (h : ∀ part ∈ ps, part ≠ []) :
    String.ofList (joinParts ps) = "" ↔ ps = [] := by
  rw [String.ofList_eq_empty_iff]
  cases ps with
  | nil => simp [joinParts]
  | cons part ps => cases ps <;> simp [joinParts, h part List.mem_cons_self]

theorem pieces_joinParts {ps : List Part} (h : ∀ part ∈ ps, part ≠ [] ∧ '/' ∉ part) :
    pieces (String.ofList (joinParts ps)) = ps := by
  have hempty := ofList_joinParts_eq_empty_iff fun part hpart => (h part hpart).1
  unfold pieces
  split
  · rename_i heq
    exact (hempty.mp heq).symm
  · rename_i hne
    rw [String.toList_ofList]
    exact List.splitOn_intercalate '/' (fun part hpart => (h part hpart).2) fun heq => hne (hempty.mpr heq)

/-- Steps up and then names. -/
structure UpsThenNames (ps : List Part) (n : Nat) (names : List Part) : Prop where
  eq : ps = List.replicate n up ++ names
  names : AreNames names

namespace UpsThenNames

variable {ps names : List Part} {n : Nat}

theorem part_cases (h : UpsThenNames ps n names) {part : Part} (hpart : part ∈ ps) : part = up ∨ IsName part := by
  rw [h.eq] at hpart
  exact (List.mem_append.mp hpart).imp List.eq_of_mem_replicate (h.names part)

theorem unsplit (h : UpsThenNames ps n names) : ∀ part ∈ ps, Unsplit part := by
  intro part hpart
  rcases h.part_cases hpart with rfl | hname
  · decide
  · exact hname.unsplit

theorem plain (h : UpsThenNames ps n names) : ∀ part ∈ ps, part ≠ [] ∧ part ≠ ['.'] := by
  intro part hpart
  rcases h.part_cases hpart with rfl | hname
  · decide
  · exact ⟨hname.ne_nil, hname.ne_dot⟩

theorem pieces_joinParts (h : UpsThenNames ps n names) : pieces (String.ofList (joinParts ps)) = ps :=
  Path.pieces_joinParts fun part hpart =>
    ⟨(h.plain part hpart).1, fun hmem => absurd (h.unsplit part hpart '/' hmem) (by decide)⟩

end UpsThenNames

theorem Anchored.exists_stands {path : List Char} (h : Anchored path) : ∃ root ps, Stands path root ps := by
  obtain ⟨root, base, hbelow⟩ := h.stands
  have hpath := hbelow [] (by simp [AreNames])
  rw [show below path [] = path by simp [below], List.append_nil] at hpath
  exact ⟨root, base, hpath⟩

namespace Stands

variable {path : String} {root : Root} {ps : List Part}

protected theorem normalize (h : Stands path.toList root ps) : Stands (normalize path).toList root ps := by
  rw [h.normalize_eq, String.toList_ofList]
  exact stands_written h.real h.names

protected theorem isAbsolute (h : Stands path.toList root ps) : isAbsolute path = true := by
  rw [Path.isAbsolute, rooted, h.root_eq]
  exact decide_eq_true h.real.ne_none

theorem components_normalize (h : Stands path.toList root ps) : components (normalize path) = ps :=
  h.normalize.parts_eq

theorem isAbsolute_normalize (h : Stands path.toList root ps) : isAbsolute (normalize path) = true :=
  h.normalize.isAbsolute

end Stands

theorem relative_of_not_same {source target : String}
    (h : (splitRoot source.toList).1.same (splitRoot target.toList).1 = false) :
    relative source target = normalize target := by
  unfold relative
  dsimp only
  rw [h]
  rfl

theorem relative_of_same {source target : String}
    (h : (splitRoot source.toList).1.same (splitRoot target.toList).1 = true) :
    relative source target = String.ofList (route (components source) (components target)) := by
  unfold relative
  dsimp only
  rw [if_pos h]
  rfl

/-! ## Where two lists part -/

/-- `n` steps up and then the names lead from one list of parts to the other, and no other number of
steps with other names is shorter. -/
structure ShortestWay (source target : List Part) (n : Nat) (names : List Part) : Prop where
  down : up ∉ names
  within : n ≤ source.length
  leads : source.rdrop n ++ names = target
  shortest : ∀ m others, source.rdrop m ++ others = target → n + names.length ≤ m + others.length

section

variable {ps qs above below : List Part}

theorem exists_common (h : dropCommon ps qs = (above, below)) :
    ∃ base, ps = base ++ above ∧ qs = base ++ below := by
  fun_induction dropCommon ps qs with
  | case1 ps part qs ih =>
    obtain ⟨base, rfl, rfl⟩ := ih h
    exact ⟨part :: base, rfl, rfl⟩
  | case2 | case3 =>
    cases h
    exact ⟨[], rfl, rfl⟩

theorem dropCommon_eq_nil_iff : dropCommon ps qs = ([], below) ↔ qs = ps ++ below := by
  constructor
  · intro h
    obtain ⟨base, rfl, rfl⟩ := exists_common h
    rw [List.append_nil]
  · rintro rfl
    have hdrop := dropCommon_append ps [] below
    rw [List.append_nil] at hdrop
    rw [hdrop]
    simp [dropCommon]

theorem length_le_of_prefix (h : dropCommon ps qs = (above, below)) {start : List Part} (hps : start <+: ps)
    (hqs : start <+: qs) : start.length + above.length ≤ ps.length := by
  fun_induction dropCommon ps qs generalizing start with
  | case1 ps part qs ih =>
    cases start with
    | nil =>
      obtain ⟨base, rfl, -⟩ := exists_common h
      simp
      omega
    | cons first start =>
      have hle := ih h (List.cons_prefix_cons.mp hps).2 (List.cons_prefix_cons.mp hqs).2
      simp only [List.length_cons]
      omega
  | case2 part ps other qs hne =>
    cases h
    cases start with
    | nil => simp
    | cons first start =>
      exact absurd ((List.cons_prefix_cons.mp hps).1.symm.trans (List.cons_prefix_cons.mp hqs).1) hne
  | case3 ps qs hnil =>
    cases h
    cases start with
    | nil => simp
    | cons first start =>
      obtain ⟨more, rfl⟩ := hps
      obtain ⟨more', rfl⟩ := hqs
      exact (hnil _ _ _ _ rfl rfl).elim

/-- No other steps up and down lead from the one to the other with fewer of them. -/
theorem length_le_of_rdrop_append (h : dropCommon ps qs = (above, below)) {n : Nat} {names : List Part}
    (hway : ps.rdrop n ++ names = qs) : above.length + below.length ≤ n + names.length := by
  have hle := length_le_of_prefix h (List.take_prefix _ _) (hway ▸ List.prefix_append _ _)
  obtain ⟨base, rfl, rfl⟩ := exists_common h
  have hlength := congrArg List.length hway
  simp only [List.rdrop, List.length_append, List.length_take] at hle hlength
  omega

end

/-! ## Relative paths -/

theorem upsThenNames_dropCommon {ps qs above below : List Part} (h : dropCommon ps qs = (above, below))
    (hqs : AreNames qs) : UpsThenNames (above.map (fun _ => up) ++ below) above.length below := by
  obtain ⟨base, -, rfl⟩ := exists_common h
  exact ⟨by rw [List.map_const'], fun part hpart => hqs part (List.mem_append_right base hpart)⟩

theorem pieces_route (ps : List Part) {qs : List Part} (hqs : AreNames qs) :
    pieces (String.ofList (route ps qs)) =
      List.replicate (dropCommon ps qs).1.length up ++ (dropCommon ps qs).2 := by
  have hsteps := upsThenNames_dropCommon (show dropCommon ps qs = (_, _) from rfl) hqs
  exact hsteps.pieces_joinParts.trans hsteps.eq

theorem Stands.pieces_relative {source target : String} {a b : Root} {ps qs : List Part}
    (hsource : Stands source.toList a ps) (htarget : Stands target.toList b qs) (hroot : a.same b = true) :
    pieces (relative source target) =
      List.replicate (dropCommon ps qs).1.length up ++ (dropCommon ps qs).2 := by
  have hsame : (splitRoot source.toList).1.same (splitRoot target.toList).1 = true := by
    rwa [hsource.root_eq, htarget.root_eq]
  rw [relative_of_same hsame, components, components, hsource.parts_eq, htarget.parts_eq,
    pieces_route ps htarget.names]

theorem shortestWay_dropCommon {ps qs above below : List Part} (h : dropCommon ps qs = (above, below))
    (hqs : AreNames qs) : ShortestWay ps qs above.length below := by
  obtain ⟨base, rfl, rfl⟩ := exists_common h
  refine ⟨?_, ?_, ?_, fun m others => length_le_of_rdrop_append h⟩
  · intro hup
    exact (hqs up (List.mem_append_right base hup)).ne_up rfl
  · rw [List.length_append]
    omega
  · rw [List.rdrop_append_length]

/-- The relative path between two paths on one root is steps up and then names that lead from the one
to the other, and nothing shorter does. Between two roots it is the whole path of the target. -/
theorem relative_is_shortest {source target : String} (hsource : Anchored source.toList)
    (htarget : Anchored target.toList) :
    ((splitRoot source.toList).1.same (splitRoot target.toList).1 = true →
      (∃ n names, pieces (relative source target) = List.replicate n up ++ names ∧
        ShortestWay (components (normalize source)) (components (normalize target)) n names) ∧
      (relative source target = "" ↔ components (normalize source) = components (normalize target))) ∧
    ((splitRoot source.toList).1.same (splitRoot target.toList).1 = false →
      relative source target = normalize target ∧ isAbsolute (normalize target) = true) := by
  obtain ⟨a, ps, hps⟩ := hsource.exists_stands
  obtain ⟨b, qs, hqs⟩ := htarget.exists_stands
  rw [hps.components_normalize, hqs.components_normalize, hps.root_eq, hqs.root_eq]
  constructor
  · intro hroot
    obtain ⟨above, below, hdrop⟩ : ∃ above below, dropCommon ps qs = (above, below) := ⟨_, _, rfl⟩
    have hway := shortestWay_dropCommon hdrop hqs.names
    have hpieces := hps.pieces_relative hqs hroot
    rw [hdrop] at hpieces
    dsimp only at hpieces
    refine ⟨⟨above.length, below, hpieces, hway⟩, ?_⟩
    rw [← pieces_eq_nil_iff, hpieces, List.append_eq_nil_iff, List.replicate_eq_nil_iff]
    constructor
    · rintro ⟨habove, hbelow⟩
      have hleads := hway.leads
      rwa [habove, hbelow, List.rdrop_zero, List.append_nil] at hleads
    · intro heq
      -- Staying is a way between equal lists, and no way is shorter.
      have hle := hway.shortest 0 [] (by simp [heq])
      simp only [List.length_nil] at hle
      exact ⟨by omega, List.eq_nil_of_length_eq_zero (by omega)⟩
  · intro hroot
    refine ⟨?_, hqs.isAbsolute_normalize⟩
    unfold relative
    dsimp only
    rw [hps.root_eq, hqs.root_eq, hroot]
    rfl

theorem relative_is_shortest_mixed :
    Anchored "c:\\work\\src\\..\\lib".toList ∧ Anchored "C:/./work//tools/x.js".toList ∧
      (splitRoot "c:\\work\\src\\..\\lib".toList).1.same (splitRoot "C:/./work//tools/x.js".toList).1 = true ∧
      relative "c:\\work\\src\\..\\lib" "C:/./work//tools/x.js" = "../tools/x.js" ∧
      ∃ n names, pieces "../tools/x.js" = List.replicate n up ++ names ∧
        ShortestWay (components (normalize "c:\\work\\src\\..\\lib"))
          (components (normalize "C:/./work//tools/x.js")) n names := by
  have hsource : Anchored "c:\\work\\src\\..\\lib".toList := .drive (by decide) (by decide) _
  have htarget : Anchored "C:/./work//tools/x.js".toList := .drive (by decide) (by decide) _
  have hroot : (splitRoot "c:\\work\\src\\..\\lib".toList).1.same
      (splitRoot "C:/./work//tools/x.js".toList).1 = true := by decide
  have hrelative : relative "c:\\work\\src\\..\\lib" "C:/./work//tools/x.js" = "../tools/x.js" := by decide
  have hway := ((relative_is_shortest hsource htarget).1 hroot).1
  rw [hrelative] at hway
  exact ⟨hsource, htarget, hroot, hrelative, hway⟩

end Nodeless.Path
