import Nodeless.Build.Recognizer
import Nodeless.Proofs.Event.Chains

/-!
# Paths of chains

No name holds a point, so the path of a chain says what its names are, and the handlers registered
under it can be told from the names alone.
-/

namespace Nodeless

/-- Names without points, which a path keeps apart. -/
def Undotted (names : List String) : Prop := names ≠ [] ∧ ∀ name ∈ names, '.' ∉ name.toList

instance (names : List String) : Decidable (Undotted names) := inferInstanceAs (Decidable (_ ∧ _))

theorem Undotted.intercalate_inj {a b : List String} (ha : Undotted a) (hb : Undotted b)
    (h : ".".intercalate a = ".".intercalate b) : a = b := by
  have hlist : ['.'].intercalate (a.map String.toList) = ['.'].intercalate (b.map String.toList) := by
    have := congrArg String.toList h
    rwa [String.toList_intercalate, String.toList_intercalate] at this
  have hsplit {names : List String} (hnames : Undotted names) :
      (['.'].intercalate (names.map String.toList)).splitOn '.' = names.map String.toList := by
    apply List.splitOn_intercalate
    · exact List.forall_mem_map.mpr hnames.2
    · exact fun hnil => hnames.1 (List.map_eq_nil_iff.mp hnil)
  have hmap : a.map String.toList = b.map String.toList := by rw [← hsplit ha, ← hsplit hb, hlist]
  exact (List.map_inj_right fun _ _ => String.toList_inj.mp).mp hmap

namespace Chain

theorem InOrder.undotted {c : Chain} (h : c.InOrder) : Undotted c.names := by
  refine ⟨List.cons_ne_nil _ _, List.forall_mem_map.mpr ?_⟩
  intro name hname hdot
  have hplain := h.plain name hname '.' hdot
  revert hplain
  decide

theorem InOrder.path_eq_iff {c : Chain} (h : c.InOrder) {names : List String} (hnames : Undotted names) :
    ".".intercalate names = c.path ↔ names = c.names := by
  constructor
  · exact hnames.intercalate_inj h.undotted
  · rintro rfl
    rfl

end Chain

theorem Recognizer.handlersFor_of_names {r : Recognizer} {entries : List (List String × Handler)}
    (hr : r.handlers = entries.map fun entry => (".".intercalate entry.1, entry.2))
    (hentries : ∀ entry ∈ entries, Undotted entry.1) {c : Chain} (hc : c.InOrder) :
    r.handlersFor c.path = (entries.filter fun entry => entry.1 = c.names).map (·.2) := by
  have hfilter : (entries.filter fun entry => decide (".".intercalate entry.1 = c.path)) =
      entries.filter fun entry => decide (entry.1 = c.names) := by
    apply List.filter_congr
    intro entry hentry
    rw [decide_eq_decide]
    exact hc.path_eq_iff (hentries entry hentry)
  unfold handlersFor
  rw [hr, List.filter_map, List.map_map]
  simp only [Function.comp_def, hfilter]

end Nodeless
