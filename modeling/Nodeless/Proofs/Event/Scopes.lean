import Mathlib.Data.List.Basic
import Mathlib.Data.List.Induction
import Nodeless.Proofs.Event.Chains

/-!
# The scopes of a source

Which scopes are open at each event, which of them holds a declared name, and which chains stand in
it. All of it is read off the whole list of events, so a declaration may stand behind the chains
that it binds.
-/

namespace Nodeless.Event

/-! ## Open scopes -/

/-- A scope, known by the place of the event that opens it. -/
structure OpenScope where
  opened : Nat
  kind : ScopeKind
  deriving DecidableEq, Repr

def opens (scopes : List OpenScope) (n : Nat) : Event → List OpenScope
  | .enter _ kind => ⟨n, kind⟩ :: scopes
  | .exit _ => scopes.tail
  | .declare _ _ => scopes
  | .chain _ => scopes

/-- The scopes that are open behind the events, the innermost first. -/
def openScopes (events : List Event) : List OpenScope :=
  events.zipIdx.foldl (fun scopes entry => opens scopes entry.2 entry.1) []

@[simp]
theorem openScopes_nil : openScopes [] = [] := rfl

theorem openScopes_snoc (events : List Event) (event : Event) :
    openScopes (events ++ [event]) = opens (openScopes events) events.length event := by
  simp [openScopes, List.zipIdx_append, List.foldl_append]

theorem opened_lt {events : List Event} : ∀ s ∈ openScopes events, s.opened < events.length := by
  induction events using List.reverseRecOn with
  | nil => simp
  | append_singleton events event ih =>
    intro s hs
    rw [openScopes_snoc] at hs
    rw [List.length_append, List.length_singleton]
    cases event with
    | enter span kind =>
      rcases List.mem_cons.mp hs with rfl | hs
      · exact Nat.lt_succ_self _
      · exact Nat.lt_succ_of_lt (ih s hs)
    | exit span => exact Nat.lt_succ_of_lt (ih s (List.mem_of_mem_tail hs))
    | declare name kind => exact Nat.lt_succ_of_lt (ih s hs)
    | chain c => exact Nat.lt_succ_of_lt (ih s hs)

theorem fresh_not_mem (events : List Event) (kind : ScopeKind) : ⟨events.length, kind⟩ ∉ openScopes events := by
  intro hmem
  exact Nat.lt_irrefl _ (opened_lt _ hmem)

theorem nodup_openScopes (events : List Event) : (openScopes events).Nodup := by
  induction events using List.reverseRecOn with
  | nil => exact List.nodup_nil
  | append_singleton events event ih =>
    rw [openScopes_snoc]
    cases event with
    | enter span kind => exact List.nodup_cons.mpr ⟨fresh_not_mem events kind, ih⟩
    | exit span => exact ih.sublist (List.tail_sublist _)
    | declare name kind => exact ih
    | chain c => exact ih

/-! ## Nesting -/

/-- Every scope that the events leave has been entered, by them or among `depth` scopes before them,
and at the end all are left. -/
def Nested : Nat → List Event → Prop
  | depth, [] => depth = 0
  | depth, .enter _ _ :: events => Nested (depth + 1) events
  | depth, .exit _ :: events => 0 < depth ∧ Nested (depth - 1) events
  | depth, .declare _ _ :: events => Nested depth events
  | depth, .chain _ :: events => Nested depth events

theorem nested_declares (names : List Name) (kind : DeclarationKind) (depth : Nat) (events : List Event) :
    Nested depth (names.map (.declare · kind) ++ events) ↔ Nested depth events := by
  induction names with
  | nil => rfl
  | cons n names ih => exact ih

theorem nested_ofSource {source : String} {events : List Event} (h : Event.ofSource source = .ok events) :
    Nested 0 events := by
  unfold Event.ofSource at h
  dsimp only at h
  split at h
  · cases h
  · refine Walker.events_induction (P := fun walker _ events => Nested walker.depth events) ?_ ?_ h
    · intro walker hdepth
      exact hdepth
    · intro walker t rest step more hmoves hmore
      cases hmoves with
      | enters kind names depth =>
        rw [depth] at hmore
        exact (nested_declares names .lexical _ more).mpr hmore
      | leaves depth =>
        refine ⟨by omega, ?_⟩
        rw [depth, Nat.add_sub_cancel]
        exact hmore
      | declares kind names depth =>
        rw [depth] at hmore
        exact (nested_declares names kind _ more).mpr hmore
      | reads depth name =>
        rw [depth] at hmore
        exact hmore

theorem Nested.open_of_exit {before rest : List Event} {span : Span}
    (h : Nested (openScopes before).length (.exit span :: rest)) : openScopes before ≠ [] :=
  List.ne_nil_of_length_pos h.1

theorem Nested.snoc {before rest : List Event} {event : Event}
    (h : Nested (openScopes before).length (event :: rest)) :
    Nested (openScopes (before ++ [event])).length rest := by
  rw [openScopes_snoc]
  cases event with
  | enter span kind => exact h
  | exit span =>
    rw [opens, List.length_tail]
    exact h.2
  | declare name kind => exact h
  | chain c => exact h

/-! ## Declarations -/

/-- The scope that holds a name declared in the open scopes. The module itself is none of them. -/
def holder (scopes : List OpenScope) : DeclarationKind → Option OpenScope
  | .lexical => scopes.head?
  | .var => scopes.find? fun s => s.kind = .function

/-- Whether a holder is still open. The module always is. -/
def isOpen (scopes : List OpenScope) (held : Option OpenScope) : Bool := held.all scopes.contains

theorem isOpen_iff (scopes : List OpenScope) (held : Option OpenScope) :
    isOpen scopes held = true ↔ ∀ s ∈ held, s ∈ scopes := by
  cases held <;> simp [isOpen]

theorem mem_of_mem_holder {scopes : List OpenScope} {kind : DeclarationKind} {s : OpenScope}
    (h : s ∈ holder scopes kind) : s ∈ scopes := by
  cases kind with
  | lexical => exact List.mem_of_mem_head? h
  | var => exact List.mem_of_find?_eq_some h

/-- A declared name, with the scope that holds it. -/
structure Declaration where
  name : String
  held : Option OpenScope
  deriving DecidableEq, Repr

def declaration? (scopes : List OpenScope) : Event → Option Declaration
  | .declare name kind => some ⟨name.text, holder scopes kind⟩
  | _ => none

def declarations (events : List Event) : List Declaration :=
  events.zipIdx.filterMap fun entry => declaration? (openScopes (events.take entry.2)) entry.1

theorem mem_declarations_iff (events : List Event) (d : Declaration) :
    d ∈ declarations events ↔
      ∃ j event, events[j]? = some event ∧ declaration? (openScopes (events.take j)) event = some d := by
  unfold declarations
  rw [List.mem_filterMap]
  constructor
  · rintro ⟨⟨event, j⟩, hmem, hd⟩
    exact ⟨j, event, List.mk_mem_zipIdx_iff_getElem?.mp hmem, hd⟩
  · rintro ⟨j, event, hget, hd⟩
    exact ⟨(event, j), List.mk_mem_zipIdx_iff_getElem?.mpr hget, hd⟩

theorem declarations_snoc (events : List Event) (event : Event) :
    declarations (events ++ [event]) =
      declarations events ++ (declaration? (openScopes events) event).toList := by
  have hbefore : ∀ entry ∈ events.zipIdx,
      declaration? (openScopes ((events ++ [event]).take entry.2)) entry.1 =
        declaration? (openScopes (events.take entry.2)) entry.1 := by
    intro entry hentry
    have hlt := (List.mem_zipIdx hentry).2.1
    rw [List.take_append_of_le_length (by omega)]
  have hlast : (events ++ [event]).take events.length = events := by simp
  unfold declarations
  rw [List.zipIdx_append, List.filterMap_append, List.filterMap_congr hbefore]
  simp only [List.zipIdx_singleton, Nat.zero_add, List.filterMap_cons, List.filterMap_nil, hlast]
  cases declaration? (openScopes events) event <;> rfl

theorem held_opened_lt {events : List Event} {d : Declaration} (h : d ∈ declarations events) :
    ∀ s ∈ d.held, s.opened < events.length := by
  obtain ⟨j, event, hget, hd⟩ := (mem_declarations_iff events d).mp h
  intro s hs
  cases event <;> cases hd
  have hlt := opened_lt s (mem_of_mem_holder hs)
  have hle := List.length_take_le' j events
  omega

/-- The declarations whose holders are open behind the events. -/
def inForce (events : List Event) : List Declaration :=
  (declarations events).filter fun d => isOpen (openScopes events) d.held

theorem declarations_of_none {events : List Event} {event : Event}
    (h : declaration? (openScopes events) event = none) :
    declarations (events ++ [event]) = declarations events := by
  rw [declarations_snoc, h, Option.toList_none, List.append_nil]

theorem inForce_enter (events : List Event) (span : Span) (kind : ScopeKind) :
    inForce (events ++ [.enter span kind]) = inForce events := by
  unfold inForce
  rw [declarations_of_none rfl, openScopes_snoc, opens]
  apply List.filter_congr
  intro d hd
  -- What is declared so far has other holders than the scope that opens now.
  rw [Bool.eq_iff_iff, isOpen_iff, isOpen_iff]
  constructor
  · intro h s hs
    rcases List.mem_cons.mp (h s hs) with rfl | hmem
    · exact absurd (held_opened_lt hd _ hs) (Nat.lt_irrefl _)
    · exact hmem
  · intro h s hs
    exact List.mem_cons_of_mem _ (h s hs)

theorem inForce_exit (events : List Event) (span : Span) :
    inForce (events ++ [.exit span]) =
      (inForce events).filter fun d => isOpen (openScopes events).tail d.held := by
  unfold inForce
  rw [declarations_of_none rfl, openScopes_snoc, opens, List.filter_filter]
  apply List.filter_congr
  intro d _
  rw [Bool.eq_iff_iff, Bool.and_eq_true, isOpen_iff, isOpen_iff]
  constructor
  · intro h
    exact ⟨h, fun s hs => List.mem_of_mem_tail (h s hs)⟩
  · intro h
    exact h.1

theorem inForce_declare (events : List Event) (name : Name) (kind : DeclarationKind) :
    inForce (events ++ [.declare name kind]) =
      inForce events ++ [⟨name.text, holder (openScopes events) kind⟩] := by
  have hopen : isOpen (openScopes events) (holder (openScopes events) kind) = true :=
    (isOpen_iff _ _).mpr fun s hs => mem_of_mem_holder hs
  unfold inForce
  rw [declarations_snoc, openScopes_snoc, opens, List.filter_append]
  simp [declaration?, hopen]

theorem inForce_chain (events : List Event) (c : Chain) : inForce (events ++ [.chain c]) = inForce events := by
  unfold inForce
  rw [declarations_of_none rfl, openScopes_snoc, opens]

/-! ## What a declaration binds -/

/-- Whether the declaration in place `j` binds the root of the chain in place `i`: they have one
spelling, and the chain stands in the scope that holds the declaration, before it or behind. -/
def binds (events : List Event) (j i : Nat) : Bool :=
  match events[j]?, events[i]? with
  | some (.declare name kind), some (.chain c) =>
    name.text = c.root.text && isOpen (openScopes (events.take i)) (holder (openScopes (events.take j)) kind)
  | _, _ => false

/-- Whether a declaration in front of the chain in place `i` binds its root. -/
def hidden (events : List Event) (i : Nat) : Bool := (List.range i).any fun j => binds events j i

theorem hidden_iff (before rest : List Event) (c : Chain) :
    hidden (before ++ .chain c :: rest) before.length = true ↔ ∃ d ∈ inForce before, d.name = c.root.text := by
  have hat : (before ++ .chain c :: rest)[before.length]? = some (.chain c) := by simp
  have htake : (before ++ .chain c :: rest).take before.length = before := by simp
  unfold hidden inForce
  rw [List.any_eq_true]
  constructor
  · rintro ⟨j, hj, hbinds⟩
    have hlt : j < before.length := List.mem_range.mp hj
    unfold binds at hbinds
    rw [hat, htake, List.getElem?_append_left hlt, List.take_append_of_le_length (Nat.le_of_lt hlt)] at hbinds
    split at hbinds
    · rename_i name kind c' hget hc
      cases hc
      simp only [Bool.and_eq_true, decide_eq_true_eq] at hbinds
      refine ⟨⟨name.text, holder (openScopes (before.take j)) kind⟩, List.mem_filter.mpr ⟨?_, hbinds.2⟩,
        hbinds.1⟩
      exact (mem_declarations_iff _ _).mpr ⟨j, _, hget, rfl⟩
    · cases hbinds
  · rintro ⟨d, hd, hname⟩
    obtain ⟨hmem, hopen⟩ := List.mem_filter.mp hd
    obtain ⟨j, event, hget, hdecl⟩ := (mem_declarations_iff _ _).mp hmem
    have hlt : j < before.length := by
      by_contra hle
      rw [List.getElem?_eq_none (Nat.le_of_not_lt hle)] at hget
      cases hget
    refine ⟨j, List.mem_range.mpr hlt, ?_⟩
    unfold binds
    rw [hat, htake, List.getElem?_append_left hlt, List.take_append_of_le_length (Nat.le_of_lt hlt), hget]
    cases event <;> cases hdecl
    simp only [Bool.and_eq_true, decide_eq_true_eq]
    exact ⟨hname, hopen⟩

end Nodeless.Event
