import Mathlib.Data.List.Induction
import Nodeless.Proofs.Event.Step
import Nodeless.Proofs.Token.Order

/-!
# The chains of a source

What a walk reports of the text of a source lies one behind the other, and so do the names in each
chain. No byte of a source belongs to two chains, or to a chain and a brace.
-/

namespace Nodeless

/-! ## One chain -/

/-- A chain as it is written: its names in order, none of them empty, in identifier characters. -/
structure Chain.InOrder (c : Chain) : Prop where
  ordered : (c.root :: c.members).Pairwise fun a b => a.span.stop ≤ b.span.start
  nonempty : ∀ n ∈ c.root :: c.members, n.span.start < n.span.stop
  plain : ∀ n ∈ c.root :: c.members, Text.Plain n.text.toList

namespace Chain

theorem last_mem (c : Chain) : c.last ∈ c.root :: c.members := List.getLastD_mem_cons

theorem InOrder.root_stop_le {c : Chain} (h : c.InOrder) :
    c.last = c.root ∨ c.root.span.stop ≤ c.last.span.start := by
  rcases List.mem_cons.mp c.last_mem with hlast | hlast
  · exact .inl hlast
  · exact .inr ((List.pairwise_cons.mp h.ordered).1 _ hlast)

theorem InOrder.take {c : Chain} (h : c.InOrder) (n : Nat) :
    InOrder { c with members := c.members.take n } := by
  have hsub : (c.root :: c.members.take n).Sublist (c.root :: c.members) :=
    (List.take_sublist n c.members).cons_cons c.root
  exact ⟨h.ordered.sublist hsub, fun m hm => h.nonempty m (hsub.subset hm),
    fun m hm => h.plain m (hsub.subset hm)⟩

theorem span_snoc (root m : Name) (ms : List Name) :
    span ⟨root, ms ++ [m]⟩ = (span ⟨root, ms⟩).hull m.span := by
  simp [span]

theorem names_snoc (root m : Name) (ms : List Name) :
    names ⟨root, ms ++ [m]⟩ = names ⟨root, ms⟩ ++ [m.text] := by
  simp [names]

theorem path_snoc (root m : Name) (ms : List Name) :
    path ⟨root, ms ++ [m]⟩ = path ⟨root, ms⟩ ++ "." ++ m.text := by
  have hnames : names ⟨root, ms⟩ ≠ [] := List.cons_ne_nil _ _
  unfold path
  rw [names_snoc, String.intercalate_append_of_ne_nil hnames (List.cons_ne_nil _ _), String.intercalate_singleton]

theorem InOrder.span_eq {c : Chain} (h : c.InOrder) : c.span = ⟨c.root.span.start, c.last.span.stop⟩ := by
  obtain ⟨root, members⟩ := c
  induction members using List.reverseRecOn with
  | nil => rfl
  | append_singleton ms m ih =>
    have hfront : InOrder ⟨root, ms⟩ := by simpa using h.take ms.length
    have hroot := h.nonempty root List.mem_cons_self
    have hm := h.nonempty m (by simp)
    have hordered := h.ordered
    rw [← List.cons_append] at hordered
    have hbefore (n : Name) (hn : n ∈ root :: ms) : n.span.stop ≤ m.span.start :=
      (List.pairwise_append.mp hordered).2.2 n hn m List.mem_cons_self
    have hstart := hbefore root List.mem_cons_self
    have hlast := hbefore _ (last_mem ⟨root, ms⟩)
    have hend : last ⟨root, ms ++ [m]⟩ = m := by simp [last]
    rw [span_snoc, ih hfront, hend, Span.hull, Span.mk.injEq]
    dsimp only
    omega

theorem InOrder.start_lt_stop {c : Chain} (h : c.InOrder) : c.span.start < c.span.stop := by
  have hroot := h.nonempty c.root List.mem_cons_self
  have hlast := h.nonempty c.last c.last_mem
  rw [h.span_eq]
  dsimp only
  rcases h.root_stop_le with heq | hle
  · rw [heq]
    exact hroot
  · omega

theorem mem_prefixes_iff (c p : Chain) :
    p ∈ c.prefixes ↔ ∃ n ≤ c.members.length, p = { c with members := c.members.take n } := by
  simp only [prefixes, List.mem_map, List.mem_reverse, List.mem_range, Nat.lt_succ_iff, eq_comm]

theorem prefixes_snoc (root m : Name) (ms : List Name) :
    prefixes ⟨root, ms ++ [m]⟩ = ⟨root, ms ++ [m]⟩ :: prefixes ⟨root, ms⟩ := by
  unfold prefixes
  dsimp only
  rw [List.length_append, List.length_singleton, List.range_succ, List.reverse_append, List.reverse_singleton,
    List.singleton_append, List.map_cons, List.take_of_length_le (by simp)]
  refine congrArg (_ :: ·) (List.map_congr_left fun n hn => ?_)
  rw [List.mem_reverse, List.mem_range] at hn
  rw [List.take_append_of_le_length (Nat.le_of_lt_succ hn)]

theorem prefixes_of_member (root second : Name) (rest : List Name) :
    prefixes ⟨root, second :: rest⟩ =
      ((List.range rest.length).reverse.map fun n => ⟨root, second :: rest.take (n + 1)⟩) ++
        [⟨root, [second]⟩, ⟨root, []⟩] := by
  unfold prefixes
  rw [List.length_cons, List.range_succ_eq_map, List.range_succ_eq_map]
  simp [List.map_reverse, Function.comp_def]

theorem InOrder.stop_le_last {c : Chain} (h : c.InOrder) {n : Name} (hn : n ∈ c.root :: c.members) :
    n.span.stop ≤ c.last.span.stop := by
  have hlast := h.nonempty c.last c.last_mem
  rcases List.eq_nil_or_concat c.members with hnil | ⟨ms, m, hconcat⟩
  · rw [hnil] at hn
    rw [List.mem_singleton.mp hn]
    simp [last, hnil]
  · have heq : c.last = m := by simp [last, hconcat]
    have hpair := h.ordered
    rw [hconcat, List.concat_eq_append, ← List.cons_append] at hpair
    rw [hconcat, List.concat_eq_append, ← List.cons_append, List.mem_append, List.mem_singleton] at hn
    rcases hn with hn | rfl
    · have := (List.pairwise_append.mp hpair).2.2 n hn m List.mem_cons_self
      rw [heq] at hlast ⊢
      omega
    · exact Nat.le_of_eq (by rw [heq])

theorem InOrder.of_mem_prefixes {c p : Chain} (h : c.InOrder) (hp : p ∈ c.prefixes) :
    p.InOrder ∧ p.root = c.root ∧ p.span.start = c.span.start ∧ p.span.stop ≤ c.span.stop := by
  obtain ⟨n, -, rfl⟩ := (mem_prefixes_iff c p).mp hp
  have htake := h.take n
  refine ⟨htake, rfl, by rw [htake.span_eq, h.span_eq], ?_⟩
  rw [htake.span_eq, h.span_eq]
  apply h.stop_le_last
  rcases List.mem_cons.mp (last_mem { c with members := c.members.take n }) with heq | hmem
  · rw [heq]
    exact List.mem_cons_self
  · exact List.mem_cons_of_mem _ (List.mem_of_mem_take hmem)

end Chain

/-! ## The chains of a walk -/

namespace Event

def chain? : Event → Option Chain
  | .chain c => some c
  | _ => none

def chains (events : List Event) : List Chain := events.filterMap chain?

theorem chain?_eq_some_iff {event : Event} {c : Chain} : event.chain? = some c ↔ event = .chain c := by
  cases event <;> simp [chain?]

@[simp]
theorem chains_append (a b : List Event) : chains (a ++ b) = chains a ++ chains b := by
  simp [chains]

theorem mem_chains_iff (events : List Event) (c : Chain) : c ∈ chains events ↔ Event.chain c ∈ events := by
  simp [chains, chain?_eq_some_iff]

theorem chains_declares (names : List Name) (kind : DeclarationKind) :
    chains (names.map (Event.declare · kind)) = [] := by
  induction names with
  | nil => rfl
  | cons n names ih => exact ih

/-! ## Spans -/

/-- The text that an event stands for. A declaration is not reported where its name stands. -/
def textSpan? : Event → Option Span
  | .enter span _ => some span
  | .exit span => some span
  | .declare _ _ => none
  | .chain c => some c.span

def spans (events : List Event) : List Span := events.filterMap textSpan?

theorem spans_declares (names : List Name) (kind : DeclarationKind) :
    spans (names.map (Event.declare · kind)) = [] := by
  simp [spans, List.filterMap_map, Function.comp_def, textSpan?]

theorem map_span_chains_sublist (events : List Event) : ((chains events).map Chain.span).Sublist (spans events) := by
  induction events with
  | nil => exact .slnil
  | cons event events ih =>
    cases event with
    | enter span _ => exact ih.cons span
    | exit span => exact ih.cons span
    | declare _ _ => exact ih
    | chain c => exact ih.cons_cons c.span

end Event

namespace Walker

open Event

theorem members_sublist (ts : List Token) :
    (members ts ++ ts.drop (2 * (members ts).length)).Sublist ts := by
  fun_induction members ts with
  | case1 point t ts _ ih =>
    simp only [List.length_cons, Nat.mul_add, Nat.mul_one, List.cons_append, List.drop_succ_cons]
    exact (ih.cons_cons t).cons point
  | case2 => simp
  | case3 => simp

theorem isName_of_mem_members (ts : List Token) : ∀ t ∈ members ts, t.isName = true := by
  fun_induction members ts with
  | case1 point t ts h ih =>
    intro u hu
    rcases List.mem_cons.mp hu with rfl | hu
    · simp only [Bool.and_eq_true] at h
      exact h.2
    · exact ih u hu
  | case2 => simp
  | case3 => simp

theorem isName_of_isIdentifier {t : Token} (h : t.isIdentifier = true) : t.isName = true := by
  unfold Token.isIdentifier Kind.isIdentifier at h
  rw [Token.isName_eq]
  split at h
  · rename_i hkind
    rw [hkind]
    rfl
  · cases h

theorem inOrder_chainAt {lines : LineIndex} {t : Token} {rest : List Token} (h : Token.InOrder (t :: rest))
    (hname : t.isIdentifier = true) : (chainAt lines t rest).InOrder := by
  have hsub : (t :: members rest).Sublist (t :: rest) :=
    ((List.sublist_append_left _ _).trans (members_sublist rest)).cons_cons t
  have hin := h.sublist hsub
  have hall : ∀ u ∈ t :: members rest, u.isName = true := by
    intro u hu
    rcases List.mem_cons.mp hu with rfl | hu
    · exact isName_of_isIdentifier hname
    · exact isName_of_mem_members rest u hu
  have heq : (chainAt lines t rest).root :: (chainAt lines t rest).members =
      (t :: members rest).map (nameOf lines) := rfl
  constructor
  · rw [heq]
    exact List.pairwise_map.mpr hin.ordered
  · rw [heq]
    exact List.forall_mem_map.mpr hin.nonempty
  · rw [heq]
    exact List.forall_mem_map.mpr fun u hu => hin.plain u hu (hall u hu)

theorem stop_chainAt_le {lines : LineIndex} {t : Token} {rest : List Token} (hts : Token.InOrder (t :: rest))
    (hname : t.isIdentifier = true) :
    ∀ u ∈ rest.drop (2 * (members rest).length), (chainAt lines t rest).span.stop ≤ u.span.start := by
  intro u hu
  have hsub := (members_sublist rest).cons_cons t
  rw [← List.cons_append] at hsub
  have hpair := (List.pairwise_append.mp (hts.sublist hsub).ordered).2.2
  have hlast : (chainAt lines t rest).last ∈ (t :: members rest).map (nameOf lines) := Chain.last_mem _
  obtain ⟨v, hv, hlast⟩ := List.mem_map.mp hlast
  rw [(inOrder_chainAt hts hname).span_eq, ← hlast]
  exact hpair v hv u hu

/-- What a walk over tokens in order says of its events. Each span starts with one of the tokens, so that
all of them lie behind whatever the tokens lie behind. -/
structure EventsInOrder (ts : List Token) (events : List Event) : Prop where
  chains : ∀ c ∈ chains events, c.InOrder
  nonempty : ∀ s ∈ spans events, s.start < s.stop
  start : ∀ s ∈ spans events, ∃ t ∈ ts, t.span.start = s.start
  ordered : (spans events).Pairwise fun a b => a.stop ≤ b.start

section

variable {ts us : List Token} {events more : List Event}

theorem EventsInOrder.start_of_chain (h : EventsInOrder ts events) {c : Chain} (hc : c ∈ Event.chains events) :
    ∃ t ∈ ts, t.span.start = c.span.start :=
  h.start _ ((map_span_chains_sublist events).subset (List.mem_map_of_mem hc))

theorem EventsInOrder.chains_ordered (h : EventsInOrder ts events) :
    (Event.chains events).Pairwise fun a b => a.span.stop ≤ b.span.start :=
  List.pairwise_map.mp (h.ordered.sublist (map_span_chains_sublist events))

theorem EventsInOrder.silent (h : EventsInOrder ts more) (hsub : ts.Sublist us) (hevents : spans events = []) :
    EventsInOrder us (events ++ more) := by
  have hspans : spans (events ++ more) = spans more := by
    rw [spans, List.filterMap_append, ← spans, hevents]
    rfl
  have hchains : Event.chains events = [] := by
    have hsub := map_span_chains_sublist events
    rw [hevents, List.sublist_nil, List.map_eq_nil_iff] at hsub
    exact hsub
  refine ⟨?_, ?_, ?_, ?_⟩
  · rw [chains_append, hchains]
    exact h.chains
  all_goals rw [hspans]
  · exact h.nonempty
  · intro s hs
    obtain ⟨t, ht, hstart⟩ := h.start s hs
    exact ⟨t, hsub.subset ht, hstart⟩
  · exact h.ordered

theorem EventsInOrder.first {t : Token} {s : Span} (h : EventsInOrder ts more) (hsub : ts.Sublist us)
    (hevents : spans events = [s]) (hchains : ∀ c ∈ Event.chains events, c.InOrder)
    (hstart : s.start = t.span.start) (hnonempty : s.start < s.stop) (hstop : ∀ u ∈ ts, s.stop ≤ u.span.start) :
    EventsInOrder (t :: us) (events ++ more) := by
  have hspans : spans (events ++ more) = s :: spans more := by
    rw [spans, List.filterMap_append, ← spans, hevents]
    rfl
  refine ⟨?_, ?_, ?_, ?_⟩
  · rw [chains_append]
    exact List.forall_mem_append.mpr ⟨hchains, h.chains⟩
  all_goals rw [hspans]
  · exact List.forall_mem_cons.mpr ⟨hnonempty, h.nonempty⟩
  · refine List.forall_mem_cons.mpr ⟨⟨t, List.mem_cons_self, hstart.symm⟩, ?_⟩
    intro s hs
    obtain ⟨u, hu, hstart⟩ := h.start s hs
    exact ⟨u, List.mem_cons_of_mem _ (hsub.subset hu), hstart⟩
  · refine List.pairwise_cons.mpr ⟨?_, h.ordered⟩
    intro b hb
    obtain ⟨u, hu, hstart⟩ := h.start b hb
    rw [← hstart]
    exact hstop u hu

end

theorem eventsInOrder {lines : LineIndex} {walker : Walker} {prev : Option Token} {ts : List Token}
    {events : List Event} (h : Walker.events lines walker prev ts = .ok events) (hts : Token.InOrder ts) :
    EventsInOrder ts events := by
  refine events_induction (P := fun _ ts events => Token.InOrder ts → EventsInOrder ts events) ?_ ?_ h hts
  · intro walker _ _
    exact ⟨by simp [Event.chains], by simp [spans], by simp [spans], .nil⟩
  · intro walker t rest step more hmoves ih hts
    have hsub : (rest.drop step.skip).Sublist rest := List.drop_sublist _ _
    have hmore := ih (hts.sublist (hsub.trans (List.sublist_cons_self t rest)))
    have hnonempty := hts.nonempty t List.mem_cons_self
    have hbehind : ∀ u ∈ rest, t.span.stop ≤ u.span.start := (List.pairwise_cons.mp hts.ordered).1
    cases hmoves with
    | enters kind names _ =>
      have hnone : Event.chains (.enter t.span kind :: names.map (.declare · .lexical)) = [] :=
        chains_declares names .lexical
      refine hmore.first hsub (congrArg (t.span :: ·) (spans_declares names .lexical)) ?_ rfl hnonempty hbehind
      dsimp only
      rw [hnone]
      exact fun _ hc => nomatch hc
    | leaves _ => exact hmore.first hsub rfl (fun _ hc => nomatch hc) rfl hnonempty hbehind
    | declares kind names _ => exact hmore.silent (hsub.cons t) (spans_declares names kind)
    | reads _ hname =>
      have hc : (chainAt lines t rest).InOrder := inOrder_chainAt hts hname
      have hstart : (chainAt lines t rest).span.start = t.span.start := by rw [hc.span_eq]; rfl
      exact hmore.first hsub rfl (List.forall_mem_singleton.mpr hc) hstart hc.start_lt_stop (stop_chainAt_le hts hname)

end Walker

/-! ## The events of a source -/

namespace Event

theorem eventsInOrder_ofSource {source : String} {events : List Event} (h : ofSource source = .ok events) :
    Walker.EventsInOrder ((Token.ofSource source).filter fun t => t.kind ≠ .eof) events := by
  unfold ofSource at h
  dsimp only at h
  split at h
  · cases h
  · rename_i hvalid
    exact Walker.eventsInOrder h (Token.inOrder_ofSource source hvalid)

theorem chains_ofSource {source : String} {events : List Event} (h : ofSource source = .ok events) :
    (∀ c ∈ chains events, c.InOrder) ∧ (chains events).Pairwise fun a b => a.span.stop ≤ b.span.start :=
  ⟨(eventsInOrder_ofSource h).chains, (eventsInOrder_ofSource h).chains_ordered⟩

theorem exists_start_of_chain {source : String} {events : List Event} (h : ofSource source = .ok events) {c : Chain}
    (hc : c ∈ chains events) : ∃ t ∈ Token.ofSource source, t.span.start = c.span.start := by
  obtain ⟨t, ht, hstart⟩ := (eventsInOrder_ofSource h).start_of_chain hc
  exact ⟨t, (List.mem_filter.mp ht).1, hstart⟩

end Event

end Nodeless
