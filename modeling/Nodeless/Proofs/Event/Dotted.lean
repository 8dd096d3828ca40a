import Mathlib.Data.List.Chain
import Nodeless.Proofs.Event.Fates
import Nodeless.Proofs.Event.Paths
import Nodeless.Proofs.Event.Reached
import Nodeless.Proofs.Token.Hashbang

/-!
# Chains as they are written

A chain is read off a name and the members behind it, as far as points and names go on. Its span, its
location, its names and its path are put together one by one, but they describe the same piece of the
source, and so do those of every chain that it starts with.
-/

namespace Nodeless

open Source

/-! ## Points and names -/

namespace Token

/-- The tokens of members: each of the names has a single point in front of it. -/
inductive Dotted : List Token → List Token → Prop
  | nil : Dotted [] []
  | cons {point t : Token} {names ts : List Token} (isPoint : point.kind = .dot) (isName : t.isName = true)
      (more : Dotted names ts) : Dotted (t :: names) (point :: t :: ts)

theorem Dotted.getLastD_eq {names ts : List Token} (h : Dotted names ts) (root : Token) :
    ts.getLastD root = names.getLastD root := by
  induction h generalizing root with
  | nil => rfl
  | cons _ _ _ ih => simp only [List.getLastD_cons, ih]

end Token

namespace Walker

theorem dotted_members (ts : List Token) {n : Nat} (hn : n ≤ (members ts).length) :
    Token.Dotted ((members ts).take n) (ts.take (2 * n)) := by
  fun_induction members ts generalizing n with
  | case1 point t ts hmember ih =>
    rw [Bool.and_eq_true, decide_eq_true_eq] at hmember
    cases n with
    | zero => exact .nil
    | succ n => exact .cons hmember.1 hmember.2 (ih (Nat.le_of_succ_le_succ hn))
  | case2 | case3 =>
    rw [Nat.le_zero.mp hn]
    exact .nil

theorem not_member_behind_members (ts : List Token) {point t : Token} {more : List Token}
    (h : ts.drop (2 * (members ts).length) = point :: t :: more) : ¬(point.kind = .dot ∧ t.isName = true) := by
  fun_induction members ts with
  | case1 _ _ _ _ ih => exact ih h
  | case2 first second ts hmember =>
    obtain ⟨rfl, rfl, -⟩ : first = point ∧ second = t ∧ ts = more := by simpa using h
    simpa using hmember
  | case3 ts hshort => exact absurd h (hshort point t more)

end Walker

/-! ## Where a chain stands -/

namespace Token

variable {front inside behind : List Token} {first : Token}

theorem InOrder.stop_le_getLastD (h : InOrder (first :: inside)) :
    ∀ t ∈ first :: inside, t.span.stop ≤ (inside.getLastD first).span.stop := by
  rcases List.eq_nil_or_concat inside with rfl | ⟨middle, last, rfl⟩
  · simp
  · rw [List.concat_eq_append] at h ⊢
    rw [List.getLastD_concat, ← List.cons_append]
    rw [← List.cons_append] at h
    have hbefore := (List.pairwise_append.mp h.ordered).2.2
    have hlast := h.nonempty last (by simp)
    intro t ht
    rcases List.mem_append.mp ht with ht | ht
    · have hle := hbefore t ht last List.mem_cons_self
      omega
    · rw [List.mem_singleton.mp ht]

theorem InOrder.filter_covers (h : InOrder (front ++ (first :: inside) ++ behind)) :
    (front ++ (first :: inside) ++ behind).filter
        (fun t => Span.covers ⟨first.span.start, (inside.getLastD first).span.stop⟩ t.span) = first :: inside := by
  obtain ⟨hfronted, -, hbehind⟩ := List.pairwise_append.mp h.ordered
  obtain ⟨-, hordered, hfront⟩ := List.pairwise_append.mp hfronted
  have hinside : InOrder (first :: inside) := h.sublist (by simp)
  have hlast : inside.getLastD first ∈ first :: inside := List.getLastD_mem_cons
  rw [List.filter_append, List.filter_append, List.filter_eq_nil_iff.mpr, List.filter_eq_self.mpr,
    List.filter_eq_nil_iff.mpr, List.append_nil, List.nil_append]
  · intro t ht
    have hle := hbehind _ (List.mem_append_right front hlast) t ht
    have hnonempty := h.nonempty t (List.mem_append_right _ ht)
    simp only [Span.covers, Bool.and_eq_true, decide_eq_true_eq]
    omega
  · intro t ht
    have hstop := hinside.stop_le_getLastD t ht
    have hstart : first.span.start ≤ t.span.start := by
      rcases List.mem_cons.mp ht with rfl | ht
      · exact Nat.le_refl _
      · have hle := (List.pairwise_cons.mp hordered).1 t ht
        have hnonempty := hinside.nonempty first List.mem_cons_self
        omega
    simp only [Span.covers, Bool.and_eq_true, decide_eq_true_eq]
    exact ⟨hstart, hstop⟩
  · intro t ht
    have hle := hfront t ht first List.mem_cons_self
    have hnonempty := h.nonempty t (by simp [ht])
    simp only [Span.covers, Bool.and_eq_true, decide_eq_true_eq]
    omega

theorem InOrder.filter_behind (h : InOrder (front ++ (first :: inside) ++ behind)) :
    (front ++ (first :: inside) ++ behind).filter (fun t => (inside.getLastD first).span.stop ≤ t.span.start) =
      behind := by
  obtain ⟨hfronted, -, hbehind⟩ := List.pairwise_append.mp h.ordered
  have hinside : InOrder (first :: inside) := h.sublist (by simp)
  have hlast : inside.getLastD first ∈ first :: inside := List.getLastD_mem_cons
  have hfirst := hinside.stop_le_getLastD first List.mem_cons_self
  have hfirst' := hinside.nonempty first List.mem_cons_self
  rw [List.filter_append, List.filter_eq_nil_iff.mpr, List.filter_eq_self.mpr, List.nil_append]
  · intro t ht
    exact decide_eq_true (hbehind _ (List.mem_append_right front hlast) t ht)
  · intro t ht
    have hnonempty := h.nonempty t (List.mem_append_left _ ht)
    rw [decide_eq_true_eq]
    rcases List.mem_append.mp ht with ht | ht
    · have hle := (List.pairwise_append.mp hfronted).2.2 t ht first List.mem_cons_self
      omega
    · have hle := hinside.stop_le_getLastD t ht
      omega

end Token

namespace Chain

/-- How a chain stands in a source. -/
structure StandsIn (source : String) (c : Chain) : Prop where
  /-- From the root to the end of the last name. -/
  span : c.span = ⟨c.root.span.start, c.last.span.stop⟩
  location : c.location = (LineIndex.ofChars source.toList).location c.span
  text : ∀ name ∈ c.root :: c.members, Boundary source.toList name.span.start ∧
    Boundary source.toList name.span.stop ∧ name.span.slice source.toList = name.text.toList
  /-- The tokens in the span are those of the names, with a single point in front of each but the root. -/
  tokens : ∃ root names ts,
    (Token.walked source).filter (fun t => c.span.covers t.span) = root :: ts ∧ Token.Dotted names ts ∧
      root.isIdentifier = true ∧ c.root = Walker.nameOf (LineIndex.ofChars source.toList) root ∧
      c.members = names.map (Walker.nameOf (LineIndex.ofChars source.toList))

end Chain

/-! ## Chains of a walk -/

namespace Walker

/-- The chain at a token, as far as its first `n` members. -/
def chainUpTo (lines : LineIndex) (t : Token) (rest : List Token) (n : Nat) : Chain :=
  ⟨nameOf lines t, ((members rest).take n).map (nameOf lines)⟩

section

variable {lines : LineIndex} {t : Token} {rest : List Token} {n : Nat}

theorem chainUpTo_eq (lines : LineIndex) (t : Token) (rest : List Token) (n : Nat) :
    chainUpTo lines t rest n = { chainAt lines t rest with members := (chainAt lines t rest).members.take n } := by
  rw [chainUpTo, List.map_take]
  rfl

theorem chainUpTo_length (lines : LineIndex) (t : Token) (rest : List Token) :
    chainUpTo lines t rest (members rest).length = chainAt lines t rest := by
  rw [chainUpTo, List.take_length]
  rfl

theorem mem_prefixes_chainAt_iff {p : Chain} :
    p ∈ (chainAt lines t rest).prefixes ↔ ∃ n ≤ (members rest).length, p = chainUpTo lines t rest n := by
  simp only [Chain.mem_prefixes_iff, chainUpTo_eq, chainAt, List.length_map]

theorem root_cons_members_chainUpTo : (chainUpTo lines t rest n).root :: (chainUpTo lines t rest n).members =
    (t :: (members rest).take n).map (nameOf lines) := rfl

theorem last_chainUpTo (hn : n ≤ (members rest).length) :
    (chainUpTo lines t rest n).last = nameOf lines ((rest.take (2 * n)).getLastD t) := by
  rw [Chain.last, chainUpTo, List.getLastD_map, (dotted_members rest hn).getLastD_eq]

theorem span_chainUpTo (hts : Token.InOrder (t :: rest)) (hname : t.isIdentifier = true)
    (hn : n ≤ (members rest).length) :
    (chainUpTo lines t rest n).span = ⟨t.span.start, ((rest.take (2 * n)).getLastD t).span.stop⟩ := by
  have hin : (chainUpTo lines t rest n).InOrder := chainUpTo_eq lines t rest n ▸ (inOrder_chainAt hts hname).take n
  rw [hin.span_eq, last_chainUpTo hn]
  rfl

end

theorem Run.exists_chainAt {lines : LineIndex} {place : Place} {settled : List (Token × Option Fate)}
    {events : List Event} (h : Run lines place settled events) :
    ∀ c ∈ Event.chains events,
      ∃ front t rest, place.ahead = front ++ t :: rest ∧ t.isIdentifier = true ∧ c = chainAt lines t rest := by
  induction h with
  | done =>
    intro c hc
    cases hc
  | @turn walker prev t rest step settled events hstep _ ih =>
    intro c hc
    rw [Event.chains_append] at hc
    rcases List.mem_append.mp hc with hc | hc
    · obtain ⟨hname, hchain, -⟩ := (turn_of_step hstep).chain c hc
      exact ⟨[], t, rest, rfl, hname, hchain⟩
    · obtain ⟨front, u, us, hahead, hname, hchain⟩ := ih c hc
      refine ⟨t :: rest.take step.skip ++ front, u, us, ?_, hname, hchain⟩
      rw [List.append_assoc, ← hahead, Step.place, List.cons_append, List.take_append_drop]

section

variable {source : String} {front rest : List Token} {t : Token}

theorem text_nameOf (ht : t ∈ Token.walked source) (lines : LineIndex) :
    Boundary source.toList (nameOf lines t).span.start ∧ Boundary source.toList (nameOf lines t).span.stop ∧
      (nameOf lines t).span.slice source.toList = (nameOf lines t).text.toList := by
  obtain ⟨_, hplaced⟩ := (Lexer.laid_ofChars source.toList).exists_placed t (List.mem_of_mem_filter ht)
  exact ⟨hplaced.start, hplaced.stop, hplaced.text⟩

theorem walked_eq_around (htokens : Token.walked source = front ++ t :: rest) (n : Nat) :
    Token.walked source = front ++ (t :: rest.take n) ++ rest.drop n := by
  rw [htokens, List.append_assoc, List.cons_append, List.take_append_drop]

variable (hts : Token.InOrder (Token.walked source)) (htokens : Token.walked source = front ++ t :: rest)
  (hname : t.isIdentifier = true)

include hts htokens hname

theorem standsIn_chainUpTo {n : Nat} (hn : n ≤ (members rest).length) :
    (chainUpTo (LineIndex.ofChars source.toList) t rest n).StandsIn source := by
  have hsplit := walked_eq_around htokens (2 * n)
  have hahead : Token.InOrder (t :: rest) := hts.sublist (htokens ▸ List.sublist_append_right _ _)
  have hspan := @span_chainUpTo (LineIndex.ofChars source.toList) t rest n hahead hname hn
  have hlast := @last_chainUpTo (LineIndex.ofChars source.toList) t rest n hn
  refine ⟨?_, ?_, ?_, t, (members rest).take n, rest.take (2 * n), ?_, dotted_members rest hn, hname, rfl, rfl⟩
  · rw [hspan, hlast]
    rfl
  · rw [hspan, Chain.location, hlast]
    rfl
  · have hsub : (t :: (members rest).take n).Sublist (t :: rest) :=
      ((List.take_sublist n _).trans ((List.sublist_append_left _ _).trans (members_sublist rest))).cons_cons t
    rw [root_cons_members_chainUpTo]
    refine List.forall_mem_map.mpr fun u hu => text_nameOf ?_ _
    exact htokens ▸ List.mem_append_right front (hsub.subset hu)
  · rw [hspan, hsplit]
    exact (hsplit ▸ hts).filter_covers

theorem filter_behind_chainAt (lines : LineIndex) :
    (Token.walked source).filter (fun u => (chainAt lines t rest).span.stop ≤ u.span.start) =
      rest.drop (2 * (members rest).length) := by
  have hsplit := walked_eq_around htokens (2 * (members rest).length)
  have hahead : Token.InOrder (t :: rest) := hts.sublist (htokens ▸ List.sublist_append_right _ _)
  rw [← chainUpTo_length, span_chainUpTo hahead hname (Nat.le_refl _), hsplit]
  exact (hsplit ▸ hts).filter_behind

end

end Walker

/-! ## Shorter chains -/

namespace Chain

/-- A chain with one name more than another. -/
structure Extends (c shorter : Chain) : Prop where
  object : c.object? = some shorter
  names : c.names = shorter.names ++ [c.last.text]
  path : c.path = shorter.path ++ "." ++ c.last.text

theorem extends_snoc (root m : Name) (ms : List Name) : Extends ⟨root, ms ++ [m]⟩ ⟨root, ms⟩ := by
  have hlast : last ⟨root, ms ++ [m]⟩ = m := List.getLastD_concat
  refine ⟨?_, ?_, ?_⟩
  · simp [object?]
  · rw [hlast, names_snoc]
  · rw [hlast, path_snoc]

theorem prefixes_descend (c : Chain) :
    c.prefixes.head? = some c ∧ c.prefixes.IsChain Extends ∧ c.prefixes.getLast? = some ⟨c.root, []⟩ := by
  obtain ⟨root, members⟩ := c
  induction members using List.reverseRecOn with
  | nil => exact ⟨rfl, .singleton _, rfl⟩
  | append_singleton ms m ih =>
    obtain ⟨hhead, hchain, hlast⟩ := ih
    rw [prefixes_snoc]
    refine ⟨rfl, hchain.cons fun p hp => ?_, ?_⟩
    · rw [hhead] at hp
      rw [← Option.some.inj hp]
      exact extends_snoc root m ms
    · rw [List.getLast?_cons, hlast]
      rfl

/-- A chain as it is written in a source, with the shorter chains that it starts with. -/
structure Written (source : String) (c : Chain) : Prop where
  descends : c.prefixes.head? = some c ∧ c.prefixes.IsChain Extends ∧ c.prefixes.getLast? = some ⟨c.root, []⟩
  stands : ∀ p ∈ c.prefixes, p.StandsIn source
  /-- The path is the names with points between them, and no names but these have it in any source. -/
  path : ∀ p ∈ c.prefixes, p.path = ".".intercalate p.names ∧
    ∀ other events, Event.ofSource other = .ok events → ∀ d ∈ Event.chains events, ∀ q ∈ d.prefixes,
      (p.path = q.path ↔ p.names = q.names)
  /-- The tokens behind the chain do not start with a point and a name. -/
  maximal : ∀ point t more,
    (Token.walked source).filter (fun t => c.span.stop ≤ t.span.start) = point :: t :: more →
      ¬(point.kind = .dot ∧ t.isName = true)

end Chain

namespace Event

open Walker

/-- Whatever a walk that succeeds reports as a chain is a chain as it is written in the source. -/
theorem chains_written {source : String} {events : List Event} (h : ofSource source = .ok events) :
    ∀ c ∈ chains events, c.Written source := by
  obtain ⟨hts, settled, hrun⟩ := exists_run h
  intro c hc
  have hin := (chains_ofSource h).1 c hc
  obtain ⟨front, t, rest, htokens, hname, rfl⟩ := hrun.exists_chainAt c hc
  refine ⟨Chain.prefixes_descend _, ?_, ?_, ?_⟩
  · intro p hp
    obtain ⟨n, hn, rfl⟩ := mem_prefixes_chainAt_iff.mp hp
    exact standsIn_chainUpTo hts htokens hname hn
  · refine fun p hp => ⟨rfl, fun other events' hother d hd q hq => ?_⟩
    have hp' := (hin.of_mem_prefixes hp).1
    have hq' := (((chains_ofSource hother).1 d hd).of_mem_prefixes hq).1
    exact hq'.path_eq_iff hp'.undotted
  · intro point u more hbehind
    rw [filter_behind_chainAt hts htokens hname] at hbehind
    exact not_member_behind_members rest hbehind

/-- A comment, a line feed and a blank stand between the names of the chain. -/
theorem chains_written_across_lines :
    let chain : Chain := ⟨⟨"é", ⟨0, 2⟩, ⟨⟨1, 0⟩, ⟨1, 1⟩⟩⟩,
      [⟨"a", ⟨3, 4⟩, ⟨⟨1, 2⟩, ⟨1, 3⟩⟩⟩, ⟨"if", ⟨16, 18⟩, ⟨⟨2, 4⟩, ⟨2, 6⟩⟩⟩]⟩
    ofSource "é.a/* . */\n  . if().b" = .ok [.chain chain] ∧ chain.Written "é.a/* . */\n  . if().b" := by
  intro chain
  have hsource : ofSource "é.a/* . */\n  . if().b" = .ok [.chain chain] := by decide +kernel
  exact ⟨hsource, chains_written hsource chain List.mem_cons_self⟩

end Event

end Nodeless
