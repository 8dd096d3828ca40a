import Nodeless.Proofs.Event.DeclarationLists
import Nodeless.Proofs.Event.Fates

/-!
# Where declared names are found

A token is taken as a declaration by the step that finds it: the name of the step itself, or a name
ahead of it that is outside of all brackets, or a parameter of the list that the step takes. No two
lists have a parameter in common, so a list finds its parameters free unless another step takes the
list itself.
-/

namespace Nodeless.Walker

/-! ## Lists that steps take -/

/-- The step at the token takes the parameters of the list, whose opening parenthesis comes first. -/
inductive Takes (walker : Walker) (prev : Option Token) (t : Token) (rest : List Token) : List Token → Prop
  | head (word : t.kind = .keyword .function ∨ t.kind = .keyword .«catch») :
    Takes walker prev t rest (headList t rest)
  | method (name : t.isIdentifier = true) (free : t.span.start ∉ walker.declared)
      (head : (methodHead? prev rest).isSome = true) : Takes walker prev t rest rest
  | arrow {inside after : List Token} {arrow : Token} (paren : t.kind = .leftParen)
      (close : splitAtClose 0 rest = some (inside, arrow :: after)) (isArrow : arrow.kind = .arrow) :
      Takes walker prev t rest (t :: rest)

/-- How the step at the token finds a name. -/
inductive Finds (walker : Walker) (prev : Option Token) (t : Token) (rest : List Token) : Token → Prop
  | self : Finds walker prev t rest t
  | ahead {before after : List Token} {p : Token} (split : rest = before ++ p :: after)
      (outside : nestingAfter 0 before = 0) : Finds walker prev t rest p
  | listed {before after : List Token} {opening p : Token} (paren : opening.kind = .leftParen)
      (takes : Takes walker prev t rest (opening :: (before ++ p :: after)))
      (outside : nestingAfter 0 before = 0) : Finds walker prev t rest p

section

variable {walker : Walker} {prev : Option Token} {t p opening : Token} {rest listed inside after body : List Token}
  {fate : Fate} {entry : Token × Option Fate}

theorem finds_of_settlesList {marked : Walker} (takes : Takes walker prev t rest (opening :: listed))
    (paren : opening.kind = .leftParen) (close : splitAtClose 0 listed = some (inside, after))
    (h : entry ∈ marked.settlesList opening inside body fate) : Finds walker prev t rest entry.1 := by
  obtain ⟨u, hu, rfl⟩ := List.mem_map.mp h
  obtain ⟨before, behind, rfl, -, houtside, -⟩ := mem_parameters_iff.mp (mem_undeclared_iff.mp hu).1
  obtain ⟨close, rfl, -⟩ := splitAtClose_eq_append close
  rw [List.append_assoc, List.cons_append] at takes
  exact .listed paren takes houtside

theorem finds_of_settlesHead {marked : Walker} {ts : List Token} (takes : Takes walker prev t rest ts)
    (h : entry ∈ marked.settlesHead fate ts) : Finds walker prev t rest entry.1 := by
  cases hhead : parenthesised ts with
  | none =>
    rw [settlesHead_of_none hhead] at h
    cases h
  | some split =>
    obtain ⟨opening, behind, rfl, hparen, hclose⟩ := parenthesised_eq_some hhead
    rw [settlesHead_of_some hhead] at h
    exact finds_of_settlesList takes hparen hclose h

theorem finds_of_firstName {before ts : List Token} (hrest : rest = before ++ ts) (hbefore : nestingAfter 0 before = 0)
    (h : p ∈ firstName ts) : Finds walker prev t rest p := by
  cases ts with
  | nil => cases h
  | cons u ts =>
    have hmem : p ∈ [u] := List.mem_of_mem_filter h
    rw [List.mem_singleton.mp hmem]
    exact .ahead hrest hbefore

theorem behindMark_eq (rest : List Token) : ∃ mark, rest = mark ++ behindMark rest ∧ nestingAfter 0 mark = 0 := by
  cases hmark : startsWith .operator rest with
  | true =>
    obtain ⟨mark, ts, rfl, hkind⟩ := startsWith_eq_true hmark
    refine ⟨[mark], by simp [behindMark, hmark], ?_⟩
    simp [Token.nestingBehind, hkind, Kind.opensBracket, Kind.closesBracket]
  | false => exact ⟨[], by simp [behindMark, hmark], rfl⟩

theorem mem_of_mem_reported {ts : List Token} (h : entry ∈ reported (walker.undeclared ts)) : entry.1 ∈ ts := by
  obtain ⟨u, hu, rfl⟩ := List.mem_map.mp h
  exact (mem_undeclared_iff.mp hu).1

theorem finds_of_mem_settles (h : entry ∈ walker.settles prev t rest) : Finds walker prev t rest entry.1 := by
  unfold settles at h
  split at h
  case h_1 hkind | h_2 hkind | h_3 hkind =>
    have hquiet : Quiet t := quiet_of_kind (by rw [hkind]; rfl) (by simp [hkind])
    obtain ⟨before, after, hsplit, -, -, hawaits⟩ :=
      (mem_declarators_iff fun _ => hquiet).mp (mem_of_mem_reported h)
    exact .ahead hsplit (nestingAfter_of_awaits hawaits)
  case h_4 => exact finds_of_firstName (List.nil_append rest).symm rfl (mem_of_mem_reported h)
  case h_5 hkind =>
    rcases List.mem_append.mp h with h | h
    · obtain ⟨mark, hrest, hmark⟩ := behindMark_eq rest
      exact finds_of_firstName hrest hmark (mem_of_mem_reported h)
    · exact finds_of_settlesHead (.head (.inl hkind)) h
  case h_6 hkind => exact finds_of_settlesHead (.head (.inr hkind)) h
  case h_7 hkind =>
    unfold settlesParen at h
    split at h
    · rename_i hclose
      split at h
      · rename_i harrow
        exact finds_of_settlesList (.arrow hkind hclose harrow) hkind hclose h
      · cases h
    · cases h
  case h_8 text hkind =>
    have hname : t.isIdentifier = true := by simp [Token.isIdentifier, hkind, Kind.isIdentifier]
    split at h
    · cases h
    · rename_i hfree
      split at h
      · rename_i hhead
        rcases List.mem_cons.mp h with rfl | h
        · exact .self
        · exact finds_of_settlesHead (.method hname (fun hmem => hfree (List.contains_iff_mem.mpr hmem)) hhead) h
      · have hself : entry.1 = t := by
          unfold settlesValue at h
          split at h
          · rw [List.mem_singleton.mp h]
          · split at h <;> rw [List.mem_singleton.mp h]
        exact hself ▸ .self
  case h_9 => cases h

/-! ## Steps in front of a place -/

theorem Turn.declared_subset {lines : LineIndex} {step : Step} {settled : List (Token × Option Fate)}
    (h : Turn walker lines prev t rest step settled) : walker.declared ⊆ step.walker.declared := by
  cases h with
  | declares => exact List.subset_append_right _ _
  | heads =>
    rw [list, declared_announce]
    exact List.Subset.trans (List.subset_append_right _ _) (List.subset_append_right _ _)
  | method | arrow =>
    rw [list, declared_announce]
    exact List.subset_append_right _ _
  | lone =>
    rw [declared_announce]
    exact List.Subset.refl _
  | _ => exact List.Subset.refl _

theorem Place.Reaches.declared_subset {lines : LineIndex} {a b : Place} (h : a.Reaches lines b) :
    a.walker.declared ⊆ b.walker.declared := by
  induction h with
  | refl => exact List.Subset.refl _
  | tail _ hsteps ih =>
    obtain ⟨t, rest, step, -, hstep, rfl⟩ := hsteps
    exact List.Subset.trans ih (turn_of_step hstep).declared_subset

theorem Place.Reaches.exists_settles {lines : LineIndex} {a b : Place} (h : a.Reaches lines b) {n : Nat}
    (hn : n ∈ b.walker.declared) : n ∈ a.walker.declared ∨ ∃ walker prev t rest step,
      a.Reaches lines ⟨walker, prev, t :: rest⟩ ∧ walker.step lines prev t rest = .ok step ∧
        (step.place t rest).Reaches lines b ∧ ∃ entry ∈ walker.settles prev t rest, entry.1.span.start = n := by
  induction h with
  | refl => exact .inl hn
  | @tail b c hreach hsteps ih =>
    obtain ⟨t, rest, step, hahead, hstep, rfl⟩ := hsteps
    rcases (turn_of_step hstep).declared n hn with hn | hentry
    · refine (ih hn).imp_right ?_
      rintro ⟨walker, prev, u, us, step', hfront, hstep', hback, hentry⟩
      exact ⟨walker, prev, u, us, step', hfront, hstep', hback.tail ⟨t, rest, step, hahead, hstep, rfl⟩, hentry⟩
    · refine .inr ⟨b.walker, b.prev, t, rest, step, ?_, hstep, .refl, hentry⟩
      rw [← hahead]
      exact hreach

end

end Nodeless.Walker
