import Nodeless.Proofs.Build.Hook

/-!
# Where hooks lead

A hook leads from the draft that it finds to the draft that it leaves, whether it fails or not. What
each handler keeps to on that way, the whole parse keeps to.
-/

namespace Nodeless

/-- A relation that drafts have to themselves and carry on from one to the next. -/
structure Draft.Carries (R : Draft → Draft → Prop) : Prop where
  refl : ∀ draft, R draft draft
  trans : ∀ {a b c}, R a b → R b c → R a c

variable {site : Site} {R : Draft → Draft → Prop}

namespace Hook

variable {α β : Type}

/-- However the hook ends, the draft that it finds stands in the relation to the one that it leaves. -/
def Leads (hook : Hook α) (site : Site) (R : Draft → Draft → Prop) : Prop :=
  ∀ draft, R draft (hook.run site draft).2

theorem leads_pure (hR : Draft.Carries R) (a : α) : Leads (pure a) site R := fun draft => hR.refl draft

theorem leads_throw (hR : Draft.Carries R) (e : BuildError) : Leads (throw e : Hook α) site R :=
  fun draft => hR.refl draft

theorem Leads.bind (hR : Draft.Carries R) {hook : Hook α} {next : α → Hook β} (hhook : hook.Leads site R)
    (hnext : ∀ a, (next a).Leads site R) : (hook >>= next).Leads site R := by
  intro draft
  have hfirst := hhook draft
  rw [run_bind]
  generalize hook.run site draft = outcome at hfirst ⊢
  rcases outcome with ⟨_ | a, after⟩
  · exact hfirst
  · exact hR.trans hfirst (hnext a after)

theorem leads_replace (hR : Draft.Carries R)
    (hdependencies : ∀ draft dependencies, R draft { draft with dependencies }) (text : String) (span : Span)
    (location : Option Location) : Leads (replace text span location) site R := by
  intro draft
  cases hm : site.module with
  | none =>
    rw [run_replace_of_none hm]
    exact hR.refl draft
  | some m =>
    cases hconflict : Module.conflict? draft.dependencies span with
    | none =>
      rw [run_replace_of_clear hm hconflict]
      exact hdependencies draft _
    | some taken =>
      rw [run_replace_of_conflict hm hconflict]
      exact hR.refl draft

theorem leads_warn (hR : Draft.Carries R) (hwarnings : ∀ draft warnings, R draft { draft with warnings })
    (message : String) (location : Option Location) : Leads (warn message location) site R := by
  intro draft
  cases hm : site.module with
  | none =>
    simp only [warn, run_bind, run_read, hm, run_pure]
    exact hR.refl draft
  | some m =>
    rw [run_warn hm]
    exact hwarnings draft _

end Hook

namespace Recognizer

variable {r : Recognizer}

theorem leads_offer (hR : Draft.Carries R) (chain : Chain) {handlers : List Handler}
    (h : ∀ handler ∈ handlers, (handler chain).Leads site R) : (offer chain handlers).Leads site R := by
  induction handlers with
  | nil => exact Hook.leads_pure hR _
  | cons handler handlers ih =>
    obtain ⟨hhandler, hhandlers⟩ := List.forall_mem_cons.mp h
    refine hhandler.bind hR ?_
    rintro (_ | _)
    · exact Hook.leads_pure hR _
    · exact ih hhandlers

theorem leads_offerEach (hR : Draft.Carries R)
    (h : ∀ entry ∈ r.handlers, ∀ chain, (entry.2 chain).Leads site R) (chains : List Chain) :
    (r.offerEach chains).Leads site R := by
  induction chains with
  | nil => exact Hook.leads_pure hR _
  | cons chain chains ih =>
    have hone : (offer chain (r.handlersFor chain.path)).Leads site R := by
      refine leads_offer hR chain fun handler hmem => ?_
      obtain ⟨entry, hentry, rfl⟩ := List.mem_map.mp hmem
      exact h entry (List.mem_filter.mp hentry).1 chain
    refine hone.bind hR ?_
    rintro (_ | _)
    · exact Hook.leads_pure hR _
    · exact ih

theorem leads_dispatch (hR : Draft.Carries R)
    (h : ∀ entry ∈ r.handlers, ∀ chain, (entry.2 chain).Leads site R) (chain : Chain) :
    (r.dispatch chain).Leads site R := by
  intro draft
  rw [dispatch, Hook.run_bind_of_ok (Hook.run_get site draft)]
  split
  · exact hR.refl draft
  · exact leads_offerEach hR h chain.prefixes draft

theorem leads_parse (hR : Draft.Carries R) (h : ∀ entry ∈ r.handlers, ∀ chain, (entry.2 chain).Leads site R)
    (hscope : ∀ draft scope, R draft { draft with scope }) (source : String) : (r.parse source).Leads site R := by
  have hevents (events : List Event) : (r.parseEvents events).Leads site R := by
    induction events with
    | nil => exact Hook.leads_pure hR _
    | cons event events ih =>
      cases event with
      | chain chain => exact (leads_dispatch hR h chain).bind hR fun _ => ih
      | enter | exit | declare =>
        intro draft
        rw [run_parseEvents_other r site rfl]
        exact hR.trans (hscope draft _) (ih _)
  unfold parse
  split
  · exact Hook.leads_throw hR _
  · exact hevents _

end Recognizer

end Nodeless
