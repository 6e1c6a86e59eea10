import OmniRoute.Lib.Trace

/-!
# What a run lets its caller see

The replies of an event-driven program along a run, and when two of its states cannot be told
apart by any run. An event that cannot happen is seen not to happen.

* `indistinguishable_of_bisimulation`: states related by a relation that every step keeps, with
  equal replies, are indistinguishable.
* `Indistinguishable.exec`: indistinguishable states stay so along every run.
-/

namespace Trace

variable {σ ε ω : Type*} (step : σ → ε → Option σ) (out : σ → ε → σ → ω)

/-- The replies along a list of events; an event that is not enabled is skipped. -/
def responses : σ → List ε → List (Option ω)
  | _, [] => []
  | s, e :: es =>
      match step s e with
      | none => none :: responses s es
      | some s' => some (out s e s') :: responses s' es

/-- No list of events tells the two states apart by its replies. -/
def Indistinguishable (s t : σ) : Prop := ∀ es, responses step out s es = responses step out t es

variable {step out}

theorem responses_of_some {s s' : σ} {e : ε} (h : step s e = some s') (es : List ε) :
    responses step out s (e :: es) = some (out s e s') :: responses step out s' es := by
  simp only [responses, h]

theorem responses_of_none {s : σ} {e : ε} (h : step s e = none) (es : List ε) :
    responses step out s (e :: es) = none :: responses step out s es := by
  simp only [responses, h]

/-- The proof rule: it is enough that related states reply alike and step to related states. -/
theorem indistinguishable_of_bisimulation {rel : σ → σ → Prop}
    (hnone : ∀ s t e, rel s t → (step s e = none ↔ step t e = none))
    (hsome : ∀ s t e s' t', rel s t → step s e = some s' → step t e = some t' →
      out s e s' = out t e t' ∧ rel s' t') {s t : σ} (h : rel s t) :
    Indistinguishable step out s t := by
  intro es
  induction es generalizing s t with
  | nil => rfl
  | cons e es ih =>
    cases hs : step s e with
    | none => rw [responses_of_none hs, responses_of_none ((hnone s t e h).1 hs), ih h]
    | some s' =>
      cases ht : step t e with
      | none =>
        rw [(hnone s t e h).2 ht] at hs
        cases hs
      | some t' =>
        obtain ⟨hout, hrel⟩ := hsome s t e s' t' h hs ht
        rw [responses_of_some hs, responses_of_some ht, hout, ih hrel]

theorem Indistinguishable.out_eq {s t s' t' : σ} {e : ε} (h : Indistinguishable step out s t)
    (hs : step s e = some s') (ht : step t e = some t') : out s e s' = out t e t' := by
  have hes := h [e]
  rw [responses_of_some hs, responses_of_some ht] at hes
  exact Option.some.inj (List.cons.inj hes).1

theorem Indistinguishable.after {s t s' t' : σ} {e : ε} (h : Indistinguishable step out s t)
    (hs : step s e = some s') (ht : step t e = some t') : Indistinguishable step out s' t' := by
  intro es
  have hes := h (e :: es)
  rw [responses_of_some hs, responses_of_some ht] at hes
  exact (List.cons.inj hes).2

theorem Indistinguishable.exec {s t s' t' : σ} {es : List ε} (h : Indistinguishable step out s t)
    (hs : exec step s es = some s') (ht : exec step t es = some t') :
    Indistinguishable step out s' t' := by
  induction es generalizing s t with
  | nil =>
    cases hs
    cases ht
    exact h
  | cons e es ih =>
    obtain ⟨u, hu, hs⟩ := exec_cons.1 hs
    obtain ⟨v, hv, ht⟩ := exec_cons.1 ht
    exact ih (h.after hu hv) hs ht

end Trace
