import Mathlib

/-!
# Runs of an event-driven program

A single-threaded program reacts to one event at a time: a call, a timer, a settled promise.
Such a program is a partial step function `σ → ε → Option σ`, with `none` for an event that
cannot happen in the state (a timer that is not armed, a release of a permit nobody holds).
A run is a list of events fired from left to right.

These rules carry a fact about one step to a fact about a whole run:

* `exec_invariant`: what every step preserves holds at the end of every run.
* `exec_invariant_of_meets`: the same when only the steps that meet a condition preserve it.
* `throughout_iff_meets`: when a step from a good state is good exactly under a condition, a
  run is good throughout exactly when every step of it meets the condition;
  `throughout_iff_meets_of_meets` is the same for the runs of steps that meet another one.
* `meets_congr`: when two conditions agree on the steps from invariant states, runs meet both or
  neither; `meets_congr_of_meets` is the same when the invariant needs a condition itself.
* `meets_of_meets`: what the steps meeting a condition give, the runs meeting it meet.
-/

namespace Trace

open List Option

variable {σ ε : Type*} (step : σ → ε → Option σ)

/-- Fire the events left to right; `none` as soon as one is not enabled. -/
def exec : σ → List ε → Option σ
  | s, [] => some s
  | s, e :: es => (step s e).bind fun s' => exec s' es

/-- Every step of the run meets `ok` in the state it is fired from. -/
def Meets (ok : σ → ε → Prop) : σ → List ε → Prop
  | _, [] => True
  | s, e :: es => ∀ s', step s e = some s' → ok s e ∧ Meets ok s' es

/-- `P` holds in every state the run passes through, the first and the last included. -/
def Throughout (P : σ → Prop) : σ → List ε → Prop
  | s, [] => P s
  | s, e :: es => P s ∧ ∀ s', step s e = some s' → Throughout P s' es

variable {step}

instance decidableMeets {ok : σ → ε → Prop} [∀ s e, Decidable (ok s e)] :
    ∀ s es, Decidable (Meets step ok s es)
  | _, [] => .isTrue trivial
  | s, e :: es =>
    match h : step s e with
    | none => .isTrue (by simp [Meets, h])
    | some s' =>
      haveI : Decidable (Meets step ok s' es) := decidableMeets s' es
      decidable_of_iff (ok s e ∧ Meets step ok s' es) (by simp [Meets, h])

@[simp] theorem exec_nil (s : σ) : exec step s [] = some s := rfl

variable {es : List ε}

theorem exec_cons {s t : σ} {e : ε} :
    exec step s (e :: es) = some t ↔ ∃ s', step s e = some s' ∧ exec step s' es = some t := by
  simp [exec, bind_eq_some_iff]

theorem exec_append {s t : σ} {es fs : List ε} :
    exec step s (es ++ fs) = some t ↔ ∃ s', exec step s es = some s' ∧ exec step s' fs = some t := by
  induction es generalizing s with
  | nil => simp
  | cons e es ih =>
    simp only [cons_append, exec_cons, ih]
    constructor
    · rintro ⟨u, hu, s', hs', ht⟩
      exact ⟨s', ⟨u, hu, hs'⟩, ht⟩
    · rintro ⟨s', ⟨u, hu, hs'⟩, ht⟩
      exact ⟨u, hu, s', hs', ht⟩

variable {s : σ}

theorem meets_of_forall {A : ε → Prop} (h : ∀ e ∈ es, A e) : Meets step (fun _ e => A e) s es := by
  induction es generalizing s with
  | nil => trivial
  | cons e es ih =>
    exact fun s' _ => ⟨h e mem_cons_self, ih fun e' he' => h e' (mem_cons_of_mem _ he')⟩

theorem meets_true : Meets step (fun _ _ => True) s es :=
  meets_of_forall (A := fun _ => True) fun _ _ => trivial

variable {I : σ → Prop} {ok : σ → ε → Prop}

/-- What the steps meeting `ok` preserve holds at the end of every run of such steps. -/
theorem exec_invariant_of_meets (hstep : ∀ s e s', I s → ok s e → step s e = some s' → I s')
    {s t : σ} (hs : I s) (hok : Meets step ok s es) (h : exec step s es = some t) :
    I t := by
  induction es generalizing s with
  | nil =>
    simp only [exec_nil, some.injEq] at h
    exact h ▸ hs
  | cons e es ih =>
    obtain ⟨u, hu, ht⟩ := exec_cons.1 h
    obtain ⟨hse, hes⟩ := hok u hu
    exact ih (hstep s e u hs hse hu) hes ht

/-- What every step preserves, every run preserves. -/
theorem exec_invariant (hstep : ∀ s e s', I s → step s e = some s' → I s')
    {s t : σ} (hs : I s) (h : exec step s es = some t) : I t :=
  exec_invariant_of_meets (fun s e s' hs _ => hstep s e s' hs) hs meets_true h

theorem Meets.append {s t : σ} {es fs : List ε}
    (h : Meets step ok s (es ++ fs)) (hs : exec step s es = some t) :
    Meets step ok s es ∧ Meets step ok t fs := by
  induction es generalizing s with
  | nil =>
    simp only [exec_nil, some.injEq] at hs
    exact ⟨trivial, hs ▸ h⟩
  | cons e es ih =>
    obtain ⟨u, hu, ht⟩ := exec_cons.1 hs
    obtain ⟨hes, hfs⟩ := ih (h u hu).2 ht
    refine ⟨fun u' hu' => ?_, hfs⟩
    obtain rfl := some.inj (hu.symm.trans hu')
    exact ⟨(h u hu).1, hes⟩

theorem Throughout.head {P : σ → Prop} (h : Throughout step P s es) : P s := by
  cases es with
  | nil => exact h
  | cons e es => exact h.1

/-- A run through `Q`-states meets that its steps lead from `Q`-states to `Q`-states. -/
theorem Throughout.meets {Q : σ → Prop} (h : Throughout step Q s es) :
    Meets step (fun s e => Q s ∧ ∀ s', step s e = some s' → Q s') s es := by
  induction es generalizing s with
  | nil => trivial
  | cons e es ih => exact fun s' hs' => ⟨⟨h.1, fun t ht => (h.2 t ht).head⟩, ih (h.2 s' hs')⟩

/-- If, next to an invariant `I` of the steps that meet `cond`, such a step from a `P`-state ends in
a `P`-state exactly when it meets `ok`, then a run of such steps stays in `P` exactly when all its
steps meet `ok`. -/
theorem throughout_iff_meets_of_meets {I P : σ → Prop} {cond ok : σ → ε → Prop}
    (hI : ∀ s e s', I s → cond s e → step s e = some s' → I s')
    (hP : ∀ s e s', I s → cond s e → P s → step s e = some s' → (P s' ↔ ok s e))
    (hcond : Meets step cond s es) (hs : I s) (hPs : P s) :
    Throughout step P s es ↔ Meets step ok s es := by
  induction es generalizing s with
  | nil => exact ⟨fun _ => trivial, fun _ => hPs⟩
  | cons e es ih =>
    constructor
    · rintro ⟨-, hes⟩ s' hs'
      obtain ⟨hse, hrest⟩ := hcond s' hs'
      have hPs' : P s' := (hes s' hs').head
      exact ⟨(hP s e s' hs hse hPs hs').1 hPs',
        (ih hrest (hI s e s' hs hse hs') hPs').1 (hes s' hs')⟩
    · intro hok
      refine ⟨hPs, fun s' hs' => ?_⟩
      obtain ⟨hse, hrest⟩ := hcond s' hs'
      obtain ⟨hsok, hes⟩ := hok s' hs'
      exact (ih hrest (hI s e s' hs hse hs') ((hP s e s' hs hse hPs hs').2 hsok)).2 hes

/-- `throughout_iff_meets_of_meets` for the runs of the events of a class. -/
theorem throughout_iff_meets_of {I P : σ → Prop} {A : ε → Prop}
    (hI : ∀ s e s', I s → A e → step s e = some s' → I s')
    (hP : ∀ s e s', I s → A e → P s → step s e = some s' → (P s' ↔ ok s e))
    (hA : ∀ e ∈ es, A e) (hs : I s) (hPs : P s) :
    Throughout step P s es ↔ Meets step ok s es :=
  throughout_iff_meets_of_meets hI hP (meets_of_forall hA) hs hPs

/-- `throughout_iff_meets_of_meets` for all runs. -/
theorem throughout_iff_meets {I P : σ → Prop} (hI : ∀ s e s', I s → step s e = some s' → I s')
    (hP : ∀ s e s', I s → P s → step s e = some s' → (P s' ↔ ok s e))
    (es : List ε) (hs : I s) (hPs : P s) :
    Throughout step P s es ↔ Meets step ok s es :=
  throughout_iff_meets_of_meets (fun s e s' hs _ => hI s e s' hs) (fun s e s' hs _ => hP s e s' hs)
    meets_true hs hPs

section

variable (hI : ∀ s e s', I s → step s e = some s' → I s')
include hI

/-- What every step preserves holds throughout every run. -/
theorem throughout_of_invariant (es : List ε) (hs : I s) : Throughout step I s es := by
  induction es generalizing s with
  | nil => exact hs
  | cons e es ih => exact ⟨hs, fun s' hs' => ih (hI s e s' hs hs')⟩

omit hI in
theorem Throughout.mono {P Q : σ → Prop} (hPQ : ∀ s, P s → Q s)
    (h : Throughout step P s es) : Throughout step Q s es := by
  induction es generalizing s with
  | nil => exact hPQ s h
  | cons e es ih => exact ⟨hPQ s h.1, fun s' hs' => ih (h.2 s' hs')⟩

omit hI in
/-- Two conditions that agree on the steps that meet `cond`, if these keep `I`, are met by the same
runs of such steps. -/
theorem meets_congr_of_meets {cond ok ok' : σ → ε → Prop}
    (hI : ∀ s e s', I s → cond s e → step s e = some s' → I s')
    (hok : ∀ s e s', I s → cond s e → step s e = some s' → (ok s e ↔ ok' s e))
    (hs : I s) (hcond : Meets step cond s es) :
    Meets step ok s es ↔ Meets step ok' s es := by
  induction es generalizing s with
  | nil => exact Iff.rfl
  | cons e es ih =>
    refine forall₂_congr fun s' hs' => ?_
    obtain ⟨hse, hes⟩ := hcond s' hs'
    exact and_congr (hok s e s' hs hse hs') (ih (hI s e s' hs hse hs') hes)

/-- Two conditions that agree on the steps from `I`-states are met by the same runs. -/
theorem meets_congr {ok ok' : σ → ε → Prop}
    (hok : ∀ s e s', I s → step s e = some s' → (ok s e ↔ ok' s e)) (es : List ε)
    (hs : I s) : Meets step ok s es ↔ Meets step ok' s es :=
  meets_congr_of_meets (fun s e s' hs _ => hI s e s' hs) (fun s e s' hs _ => hok s e s' hs) hs
    meets_true

omit hI in
/-- What the steps that meet `cond` give, the runs that meet it meet, if these keep `I`. -/
theorem meets_of_meets {cond ok : σ → ε → Prop}
    (hI : ∀ s e s', I s → cond s e → step s e = some s' → I s')
    (hok : ∀ s e s', I s → cond s e → step s e = some s' → ok s e)
    (hs : I s) (hcond : Meets step cond s es) : Meets step ok s es := by
  induction es generalizing s with
  | nil => trivial
  | cons e es ih =>
    intro s' hs'
    obtain ⟨hse, hes⟩ := hcond s' hs'
    exact ⟨hok s e s' hs hse hs', ih (hI s e s' hs hse hs') hes⟩

/-- What an invariant gives of every step, every run meets. -/
theorem meets_of_invariant
    (hok : ∀ s e, I s → ok s e) (es : List ε) (hs : I s) : Meets step ok s es :=
  meets_of_meets (fun s e s' hs _ => hI s e s' hs) (fun s e _ hs _ _ => hok s e hs) hs meets_true

end

theorem Meets.and {ok ok' : σ → ε → Prop} (h : Meets step ok s es)
    (h' : Meets step ok' s es) : Meets step (fun s e => ok s e ∧ ok' s e) s es := by
  induction es generalizing s with
  | nil => trivial
  | cons e es ih =>
    exact fun s' hs' => ⟨⟨(h s' hs').1, (h' s' hs').1⟩, ih (h s' hs').2 (h' s' hs').2⟩

/-- `Throughout` speaks about the state after every prefix of the run. -/
theorem throughout_iff_prefix {P : σ → Prop} :
    Throughout step P s es ↔
      ∀ fs t, fs <+: es → exec step s fs = some t → P t := by
  induction es generalizing s with
  | nil =>
    simp only [Throughout, prefix_nil]
    constructor
    · rintro h fs t rfl ht
      simp only [exec_nil, some.injEq] at ht
      exact ht ▸ h
    · intro h
      exact h [] s rfl rfl
  | cons e es ih =>
    constructor
    · rintro ⟨hs, hes⟩ fs t hfs ht
      cases fs with
      | nil =>
        simp only [exec_nil, some.injEq] at ht
        exact ht ▸ hs
      | cons f fs =>
        obtain ⟨rfl, hpre⟩ := cons_prefix_cons.1 hfs
        obtain ⟨u, hu, hut⟩ := exec_cons.1 ht
        exact (ih.1 (hes u hu)) fs t hpre hut
    · intro h
      refine ⟨h [] s nil_prefix rfl, fun s' hs' => ih.2 fun fs t hpre ht => ?_⟩
      exact h (e :: fs) t (cons_prefix_cons.2 ⟨rfl, hpre⟩) (exec_cons.2 ⟨s', hs', ht⟩)

end Trace
