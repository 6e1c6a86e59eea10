import OmniRoute.Lib.Trace
import OmniRoute.Spend.BatchWriter

/-!
# When the batch writer can flush again

`flush` does nothing while `flushPromise` is set, and only the `finally` block of a flush clears
it. A flush whose body ends before its promise is stored (every entry was discarded, or
`persistEntries` threw) clears it too early: the store that follows leaves a settled promise
behind that nothing clears.

**Main result (`canFlush_iff`).** Along a run the writer can flush again whenever no persistence
is in progress exactly when every flush that starts suspends. `stuck_forever` says that after
one that does not, no cost is persisted for the rest of the run.
-/

namespace OmniRoute.Spend

open Option

/-- What happens to a writer. The timer and `stop` are flushes. -/
inductive WriterEvent
  | increment (now : ℚ) (apiKeyId : String) (cost timestamp : Option ℚ) (call : PersistCall)
  | flush (call : PersistCall)
  | discardEntries (apiKeyId : String)
  | resolve
  | reject

namespace Writer

/-- The writer after an event, and the call of `persistEntries` it made. -/
def react (w : Writer) : WriterEvent → Option (Writer × Option (List BufferedCostEntry))
  | .increment now apiKeyId cost timestamp call =>
    some (w.increment now apiKeyId cost timestamp call)
  | .flush call => some (w.flush call)
  | .discardEntries apiKeyId => some (w.discardEntries apiKeyId, none)
  | .resolve => w.resolve.map (·, none)
  | .reject => w.reject.map (·, none)

def step (w : Writer) (e : WriterEvent) : Option Writer := (w.react e).map (·.1)

/-- If no persistence call is in progress, the marker is clear and a flush persists every
buffered entry whose key is not discarded. -/
def CanFlush (w : Writer) : Prop :=
  w.persisting = none → w.flushPromise = none ∧
    ∀ call, ∀ e ∈ w.buffer, e.apiKeyId ∉ w.discardedApiKeyIds →
      ∃ batch, (w.flush call).2 = some batch ∧ e ∈ batch

/-- A flush that starts has an entry to persist, and `persistEntries` does not throw. -/
def FlushSuspends (w : Writer) (call : PersistCall) : Prop :=
  w.flushPromise = none → w.buffer ≠ [] →
    (∃ e ∈ w.buffer, e.apiKeyId ∉ w.discardedApiKeyIds) ∧ call = .returns

/-- The flush an event asks for, if any, suspends. -/
def Suspends (w : Writer) : WriterEvent → Prop
  | .increment now apiKeyId cost timestamp call =>
    ∀ entry, normalizeEntry now apiKeyId cost timestamp = some entry →
      w.maxBufferSize ≤ w.buffer.length + 1 → (w.push entry).FlushSuspends call
  | .flush call => w.FlushSuspends call
  | _ => True

/-- No flush is suspended and none can start. -/
def Stuck (w : Writer) : Prop := w.persisting = none ∧ w.flushPromise ≠ none

/-! ## One step -/

variable {w w' : Writer} {call : PersistCall}

theorem canFlush_iff_clear : w.CanFlush ↔ (w.persisting = none → w.flushPromise = none) := by
  constructor
  · intro h hp
    exact (h hp).1
  · intro h hp
    refine ⟨h hp, fun call e he hfresh => ?_⟩
    have hmem : e ∈ w.entriesToPersist := by simp [entriesToPersist, he, hfresh]
    have hne : w.buffer ≠ [] := List.ne_nil_of_mem he
    exact ⟨w.entriesToPersist, by rw [flush_of_ready (h hp) hne, startFlush_call hmem], hmem⟩

theorem canFlush_iff_not_stuck : w.CanFlush ↔ ¬w.Stuck := by
  rw [canFlush_iff_clear, Stuck, not_and, not_not]

/-- A flush gets the writer stuck exactly when it starts and does not suspend. -/
theorem stuck_flush (hns : ¬w.Stuck) : ¬(w.flush call).1.Stuck ↔ w.FlushSuspends call := by
  by_cases hp : w.flushPromise = none
  · by_cases hb : w.buffer = []
    · rw [flush_of_empty hb]
      exact iff_of_true hns fun _ h => absurd hb h
    · rw [flush_of_ready hp hb]
      have hpromise : (w.startFlush call).1.flushPromise ≠ none := startFlush_flushPromise
      rw [Stuck, not_and_or, not_not]
      simp only [hpromise, or_false, FlushSuspends, hp, hb, ne_eq, not_false_eq_true, true_implies]
      rw [← entriesToPersist_ne_nil]
      exact startFlush_persisting
  · rw [flush_of_promise hp]
    exact iff_of_true hns fun h => absurd h hp

/-- A step gets the writer stuck exactly when the flush it asks for does not suspend. -/
theorem stuck_step (e : WriterEvent) (hns : ¬w.Stuck) (hs : w.step e = some w') :
    ¬w'.Stuck ↔ w.Suspends e := by
  cases e with
  | increment now apiKeyId cost timestamp call =>
    simp only [step, react, map_some, some.injEq] at hs
    subst hs
    cases hn : normalizeEntry now apiKeyId cost timestamp with
    | none =>
      rw [increment_of_none hn]
      exact iff_of_true hns fun entry he => by simp [hn] at he
    | some entry =>
      have hpush : ¬(w.push entry).Stuck := hns
      have hlen : (w.push entry).buffer.length = w.buffer.length + 1 := by simp [push]
      have hmax : (w.push entry).maxBufferSize = w.maxBufferSize := rfl
      rw [increment_of_some hn, hlen, hmax]
      by_cases hfull : w.maxBufferSize ≤ w.buffer.length + 1
      · rw [if_pos hfull, stuck_flush hpush]
        simp [Suspends, hn, hfull]
      · rw [if_neg hfull]
        exact iff_of_true hpush fun _ _ h => absurd h hfull
  | flush call =>
    simp only [step, react, map_some, some.injEq] at hs
    subst hs
    exact stuck_flush hns
  | discardEntries apiKeyId =>
    simp only [step, react, map_some, some.injEq] at hs
    subst hs
    exact iff_of_true hns trivial
  | resolve =>
    obtain ⟨-, -, rfl⟩ : ∃ batch, w.persisting = some batch ∧ w.finish = w' := by
      simpa [step, react, resolve] using hs
    exact iff_of_true (fun h => h.2 rfl) trivial
  | reject =>
    obtain ⟨batch, -, rfl⟩ : ∃ batch, w.persisting = some batch ∧ w.requeue batch = w' := by
      simpa [step, react, reject] using hs
    exact iff_of_true (fun h => h.2 rfl) trivial

/-- Once stuck, the writer stays stuck and calls `persistEntries` no more. -/
theorem react_of_stuck (e : WriterEvent) {r : Writer × Option (List BufferedCostEntry)}
    (h : w.Stuck) (hr : w.react e = some r) : r.1.Stuck ∧ r.2 = none := by
  cases e with
  | increment now apiKeyId cost timestamp call =>
    simp only [react, some.injEq] at hr
    subst hr
    cases hn : normalizeEntry now apiKeyId cost timestamp with
    | none => rw [increment_of_none hn]; exact ⟨h, rfl⟩
    | some entry =>
      have hpush : (w.push entry).Stuck := h
      rw [increment_of_some hn, flush_of_promise hpush.2, ite_self]
      exact ⟨hpush, rfl⟩
  | flush call =>
    simp only [react, some.injEq] at hr
    subst hr
    rw [flush_of_promise h.2]
    exact ⟨h, rfl⟩
  | discardEntries apiKeyId =>
    simp only [react, some.injEq] at hr
    subst hr
    exact ⟨h, rfl⟩
  | resolve => simp [react, resolve, h.1] at hr
  | reject => simp [react, reject, h.1] at hr

/-! ## Whole runs -/

/-- No event makes the writer call `persistEntries`. -/
def Silent (w : Writer) (e : WriterEvent) : Prop := ∀ r, w.react e = some r → r.2 = none

/-- Once stuck, the writer is stuck for the rest of the run and calls `persistEntries` no more. -/
theorem stuck_forever (events : List WriterEvent) (h : w.Stuck) :
    Trace.Throughout step Stuck w events ∧ Trace.Meets step Silent w events := by
  have hstep : ∀ (s : Writer) e s', s.Stuck → s.step e = some s' → s'.Stuck := by
    intro s e s' hs hstep
    obtain ⟨r, hr, rfl⟩ := Option.map_eq_some_iff.1 hstep
    exact (react_of_stuck e hs hr).1
  exact ⟨Trace.throughout_of_invariant hstep events h,
    Trace.meets_of_invariant hstep (fun s e hs r hr => (react_of_stuck e hs hr).2) events h⟩

/-- Along a run the writer can flush again whenever no persistence call is in progress, exactly
when every flush the run starts has an entry left to persist and a call that does not throw. -/
theorem canFlush_iff (maxBufferSize : ℕ) (events : List WriterEvent) :
    Trace.Throughout step CanFlush (init maxBufferSize) events ↔
      Trace.Meets step Suspends (init maxBufferSize) events := by
  refine Trace.throughout_iff_meets (I := fun _ => True) (fun _ _ _ _ _ => trivial)
    (fun s e s' _ hcan hstep => ?_) events trivial (canFlush_iff_clear.2 fun _ => rfl)
  rw [canFlush_iff_not_stuck] at hcan ⊢
  exact stuck_step e hcan hstep

/-- A cost is recorded and `persistEntries` throws: a busy database. -/
def busyDatabase : List WriterEvent :=
  [.increment 5 "key" (some 1) none .returns, .flush .throws]

theorem busyDatabase_sticks :
    ¬Trace.Throughout step CanFlush (init 1000) busyDatabase := by
  rw [Trace.throughout_iff_prefix]
  intro h
  have hstuck := (h busyDatabase _ (List.prefix_refl _) rfl) (by decide +kernel)
  exact absurd hstuck.1 (by decide +kernel)

theorem stuck_forever_busy :
    Trace.Meets step Silent ((Trace.exec step (init 1000) busyDatabase).getD (init 1000))
      busyDatabase :=
  (stuck_forever busyDatabase ⟨by decide +kernel, by decide +kernel⟩).2

end Writer

end OmniRoute.Spend
