import Mathlib

/-!
# The batch writer of recorded costs

`SpendBatchWriter` collects costs in a buffer and writes them to the database in batches. A
flush moves the buffer to `inFlightEntries`, hands it to `persistEntries` and waits for it; an
entry of a key that was discarded meanwhile is not handed over, and a batch that fails goes back
to the front of the buffer.

The body of a flush runs up to its first `await` before `flush` stores its promise. So the
`finally` block, which clears `flushPromise`, comes before that store when the body ends without
suspending, and after it otherwise. `persisting` is the suspended body: the batch it waits for.

Costs and timestamps are exact numbers; `none` is a number that is not finite. The promise's
result and the log lines it feeds are kept, the timer is left out: it only calls `flush`.
-/

namespace OmniRoute.Spend

structure BufferedCostEntry where
  apiKeyId : String
  cost : ℚ
  timestamp : ℚ
  deriving DecidableEq

/-- `now` is the clock, for a timestamp that is not finite. -/
def normalizeEntry (now : ℚ) (apiKeyId : String) (cost timestamp : Option ℚ) :
    Option BufferedCostEntry :=
  match cost with
  | none => none
  | some cost =>
    if apiKeyId = "" ∨ cost ≤ 0 then none else some ⟨apiKeyId, cost, timestamp.getD now⟩

structure FlushResult where
  flushedEntries : ℕ
  uniqueKeys : ℕ
  requeued : Bool
  deriving DecidableEq

inductive FlushPromise
  | pending
  | settled (result : FlushResult)
  deriving DecidableEq

/-- How a call of `persistEntries` comes back: it throws, or it returns something to wait for. -/
inductive PersistCall
  | throws
  | returns
  deriving DecidableEq

structure Writer where
  buffer : List BufferedCostEntry
  inFlightEntries : List BufferedCostEntry
  discardedApiKeyIds : List String
  flushPromise : Option FlushPromise
  maxBufferSize : ℕ
  /-- The batch of the flush body that waits for `persistEntries`. -/
  persisting : Option (List BufferedCostEntry)

namespace Writer

def init (maxBufferSize : ℕ) : Writer := ⟨[], [], [], none, maxBufferSize, none⟩

def entriesToPersist (w : Writer) : List BufferedCostEntry :=
  w.buffer.filter fun entry => decide (entry.apiKeyId ∉ w.discardedApiKeyIds)

def uniqueKeys (entries : List BufferedCostEntry) : ℕ := (entries.map (·.apiKeyId)).dedup.length

/-- The `finally` block. -/
def finish (w : Writer) : Writer :=
  { w with inFlightEntries := [], flushPromise := none, persisting := none }

/-- The `catch` block and the `finally` block. -/
def requeue (w : Writer) (batch : List BufferedCostEntry) : Writer :=
  { w with buffer := batch ++ w.buffer }.finish

/-- The buffer becomes the flush in flight. -/
def take (w : Writer) : Writer := { w with buffer := [], inFlightEntries := w.buffer }

/-- The body of a flush up to its first `await`, then the store of its promise. The second part
is the argument `persistEntries` is called with, if it is called. -/
def startFlush (w : Writer) (call : PersistCall) : Writer × Option (List BufferedCostEntry) :=
  let batch := w.entriesToPersist
  if batch = [] then
    ({ w.take.finish with flushPromise := some (.settled ⟨0, 0, false⟩) }, none)
  else
    match call with
    | .throws =>
      ({ w.take.requeue batch with flushPromise := some (.settled ⟨0, uniqueKeys batch, true⟩) },
        some batch)
    | .returns =>
      ({ w.take with flushPromise := some .pending, persisting := some batch }, some batch)

def flush (w : Writer) (call : PersistCall) : Writer × Option (List BufferedCostEntry) :=
  match w.flushPromise with
  | some _ => (w, none)
  | none => if w.buffer = [] then (w, none) else w.startFlush call

/-- A recorded cost is buffered, and its key is no longer discarded. -/
def push (w : Writer) (entry : BufferedCostEntry) : Writer :=
  { w with
    discardedApiKeyIds := w.discardedApiKeyIds.filter (· ≠ entry.apiKeyId)
    buffer := w.buffer ++ [entry] }

def increment (w : Writer) (now : ℚ) (apiKeyId : String) (cost timestamp : Option ℚ)
    (call : PersistCall) : Writer × Option (List BufferedCostEntry) :=
  match normalizeEntry now apiKeyId cost timestamp with
  | none => (w, none)
  | some entry =>
    if (w.push entry).maxBufferSize ≤ (w.push entry).buffer.length then (w.push entry).flush call
    else (w.push entry, none)

def discardEntries (w : Writer) (apiKeyId : String) : Writer :=
  { w with
    discardedApiKeyIds := apiKeyId :: w.discardedApiKeyIds
    buffer := w.buffer.filter (·.apiKeyId ≠ apiKeyId)
    inFlightEntries := w.inFlightEntries.filter (·.apiKeyId ≠ apiKeyId) }

/-- What `persistEntries` returned is fulfilled. -/
def resolve (w : Writer) : Option Writer := w.persisting.map fun _ => w.finish

/-- What `persistEntries` returned is rejected. -/
def reject (w : Writer) : Option Writer := w.persisting.map w.requeue

/-! ## What the operations do -/

variable {w : Writer} {call : PersistCall}

theorem flush_of_promise (h : w.flushPromise ≠ none) : w.flush call = (w, none) := by
  obtain ⟨p, hp⟩ := Option.ne_none_iff_exists'.1 h
  simp [flush, hp]

theorem flush_of_empty (h : w.buffer = []) : w.flush call = (w, none) := by
  cases hp : w.flushPromise <;> simp [flush, hp, h]

theorem flush_of_ready (hp : w.flushPromise = none) (hb : w.buffer ≠ []) :
    w.flush call = w.startFlush call := by
  simp [flush, hp, hb]

theorem startFlush_of_discarded (h : w.entriesToPersist = []) : w.startFlush call =
    ({ w.take.finish with flushPromise := some (.settled ⟨0, 0, false⟩) }, none) := by
  simp [startFlush, h]

theorem startFlush_throws (h : w.entriesToPersist ≠ []) : w.startFlush .throws =
    ({ w.take.requeue w.entriesToPersist with
        flushPromise := some (.settled ⟨0, uniqueKeys w.entriesToPersist, true⟩) },
      some w.entriesToPersist) := by
  simp [startFlush, h]

theorem startFlush_returns (h : w.entriesToPersist ≠ []) : w.startFlush .returns =
    ({ w.take with flushPromise := some .pending, persisting := some w.entriesToPersist },
      some w.entriesToPersist) := by
  simp [startFlush, h]

/-- A flush that starts leaves a promise behind, however its body ended. -/
theorem startFlush_flushPromise : (w.startFlush call).1.flushPromise ≠ none := by
  by_cases h : w.entriesToPersist = []
  · simp [startFlush_of_discarded h]
  · cases call
    · simp [startFlush_throws h]
    · simp [startFlush_returns h]

/-- Its body is suspended exactly when there was something to persist and the call returned. -/
theorem startFlush_persisting :
    (w.startFlush call).1.persisting ≠ none ↔ w.entriesToPersist ≠ [] ∧ call = .returns := by
  by_cases h : w.entriesToPersist = []
  · simp [startFlush_of_discarded h, h, finish]
  · cases call
    · simp [startFlush_throws h, requeue, finish]
    · simp [startFlush_returns h, h]

theorem entriesToPersist_eq_nil :
    w.entriesToPersist = [] ↔ ∀ e ∈ w.buffer, e.apiKeyId ∈ w.discardedApiKeyIds := by
  simp [entriesToPersist, List.filter_eq_nil_iff]

theorem entriesToPersist_ne_nil :
    w.entriesToPersist ≠ [] ↔ ∃ e ∈ w.buffer, e.apiKeyId ∉ w.discardedApiKeyIds := by
  rw [ne_eq, entriesToPersist_eq_nil]
  push Not
  rfl

/-- A flush that starts calls `persistEntries` with whatever is buffered and not discarded. -/
theorem startFlush_call {e : BufferedCostEntry} (he : e ∈ w.entriesToPersist) :
    (w.startFlush call).2 = some w.entriesToPersist := by
  have h : w.entriesToPersist ≠ [] := List.ne_nil_of_mem he
  cases call
  · rw [startFlush_throws h]
  · rw [startFlush_returns h]

@[simp] theorem finish_buffer : w.finish.buffer = w.buffer := rfl

@[simp] theorem finish_inFlightEntries : w.finish.inFlightEntries = [] := rfl

variable {cost timestamp : Option ℚ}

theorem increment_of_none {now : ℚ} {apiKeyId : String}
    (h : normalizeEntry now apiKeyId cost timestamp = none) :
    w.increment now apiKeyId cost timestamp call = (w, none) := by
  simp [increment, h]

theorem increment_of_some {now : ℚ} {apiKeyId : String}
    {entry : BufferedCostEntry} (h : normalizeEntry now apiKeyId cost timestamp = some entry) :
    w.increment now apiKeyId cost timestamp call =
      if (w.push entry).maxBufferSize ≤ (w.push entry).buffer.length then
        (w.push entry).flush call
      else (w.push entry, none) := by
  simp [increment, h]

theorem normalizeEntry_cost {now : ℚ} {apiKeyId : String}
    {entry : BufferedCostEntry} (h : normalizeEntry now apiKeyId cost timestamp = some entry) :
    0 < entry.cost := by
  cases cost with
  | none => simp [normalizeEntry] at h
  | some c =>
    simp only [normalizeEntry, Option.ite_none_left_eq_some, not_or, not_le] at h
    obtain ⟨⟨-, hc⟩, he⟩ := h
    cases he
    exact hc

end Writer

end OmniRoute.Spend
