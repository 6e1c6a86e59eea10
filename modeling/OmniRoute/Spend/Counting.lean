import OmniRoute.Lib.Trace
import OmniRoute.Spend.BatchWriter

/-!
# Every recorded cost is counted once, or not

A budget read adds the stored costs of a key to `getPendingCostTotal`, the costs in the writer's
buffer and in its flush in flight. `System` puts the writer next to the table it writes to, and
next to `recorded`, the costs recorded since the last discard of their key, which a read should
add up. A batch is stored as a whole or not at all: `commit` stores it, and only a stored batch
is fulfilled.

A read and the record part in two ways.

* Between the commit and the continuation of the flush, which clears `inFlightEntries`, the
  batch is in the table and still pending, so a read counts it twice.
* A discard drops a key's entries from `inFlightEntries`, but not from the batch the flush has
  captured. If that batch is not stored yet, the discarded costs come back, in the table when it
  is stored and in the buffer when it fails.

**Main result (`reads_exact_iff`).** In a run that discards no key with costs in a batch that is
not stored yet, the reads are exact if and only if none of them meets a cost of its own in that
gap; and after any other discard the next read can be wrong.
-/

namespace OmniRoute.Spend

open List

/-- The writer, the table, and the costs recorded since the last discard of their key. -/
structure System where
  writer : Writer
  stored : List BufferedCostEntry
  /-- The batch in flight is stored. -/
  committed : Bool
  recorded : List BufferedCostEntry

/-- The entries of a key in a window; `none` is a window with no end. -/
def matchesWindow (apiKeyId : String) (since : ℚ) (till : Option ℚ) (entry : BufferedCostEntry) :
    Prop :=
  entry.apiKeyId = apiKeyId ∧ since ≤ entry.timestamp ∧ ∀ t ∈ till, entry.timestamp < t

instance (apiKeyId : String) (since : ℚ) (till : Option ℚ) :
    DecidablePred (matchesWindow apiKeyId since till) := fun entry => inferInstanceAs <| Decidable
      (entry.apiKeyId = apiKeyId ∧ since ≤ entry.timestamp ∧ ∀ t ∈ till, entry.timestamp < t)

def sumEntries (entries : List BufferedCostEntry) : ℚ := (entries.map (·.cost)).sum

/-- The sum of a key's entries in a window. -/
def windowTotal (entries : List BufferedCostEntry) (apiKeyId : String) (since : ℚ)
    (till : Option ℚ) : ℚ :=
  sumEntries (entries.filter fun entry => decide (matchesWindow apiKeyId since till entry))

def Writer.getPendingCostTotal (w : Writer) (apiKeyId : String) (since : ℚ) (till : Option ℚ) :
    ℚ :=
  windowTotal (w.inFlightEntries ++ w.buffer) apiKeyId since till

inductive Event
  | increment (now : ℚ) (apiKeyId : String) (cost timestamp : Option ℚ) (call : PersistCall)
  | flush (call : PersistCall)
  | deleteBudget (apiKeyId : String)
  | commit
  | resolve
  | reject
  | read (apiKeyId : String) (since : ℚ) (till : Option ℚ)

namespace System

def init (maxBufferSize : ℕ) : System := ⟨.init maxBufferSize, [], false, []⟩

/-- Discard the buffered costs of a key, then delete the stored ones. -/
def deleteBudget (s : System) (apiKeyId : String) : System :=
  { s with
    writer := s.writer.discardEntries apiKeyId
    stored := s.stored.filter (·.apiKeyId ≠ apiKeyId)
    recorded := s.recorded.filter (·.apiKeyId ≠ apiKeyId) }

/-- The database stores the batch in flight. -/
def commit (s : System) : Option System :=
  match s.writer.persisting, s.committed with
  | some batch, false => some { s with stored := s.stored ++ batch, committed := true }
  | _, _ => none

def resolve (s : System) : Option System :=
  if s.committed then s.writer.resolve.map fun w => { s with writer := w, committed := false }
  else none

def reject (s : System) : Option System :=
  if s.committed then none else s.writer.reject.map fun w => { s with writer := w }

/-- `getBudgetWindowTotal` and, for a window with an end, `getBudgetWindowRangeTotal`. -/
def getBudgetWindowTotal (s : System) (apiKeyId : String) (since : ℚ) (till : Option ℚ) : ℚ :=
  windowTotal s.stored apiKeyId since till + s.writer.getPendingCostTotal apiKeyId since till

def step (s : System) : Event → Option System
  | .increment now apiKeyId cost timestamp call =>
    some { s with
      writer := (s.writer.increment now apiKeyId cost timestamp call).1
      recorded := s.recorded ++ (normalizeEntry now apiKeyId cost timestamp).toList }
  | .flush call => some { s with writer := (s.writer.flush call).1 }
  | .deleteBudget apiKeyId => some (s.deleteBudget apiKeyId)
  | .commit => s.commit
  | .resolve => s.resolve
  | .reject => s.reject
  | .read _ _ _ => some s

/-- A read returns the sum of the costs recorded since the key's last discard. -/
def ReadExact (s : System) : Event → Prop
  | .read apiKeyId since till =>
    s.getBudgetWindowTotal apiKeyId since till = windowTotal s.recorded apiKeyId since till
  | _ => True

/-- A read meets no cost of its own that is stored and still in flight. -/
def ReadOutsideGap (s : System) : Event → Prop
  | .read apiKeyId since till =>
    s.committed = true → ∀ e ∈ s.writer.inFlightEntries, ¬matchesWindow apiKeyId since till e
  | _ => True

/-- A batch that is not stored holds no cost of the key that is discarded. -/
def DiscardSettled (s : System) : Event → Prop
  | .deleteBudget apiKeyId =>
    s.committed = false → ∀ batch ∈ s.writer.persisting, ∀ e ∈ batch, e.apiKeyId ≠ apiKeyId
  | _ => True

instance (s : System) : DecidablePred s.ReadExact
  | .read apiKeyId since till => inferInstanceAs <| Decidable
      (s.getBudgetWindowTotal apiKeyId since till = windowTotal s.recorded apiKeyId since till)
  | .increment .. | .flush _ | .deleteBudget _ | .commit | .resolve | .reject => .isTrue trivial

instance (s : System) : DecidablePred s.DiscardSettled
  | .deleteBudget apiKeyId => inferInstanceAs <| Decidable
      (s.committed = false → ∀ batch ∈ s.writer.persisting, ∀ e ∈ batch, e.apiKeyId ≠ apiKeyId)
  | .increment .. | .flush _ | .read .. | .commit | .resolve | .reject => .isTrue trivial

/-- The pending entries that are not stored: a stored batch is pending in name only. -/
def unstored (s : System) : List BufferedCostEntry :=
  (if s.committed then [] else s.writer.inFlightEntries) ++ s.writer.buffer

/-- The invariant of the runs without unsettled discards. -/
structure Accounted (s : System) : Prop where
  ledger : (s.stored ++ s.unstored).Perm s.recorded
  fresh : ∀ e ∈ s.writer.buffer, e.apiKeyId ∉ s.writer.discardedApiKeyIds
  positive : ∀ e ∈ s.writer.inFlightEntries ++ s.writer.buffer, 0 < e.cost
  idle : s.writer.persisting = none → s.committed = false ∧ s.writer.inFlightEntries = []
  marked : s.writer.persisting ≠ none → s.writer.flushPromise ≠ none
  batch : s.committed = false → ∀ batch ∈ s.writer.persisting, s.writer.inFlightEntries = batch ∧
    ∀ e ∈ batch, e.apiKeyId ∉ s.writer.discardedApiKeyIds

end System

/-! ## Sums over windows -/

variable {entries xs ys : List BufferedCostEntry} {apiKeyId : String} {since : ℚ}
  {till : Option ℚ}

theorem windowTotal_append : windowTotal (xs ++ ys) apiKeyId since till =
    windowTotal xs apiKeyId since till + windowTotal ys apiKeyId since till := by
  simp [windowTotal, sumEntries]

theorem windowTotal_perm (h : xs.Perm ys) :
    windowTotal xs apiKeyId since till = windowTotal ys apiKeyId since till :=
  ((h.filter _).map _).sum_eq

/-- A sum of positive costs is zero exactly when it has no summand. -/
theorem windowTotal_eq_zero (hpos : ∀ e ∈ entries, 0 < e.cost) :
    windowTotal entries apiKeyId since till = 0 ↔
      ∀ e ∈ entries, ¬matchesWindow apiKeyId since till e := by
  constructor
  · intro h e he hmatch
    have hmem : e.cost ∈ (entries.filter fun entry =>
        decide (matchesWindow apiKeyId since till entry)).map (·.cost) :=
      mem_map_of_mem (mem_filter.2 ⟨he, decide_eq_true hmatch⟩)
    have hle : e.cost ≤ windowTotal entries apiKeyId since till := by
      refine single_le_sum (fun c hc => ?_) _ hmem
      obtain ⟨e', he', rfl⟩ := mem_map.1 hc
      exact (hpos e' (mem_filter.1 he').1).le
    exact absurd (hpos e he) (by linarith)
  · intro h
    have hnil : entries.filter (fun entry => decide (matchesWindow apiKeyId since till entry)) =
        [] := by
      rw [filter_eq_nil_iff]
      exact fun e he => by simpa using h e he
    simp [windowTotal, hnil, sumEntries]

namespace System

variable {s s' : System} {call : PersistCall}

theorem accounted_init (maxBufferSize : ℕ) : (init maxBufferSize).Accounted where
  ledger := List.Perm.refl _
  fresh := fun _ he => absurd he not_mem_nil
  positive := fun _ he => absurd he not_mem_nil
  idle := fun _ => ⟨rfl, rfl⟩
  marked := fun h => absurd rfl h
  batch := fun _ _ h => (by cases h)

/-! ## One step -/

section

variable (h : s.Accounted)
include h

/-- Nothing buffered is discarded, so a flush hands over the whole buffer. -/
theorem Accounted.entriesToPersist : s.writer.entriesToPersist = s.writer.buffer := by
  rw [Writer.entriesToPersist, filter_eq_self]
  exact fun e he => decide_eq_true (h.fresh e he)

theorem Accounted.flush : { s with writer := (s.writer.flush call).1 }.Accounted := by
  by_cases hp : s.writer.flushPromise = none
  · by_cases hb : s.writer.buffer = []
    · rw [Writer.flush_of_empty hb]
      exact h
    · have hidle : s.writer.persisting = none := by
        by_contra hne
        exact h.marked hne hp
      obtain ⟨hcommitted, hflight⟩ := h.idle hidle
      have hne : s.writer.entriesToPersist ≠ [] := h.entriesToPersist ▸ hb
      have hledger := h.ledger
      have hpos := h.positive
      simp only [unstored, hcommitted, hflight, List.nil_append, Bool.false_eq_true,
        ite_false] at hledger hpos
      rw [Writer.flush_of_ready hp hb]
      cases call with
      | throws =>
        rw [Writer.startFlush_throws hne, h.entriesToPersist]
        constructor
        case ledger => simpa [unstored, hcommitted, Writer.requeue, Writer.take, Writer.finish]
        case fresh => simpa [Writer.requeue, Writer.take, Writer.finish] using h.fresh
        case positive => simpa [Writer.requeue, Writer.take, Writer.finish] using hpos
        case idle => exact fun _ => ⟨hcommitted, rfl⟩
        case marked => exact fun hmark => absurd rfl hmark
        case batch => exact fun _ _ hbatch => (by cases hbatch)
      | returns =>
        rw [Writer.startFlush_returns hne, h.entriesToPersist]
        constructor
        case ledger => simpa [unstored, hcommitted, Writer.take]
        case fresh => exact fun e he => absurd he not_mem_nil
        case positive => simpa [Writer.take] using hpos
        case idle => exact fun hnone => (by cases hnone)
        case marked => exact fun _ hnone => (by cases hnone)
        case batch =>
          rintro - batch hbatch
          cases hbatch
          exact ⟨rfl, h.fresh⟩
  · rw [Writer.flush_of_promise hp]
    exact h

theorem Accounted.push {entry : BufferedCostEntry} (hcost : 0 < entry.cost) :
    { s with writer := s.writer.push entry, recorded := s.recorded ++ [entry] }.Accounted := by
  constructor
  case ledger =>
    have := h.ledger.append_right [entry]
    simpa [unstored, Writer.push] using this
  case fresh =>
    intro e he
    simp only [Writer.push, mem_append, mem_singleton, mem_filter,
      decide_eq_true_eq, not_and, not_not] at he ⊢
    intro hd
    obtain he | rfl := he
    · exact absurd hd (h.fresh e he)
    · rfl
  case positive =>
    intro e he
    rw [Writer.push, ← append_assoc, mem_append, mem_singleton] at he
    obtain he | rfl := he
    · exact h.positive e he
    · exact hcost
  case idle => exact h.idle
  case marked => exact h.marked
  case batch =>
    intro hc batch hbatch
    obtain ⟨hflight, hfresh⟩ := h.batch hc batch hbatch
    exact ⟨hflight, fun e he hd => hfresh e he (mem_of_mem_filter hd)⟩

theorem Accounted.deleteBudget
    (hsettled : s.committed = false → ∀ batch ∈ s.writer.persisting, ∀ e ∈ batch,
      e.apiKeyId ≠ apiKeyId) : (s.deleteBudget apiKeyId).Accounted := by
  constructor
  case ledger =>
    have := h.ledger.filter (fun e => decide (e.apiKeyId ≠ apiKeyId))
    cases hc : s.committed <;>
      simpa [unstored, System.deleteBudget, Writer.discardEntries, hc] using this
  case fresh =>
    intro e he
    simp only [System.deleteBudget, Writer.discardEntries, mem_filter, decide_eq_true_eq,
      mem_cons, not_or] at he ⊢
    exact ⟨he.2, h.fresh e he.1⟩
  case positive =>
    intro e he
    simp only [System.deleteBudget, Writer.discardEntries, ← filter_append] at he
    exact h.positive e (mem_of_mem_filter he)
  case idle =>
    intro hnone
    obtain ⟨hc, hflight⟩ := h.idle hnone
    exact ⟨hc, by simp [System.deleteBudget, Writer.discardEntries, hflight]⟩
  case marked => exact h.marked
  case batch =>
    intro hc batch hbatch
    obtain ⟨hflight, hfresh⟩ := h.batch hc batch hbatch
    have hkeep := hsettled hc batch hbatch
    constructor
    · simp only [System.deleteBudget, Writer.discardEntries, hflight]
      exact filter_eq_self.2 fun e he => decide_eq_true (hkeep e he)
    · intro e he
      simp only [System.deleteBudget, Writer.discardEntries, mem_cons, not_or]
      exact ⟨hkeep e he, hfresh e he⟩

theorem Accounted.commit (hs : s.commit = some s') : s'.Accounted := by
  unfold System.commit at hs
  split at hs
  case h_2 => cases hs
  case h_1 batch hbatch hc =>
    cases hs
    obtain ⟨hflight, -⟩ := h.batch hc batch hbatch
    have hledger := h.ledger
    simp only [unstored, hc, hflight, Bool.false_eq_true, ite_false] at hledger
    exact {
      ledger := by simpa [unstored] using hledger
      fresh := h.fresh
      positive := h.positive
      idle := fun hnone => by simp [hbatch] at hnone
      marked := h.marked
      batch := fun hfalse => by cases hfalse }

theorem Accounted.resolve (hs : s.resolve = some s') : s'.Accounted := by
  cases hc : s.committed with
  | false => simp [System.resolve, hc] at hs
  | true =>
    obtain ⟨-, -, rfl⟩ : ∃ batch, s.writer.persisting = some batch ∧
        { s with writer := s.writer.finish, committed := false } = s' := by
      simpa [System.resolve, Writer.resolve, hc] using hs
    have hledger := h.ledger
    simp only [unstored, hc, ite_true, List.nil_append] at hledger
    exact {
      ledger := by simpa [unstored] using hledger
      fresh := h.fresh
      positive := fun e he => h.positive e (mem_append_right _ he)
      idle := fun _ => ⟨rfl, rfl⟩
      marked := fun hne => absurd rfl hne
      batch := fun _ _ hbatch => (by cases hbatch) }

theorem Accounted.reject (hs : s.reject = some s') : s'.Accounted := by
  cases hc : s.committed with
  | true => simp [System.reject, hc] at hs
  | false =>
    obtain ⟨batch, hbatch, rfl⟩ : ∃ batch, s.writer.persisting = some batch ∧
        { s with writer := s.writer.requeue batch } = s' := by
      simpa [System.reject, Writer.reject, hc] using hs
    obtain ⟨hflight, hfresh⟩ := h.batch hc batch hbatch
    have hledger := h.ledger
    have hpos := h.positive
    simp only [unstored, hc, hflight, Bool.false_eq_true, ite_false] at hledger hpos
    exact {
      ledger := by simpa [unstored, hc, Writer.requeue] using hledger
      fresh := fun e he => (mem_append.1 he).elim (hfresh e) (h.fresh e)
      positive := hpos
      idle := fun _ => ⟨hc, rfl⟩
      marked := fun hne => absurd rfl hne
      batch := fun _ _ hnone => (by cases hnone) }

omit h in
theorem accounted_step (e : Event) (h : s.Accounted) (hsettled : s.DiscardSettled e)
    (hs : s.step e = some s') : s'.Accounted := by
  cases e with
  | increment now apiKeyId cost timestamp call =>
    simp only [step, Option.some.injEq] at hs
    subst hs
    cases hn : normalizeEntry now apiKeyId cost timestamp with
    | none =>
      rw [Writer.increment_of_none hn, Option.toList_none, append_nil]
      exact h
    | some entry =>
      have hpush := h.push (Writer.normalizeEntry_cost hn)
      rw [Writer.increment_of_some hn, Option.toList_some]
      split
      · exact hpush.flush
      · exact hpush
  | flush call =>
    simp only [step, Option.some.injEq] at hs
    subst hs
    exact h.flush
  | deleteBudget apiKeyId =>
    simp only [step, Option.some.injEq] at hs
    subst hs
    exact h.deleteBudget hsettled
  | commit => exact h.commit hs
  | resolve => exact h.resolve hs
  | reject => exact h.reject hs
  | read apiKeyId since till =>
    simp only [step, Option.some.injEq] at hs
    exact hs ▸ h

/-- A read returns the record and whatever is stored and still in flight. -/
theorem Accounted.total (apiKeyId : String) (since : ℚ) (till : Option ℚ) :
    s.getBudgetWindowTotal apiKeyId since till = windowTotal s.recorded apiKeyId since till +
      windowTotal (if s.committed then s.writer.inFlightEntries else []) apiKeyId since till := by
  rw [← windowTotal_perm h.ledger]
  cases hc : s.committed <;>
    simp only [getBudgetWindowTotal, Writer.getPendingCostTotal, unstored, hc, windowTotal_append,
      Bool.false_eq_true, ite_true, ite_false, List.nil_append]
  · have : windowTotal [] apiKeyId since till = 0 := rfl
    linarith
  · linarith

theorem Accounted.readExact_iff (e : Event) : s.ReadExact e ↔ s.ReadOutsideGap e := by
  cases e with
  | read apiKeyId since till =>
    have hpos : ∀ e ∈ s.writer.inFlightEntries, 0 < e.cost :=
      fun e he => h.positive e (mem_append_left _ he)
    simp only [ReadExact, ReadOutsideGap, h.total, add_eq_left]
    cases hc : s.committed
    · simp [windowTotal, sumEntries]
    · simpa using windowTotal_eq_zero hpos
  | _ => exact Iff.rfl

omit h in
/-- A discarded key has no cost left in what the discard filters. -/
theorem windowTotal_discarded :
    windowTotal (entries.filter fun e => !decide (e.apiKeyId = apiKeyId)) apiKeyId since till =
      0 := by
  have hnil : (entries.filter fun e => !decide (e.apiKeyId = apiKeyId)).filter
      (fun entry => decide (matchesWindow apiKeyId since till entry)) = [] := by
    rw [filter_eq_nil_iff]
    intro e he
    have hne : e.apiKeyId ≠ apiKeyId := by simpa using (mem_filter.1 he).2
    simp [matchesWindow, hne]
  rw [windowTotal, hnil]
  rfl

/-- Discarding a key with costs in a batch that is not stored, and then the failure of that
batch, brings these costs back. -/
theorem Accounted.comes_back (hunsettled : ¬s.DiscardSettled (.deleteBudget apiKeyId)) :
    ∃ since s', Trace.exec step s [.deleteBudget apiKeyId, .reject] = some s' ∧
      ¬s'.ReadExact (.read apiKeyId since none) := by
  simp only [DiscardSettled] at hunsettled
  push Not at hunsettled
  obtain ⟨hc, batch, hbatch, e, he, hkey⟩ := hunsettled
  have hpos : ∀ e ∈ batch, 0 < e.cost := fun e he =>
    h.positive e (mem_append_left _ ((h.batch hc batch hbatch).1 ▸ he))
  have hreject : (s.deleteBudget apiKeyId).reject = some { s.deleteBudget apiKeyId with
      writer := (s.writer.discardEntries apiKeyId).requeue batch } := by
    have hp : (s.writer.discardEntries apiKeyId).persisting = some batch := hbatch
    simp [System.reject, System.deleteBudget, Writer.reject, hc, hp]
  refine ⟨e.timestamp, _, Trace.exec_cons.2 ⟨_, rfl, Trace.exec_cons.2 ⟨_, hreject, rfl⟩⟩, ?_⟩
  have hback : windowTotal batch apiKeyId e.timestamp none ≠ 0 := by
    intro hzero
    exact (windowTotal_eq_zero hpos).1 hzero e he ⟨hkey, le_refl _, fun _ ht => by cases ht⟩
  simpa [ReadExact, getBudgetWindowTotal, Writer.getPendingCostTotal, Writer.requeue,
    System.deleteBudget, Writer.discardEntries, windowTotal_append, windowTotal_discarded]
    using hback

end

/-! ## Whole runs -/

/-- In a run that discards no key with costs in a batch that is not stored yet, every read is the
sum of the costs recorded for its key and window since the key's last discard, if and only if no
read meets a cost of its own that is stored and still in flight. Any other discard can be
followed by a failure of the batch and a wrong read. -/
theorem reads_exact_iff (maxBufferSize : ℕ) (events : List Event)
    (hsettled : Trace.Meets step DiscardSettled (init maxBufferSize) events) :
    (Trace.Meets step ReadExact (init maxBufferSize) events ↔
      Trace.Meets step ReadOutsideGap (init maxBufferSize) events) ∧
    ∀ s apiKeyId, Trace.exec step (init maxBufferSize) events = some s →
      ¬s.DiscardSettled (.deleteBudget apiKeyId) →
      ∃ since, ¬Trace.Meets step ReadExact (init maxBufferSize)
        (events ++ [.deleteBudget apiKeyId, .reject, .read apiKeyId since none]) := by
  have hstep : ∀ s e s', Accounted s → s.DiscardSettled e → step s e = some s' → Accounted s' :=
    fun _ e _ h hd hs => accounted_step e h hd hs
  constructor
  · exact Trace.meets_congr_of_meets hstep (fun _ e _ h _ _ => h.readExact_iff e)
      (accounted_init maxBufferSize) hsettled
  · intro s apiKeyId hrun hunsettled
    have hacc : s.Accounted :=
      Trace.exec_invariant_of_meets hstep (accounted_init maxBufferSize) hsettled hrun
    obtain ⟨since, s', hexec, hwrong⟩ := hacc.comes_back hunsettled
    refine ⟨since, fun hmeets => hwrong ?_⟩
    have hread : Trace.Meets step ReadExact s' [.read apiKeyId since none] :=
      ((hmeets.append hrun).2.append hexec).2
    exact (hread s' rfl).1

/-- A cost is recorded and flushed, and read after the commit, before the flush goes on. -/
def readInGap : List Event :=
  [.increment 5 "key" (some 1) none .returns, .flush .returns, .commit, .read "key" 0 none]

/-- The same flush, read once it is done, with a discard of another key while it ran. -/
def readAfterFlush : List Event :=
  [.increment 5 "key" (some 1) none .returns, .flush .returns, .deleteBudget "other", .commit,
    .resolve, .read "key" 0 none]

theorem readInGap_counts_twice : ¬Trace.Meets step ReadExact (init 1000) readInGap := by
  decide +kernel

theorem reads_exact_iff_readAfterFlush :
    (Trace.Meets step ReadExact (init 1000) readAfterFlush ↔
      Trace.Meets step ReadOutsideGap (init 1000) readAfterFlush) ∧
    Trace.Meets step ReadExact (init 1000) readAfterFlush :=
  ⟨(reads_exact_iff 1000 readAfterFlush (by decide +kernel)).1, by decide +kernel⟩

end System

end OmniRoute.Spend
