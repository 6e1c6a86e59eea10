import OmniRoute.Admission.QueueItems
import OmniRoute.Lib.Trace

/-!
# A fair queue in use

Entries arrive, are served and are removed, in any order and with any tenants, costs and
capacities. `FairRun` is the queue with the entries served so far, `BoundedBypass` says that a
waiting head is overtaken a bounded number of times.

**Main result (`Reachable.good`).** The queue stays sound, the ids tell the entries apart, and no
entry behind the head of its bucket has been passed over.
-/

namespace OmniRoute

open FairCostQueue List Option Bucket

/-- A fair queue in use, with the entries served so far, oldest first. Ids are minted in the order
of arrival. `watched` is the tenants whose buckets have been open since the watch began. -/
structure FairRun (τ : Type) where
  queue : FairCostQueue τ
  nextId : ℕ
  served : List (QueueEntry τ)
  watched : List String
  deriving DecidableEq

inductive QueueEvent (τ : Type)
  | enqueue (tenantKey : String) (cost enqueuedAtMs deadlineMs : ℤ) (payload : τ)
  | dequeue (maxCost : ℤ)
  | removeById (id : ℕ)
  deriving DecidableEq

namespace FairRun

variable {τ : Type}

def start (maxCount : ℕ) (maxCost : ℤ) : FairRun τ := ⟨new maxCount maxCost, 1, [], []⟩

/-- The state with the queue `q`: a watched tenant whose bucket has been deleted is dropped. -/
def become (r : FairRun τ) (q : FairCostQueue τ) : FairRun τ :=
  { r with queue := q, watched := r.watched.filter (· ∈ q.buckets.map tenant) }

def entry (r : FairRun τ) (tenantKey : String) (cost enqueuedAtMs deadlineMs : ℤ) (payload : τ) :
    QueueEntry τ :=
  { id := r.nextId, tenantKey, cost, enqueuedAtMs, deadlineMs, payload }

def step (r : FairRun τ) : QueueEvent τ → Option (FairRun τ)
  | .enqueue tenantKey cost enqueuedAtMs deadlineMs payload =>
    match r.queue.enqueue (r.entry tenantKey cost enqueuedAtMs deadlineMs payload) with
    | none => some { r with nextId := r.nextId + 1 }
    | some q => some { r.become q with nextId := r.nextId + 1 }
  | .dequeue maxCost =>
    match r.queue.dequeue maxCost with
    | none => some r
    | some (entry, q) => some { r.become q with served := r.served ++ [entry] }
  | .removeById id =>
    match r.queue.removeById id with
    | none => some r
    | some (_, q) => some (r.become q)

def Reachable (r : FairRun τ) : Prop :=
  ∃ maxCount maxCost es, Trace.exec step (start maxCount maxCost) es = some r

/-- The watch begins. -/
def watch (r : FairRun τ) : FairRun τ := { r with watched := r.queue.buckets.map tenant }

/-- Entry `id` is at the head of its bucket. -/
def AtHead (q : FairCostQueue τ) (id : ℕ) : Prop := ∃ b ∈ q.buckets, b.head.id = id

def Queued (q : FairCostQueue τ) (id : ℕ) : Prop := ∃ e ∈ q.items, e.id = id

/-- The number of entries that came after `id` and were served between `r` and `r'`. -/
def overtakes (id : ℕ) (r r' : FairRun τ) : ℕ :=
  ((r'.served.drop r.served.length).filter (id < ·.id)).length

/-- While a head waits, the later arrivals served are bounded by the contents of the queue at the
moment it came to the head. -/
def BoundedBypass (τ : Type) : Prop :=
  ∃ bound : FairCostQueue τ → ℕ, ∀ r : FairRun τ, r.Reachable → ∀ id, AtHead r.queue id →
    ∀ es r', Trace.exec step r es = some r' → Queued r'.queue id →
      overtakes id r r' ≤ bound r.queue

/-! ## What the queue is like in a run -/

/-- Entries behind the head of a bucket have not been passed over. -/
def Young (v : List (Bucket τ)) : Prop := ∀ b ∈ v, ∀ e ∈ b.tail, e.skipCount = 0

/-- The queue is sound, ids tell the entries apart, and an entry that has not come to the head of
its bucket has not been passed over. -/
structure Good (r : FairRun τ) : Prop where
  sound : r.queue.Sound
  ids : (r.queue.items.map QueueEntry.id).Nodup
  minted : ∀ e ∈ r.queue.items, e.id < r.nextId
  young : Young r.queue.view
  watched : ∀ t ∈ r.watched, t ∈ r.queue.buckets.map tenant

theorem Good.start (maxCount : ℕ) (maxCost : ℤ) : (start maxCount maxCost : FairRun τ).Good where
  sound := Sound.new maxCount maxCost
  ids := Multiset.nodup_zero
  minted := by
    intro e he
    exact absurd he (Multiset.notMem_zero e)
  young := by
    intro b hb
    cases hb
  watched := by
    intro t ht
    cases ht

theorem Good.watch {r : FairRun τ} (hr : r.Good) : r.watch.Good :=
  { hr with watched := fun _ ht => ht }

theorem watched_become (r : FairRun τ) (q : FairCostQueue τ) :
    ∀ t ∈ (r.become q).watched, t ∈ q.buckets.map tenant := by
  intro t ht
  simpa using (mem_filter.1 ht).2

/-- The other entries of a bucket, without one of them. -/
theorem tail_without {b : Bucket τ} {es₁ es₂ : List (QueueEntry τ)} {e : QueueEntry τ}
    (h : b.entries = es₁ ++ e :: es₂) : (es₁ ++ es₂).tail ⊆ b.tail := by
  cases es₁ with
  | nil =>
    obtain ⟨-, htail⟩ := List.cons.inj h
    intro x hx
    rw [htail]
    exact mem_of_mem_tail hx
  | cons e₁ es₁ =>
    obtain ⟨-, htail⟩ := List.cons.inj h
    intro x hx
    rw [htail]
    rcases mem_append.1 hx with hx | hx
    · exact mem_append_left _ hx
    · exact mem_append_right _ (mem_cons_of_mem _ hx)

theorem young_stable : Stable fun b : Bucket τ => ∀ e ∈ b.tail, e.skipCount = 0 where
  skipHead := fun _ hb => hb
  without := by
    intro b es₁ e es₂ hb hentries b' hb'
    have htail := tail_without hentries
    cases hes : es₁ ++ es₂ with
    | nil =>
      rw [hes] at hb'
      cases hb'
    | cons e' es =>
      rw [hes] at hb' htail
      obtain rfl := mem_singleton.1 hb'
      exact fun x hx => hb x (htail hx)

/-- An arrival joins the bucket of its tenant, or opens one. -/
theorem enqueue_view {q q' : FairCostQueue τ} (hq : q.Sound) {entry : QueueEntry τ}
    (h : q.enqueue entry = some q') :
    (entry.tenantKey ∈ q.buckets.map tenant ∧ q'.view = q.view.map (pushed entry)) ∨
      (entry.tenantKey ∉ q.buckets.map tenant ∧
        q'.view = q.buckets.drop q.cursor ++ ⟨entry.tenantKey, entry, []⟩ ::
          q.buckets.take q.cursor) := by
  obtain ⟨-, rfl⟩ := enqueue_eq_some.1 h
  by_cases hjoin : entry.tenantKey ∈ q.buckets.map tenant
  · refine Or.inl ⟨hjoin, ?_⟩
    show (pushTo entry q.buckets).rotate q.cursor = _
    rw [pushTo_join hq.tenants (by simpa using hjoin), view, map_rotate]
  · refine Or.inr ⟨hjoin, ?_⟩
    show (pushTo entry q.buckets).rotate q.cursor = _
    rw [pushTo_open (by simpa using hjoin), view_open hq.cursor.le]

theorem young_enqueue {q q' : FairCostQueue τ} {entry : QueueEntry τ}
    (hentry : entry.skipCount = 0) (hy : Young q.view) (h : q.enqueue entry = some q') :
    Young q'.view := by
  refine forall_enqueue hy (forall_mem_nil _) ?_ h
  intro b hb _
  exact forall_mem_append.2 ⟨hb, forall_mem_singleton.2 hentry⟩

theorem Good.step {r r' : FairRun τ} {ev : QueueEvent τ} (hr : r.Good) (h : r.step ev = some r') :
    r'.Good := by
  cases ev with
  | enqueue tenantKey cost enqueuedAtMs deadlineMs payload =>
    rw [FairRun.step] at h
    cases henq : r.queue.enqueue (r.entry tenantKey cost enqueuedAtMs deadlineMs payload) with
    | none =>
      rw [henq] at h
      cases h
      exact { hr with minted := fun e he => Nat.lt_succ_of_lt (hr.minted e he) }
    | some q =>
      rw [henq] at h
      cases h
      have hitems := items_enqueue henq
      refine ⟨hr.sound.enqueue henq, ?_, ?_, young_enqueue rfl hr.young henq, watched_become r q⟩
      · show (q.items.map QueueEntry.id).Nodup
        rw [hitems, Multiset.map_cons, Multiset.nodup_cons]
        refine ⟨?_, hr.ids⟩
        intro hmem
        obtain ⟨e, he, hid⟩ := Multiset.mem_map.1 hmem
        exact Nat.lt_irrefl _ (hid ▸ hr.minted e he)
      · show ∀ e ∈ q.items, e.id < r.nextId + 1
        rw [hitems]
        intro e he
        rcases Multiset.mem_cons.1 he with rfl | he
        · exact Nat.lt_succ_self _
        · exact Nat.lt_succ_of_lt (hr.minted e he)
  | dequeue maxCost =>
    rw [FairRun.step] at h
    cases hdeq : r.queue.dequeue maxCost with
    | none =>
      rw [hdeq] at h
      cases h
      exact hr
    | some p =>
      obtain ⟨entry, q⟩ := p
      rw [hdeq] at h
      cases h
      have hitems := (items_dequeue hdeq).1
      have hids := hr.ids
      rw [hitems, Multiset.map_cons, Multiset.nodup_cons] at hids
      refine ⟨hr.sound.dequeue hdeq, hids.2, ?_, young_stable.dequeue hr.young hdeq, watched_become r q⟩
      intro e he
      exact hr.minted e (by rw [hitems]; exact Multiset.mem_cons_of_mem he)
  | removeById id =>
    rw [FairRun.step] at h
    cases hrem : r.queue.removeById id with
    | none =>
      rw [hrem] at h
      cases h
      exact hr
    | some p =>
      obtain ⟨entry, q⟩ := p
      rw [hrem] at h
      cases h
      have hitems := (items_removeById hr.sound.cursor hrem).1
      have hids := hr.ids
      rw [hitems, Multiset.map_cons, Multiset.nodup_cons] at hids
      refine ⟨hr.sound.removeById hrem, hids.2, ?_,
        young_stable.removeById hr.sound.cursor hr.young hrem, watched_become r q⟩
      intro e he
      exact hr.minted e (by rw [hitems]; exact Multiset.mem_cons_of_mem he)

theorem Reachable.good {r : FairRun τ} (hr : r.Reachable) : r.Good := by
  obtain ⟨maxCount, maxCost, es, h⟩ := hr
  exact Trace.exec_invariant (I := Good) (fun _ _ _ hs => hs.step) (Good.start maxCount maxCost) h

end FairRun
end OmniRoute
