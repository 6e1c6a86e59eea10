import OmniRoute.Admission.QueueItems
import OmniRoute.Lib.Trace

/-!
# The laws of the fair queue

The queue under any calls, with the entries it has accepted, served and removed. `line` is what
waits for one tenant, oldest first.

**Main result (`queue_laws`).** After any calls the counters, the buckets and the cursor agree,
the limits are kept, every tenant is served in the order of its arrivals, a served entry fits, and
a drain returns what is stored, each entry once.
-/

namespace OmniRoute.FairCostQueue

open List Bucket

variable {τ : Type}

/-! ## The line of a tenant -/

/-- The entries in the bucket of a tenant, without their skip counts. -/
def lineOf (t : String) (v : List (Bucket τ)) : List (QueueEntry τ) :=
  (v.filter (·.tenant = t)).flatMap fun b => b.entries.map QueueEntry.bare

def line (q : FairCostQueue τ) (t : String) : List (QueueEntry τ) := lineOf t q.buckets

/-- Every entry is in the bucket of its tenant. -/
def Homed (v : List (Bucket τ)) : Prop := ∀ b ∈ v, ∀ e ∈ b.entries, e.tenantKey = b.tenant

variable {t : String} {u v : List (Bucket τ)} {b : Bucket τ}

theorem lineOf_append : lineOf t (u ++ v) = lineOf t u ++ lineOf t v := by
  rw [lineOf, filter_append, flatMap_append]
  rfl

theorem lineOf_cons : lineOf t (b :: v) = lineOf t [b] ++ lineOf t v := lineOf_append (u := [b])

theorem lineOf_ofEntries (tenant : String) (es : List (QueueEntry τ)) :
    lineOf t (ofEntries tenant es).toList =
      if tenant = t then es.map QueueEntry.bare else [] := by
  cases es with
  | nil => simp [ofEntries, lineOf]
  | cons e es =>
    by_cases ht : tenant = t <;> simp [ofEntries, lineOf, ht, entries]

theorem lineOf_singleton :
    lineOf t [b] = if b.tenant = t then b.entries.map QueueEntry.bare else [] :=
  lineOf_ofEntries b.tenant b.entries

theorem lineOf_skipHead : lineOf t (v.map skipHead) = lineOf t v := by
  induction v with
  | nil => rfl
  | cons b v ih =>
    rw [map_cons, lineOf_cons, ih, lineOf_cons (b := b), lineOf_singleton, lineOf_singleton]
    rfl

theorem lineOf_eq_nil (h : t ∉ v.map tenant) : lineOf t v = [] := by
  rw [lineOf, filter_eq_nil_iff.2]
  · rfl
  · intro b hb ht
    exact h (mem_map.2 ⟨b, hb, by simpa using ht⟩)

/-- A tenant has one bucket, so it does not matter where it stands. -/
theorem lineOf_perm (h : u.Perm v) (hnd : (u.map tenant).Nodup) : lineOf t u = lineOf t v := by
  induction h with
  | nil => rfl
  | cons b _ ih =>
    rw [lineOf_cons, ih (nodup_cons.1 hnd).2, ← lineOf_cons]
  | swap a b v =>
    have hne : b.tenant ≠ a.tenant := by
      intro heq
      exact (nodup_cons.1 hnd).1 (by simp [heq])
    have hswap : lineOf t [b] ++ lineOf t [a] = lineOf t [a] ++ lineOf t [b] := by
      rw [lineOf_singleton, lineOf_singleton]
      by_cases ha : a.tenant = t
      · rw [if_neg (ha ▸ hne), append_nil, nil_append]
      · rw [if_neg ha, append_nil, nil_append]
    show lineOf t ([b] ++ ([a] ++ v)) = lineOf t ([a] ++ ([b] ++ v))
    rw [lineOf_append, lineOf_append, lineOf_append, lineOf_append, ← append_assoc, hswap,
      append_assoc]
  | trans h₁ _ ih₁ ih₂ => exact (ih₁ hnd).trans (ih₂ ((h₁.map _).nodup_iff.1 hnd))

theorem line_view (q : FairCostQueue τ) (hnd : (q.buckets.map tenant).Nodup) :
    q.line t = lineOf t q.view :=
  lineOf_perm (rotate_perm _ _).symm hnd

/-- The entries of `es` that belong to tenant `t`. -/
def ofTenant (t : String) (es : List (QueueEntry τ)) : List (QueueEntry τ) :=
  es.filter (·.tenantKey = t)

theorem ofTenant_append (es es' : List (QueueEntry τ)) :
    ofTenant t (es ++ es') = ofTenant t es ++ ofTenant t es' := filter_append ..

theorem ofTenant_singleton (e : QueueEntry τ) :
    ofTenant t [e] = if e.tenantKey = t then [e] else [] := by
  by_cases ht : e.tenantKey = t <;> simp [ofTenant, ht]

variable {q q' : FairCostQueue τ} {entry : QueueEntry τ}

theorem lineOf_pushTo {bs : List (Bucket τ)} (hnd : (bs.map tenant).Nodup) :
    lineOf t (pushTo entry bs) = lineOf t bs ++ ofTenant t [entry.bare] := by
  rw [ofTenant_singleton]
  induction bs with
  | nil => exact lineOf_singleton
  | cons b bs ih =>
    obtain ⟨hnot, hnd⟩ := nodup_cons.1 hnd
    rw [pushTo, lineOf_cons (b := b)]
    split
    · next hb =>
      rw [lineOf_cons, lineOf_singleton, lineOf_singleton]
      by_cases ht : b.tenant = t
      · rw [if_pos ht, if_pos ht, if_pos (show entry.bare.tenantKey = t from hb.symm.trans ht),
          lineOf_eq_nil (ht ▸ hnot)]
        simp [entries]
      · rw [if_neg ht, if_neg ht, if_neg (show entry.bare.tenantKey ≠ t from hb ▸ ht), append_nil]
    · rw [lineOf_cons, ih hnd, append_assoc]

theorem Served.line (h : q.Served b v q') (hnd : ((b :: v).map tenant).Nodup)
    (hb : b.head.tenantKey = b.tenant) :
    lineOf t (b :: v) = ofTenant t [b.head.bare] ++ q'.line t := by
  rw [line_view q' ((tenants_view q').1 (h.tenants hnd)), h.view, lineOf_cons, lineOf_append,
    rest, lineOf_ofEntries, lineOf_singleton, ofTenant_singleton]
  by_cases ht : b.tenant = t
  · rw [if_pos ht, if_pos ht, if_pos (show b.head.bare.tenantKey = t from hb.trans ht),
      lineOf_eq_nil (ht ▸ (nodup_cons.1 hnd).1), append_nil]
    rfl
  · rw [if_neg ht, if_neg ht, if_neg (show b.head.bare.tenantKey ≠ t from hb ▸ ht), append_nil]

/-- A dequeue serves the first of its tenant's line. -/
theorem line_dequeue (hq : q.Sound) (hh : Homed q.view) {maxCost : ℤ}
    (h : q.dequeue maxCost = some (entry, q')) : q.line t = ofTenant t [entry] ++ q'.line t := by
  have htenants := (tenants_view q).2 hq.tenants
  have hcase := q.dequeue_cases maxCost
  rw [line_view q hq.tenants]
  rw [h] at hcase
  cases hcase with
  | reserved v₁ b v₂ _ view pick old fits served =>
    rw [view] at htenants hh ⊢
    rw [lineOf_perm (perm_middle.trans (perm_append_comm.cons b)) htenants]
    exact served.line (tenants_middle htenants) (hh b (by simp) _ mem_cons_self)
  | fitting v₁ b v₂ _ view pick free passed fits served =>
    rw [view] at htenants hh ⊢
    have hskip : ((b :: (v₂ ++ v₁.map skipHead)).map tenant).Nodup := by
      rw [map_cons, map_append, map_skipHead_tenant, ← map_append, ← map_cons]
      exact tenants_middle htenants
    rw [lineOf_perm (perm_middle.trans (perm_append_comm.cons b)) htenants,
      ← served.line hskip (hh b (by simp) _ mem_cons_self), lineOf_cons, lineOf_append,
      lineOf_cons (v := v₂ ++ _), lineOf_append, lineOf_skipHead]

theorem line_removeById (hq : q.Sound) {id : ℕ} (h : q.removeById id = some (entry, q')) :
    q'.line t <+ q.line t := by
  have hq' := hq.removeById h
  have hcase := removeById_cases hq.cursor id
  rw [line_view q hq.tenants, line_view q' hq'.tenants]
  rw [h] at hcase
  cases hcase with
  | found v₁ b v₂ es₁ _ es₂ _ view entries named view' =>
    rw [view, view', lineOf_append, lineOf_append, lineOf_append, lineOf_cons, append_assoc]
    refine Sublist.append_left (Sublist.append_right ?_ _) _
    rw [lineOf_ofEntries, lineOf_singleton, entries]
    split
    · exact ((sublist_cons_self _ _).append_left _).map _
    · exact Sublist.refl _

/-! ## The buckets of the entries -/

theorem homed_stable : Stable fun b : Bucket τ => ∀ e ∈ b.entries, e.tenantKey = b.tenant where
  skipHead := by
    intro b hb e he
    obtain ⟨hhead, htail⟩ := forall_mem_cons.1 hb
    rcases mem_cons.1 he with rfl | he
    · exact hhead
    · exact htail e he
  without := by
    intro b es₁ e es₂ hb hentries b' hb'
    have hsub : es₁ ++ es₂ ⊆ b.entries := by
      rw [hentries]
      exact ((sublist_cons_self _ _).append_left _).subset
    cases hes : es₁ ++ es₂ with
    | nil =>
      rw [hes] at hb'
      cases hb'
    | cons e' es =>
      rw [hes] at hb' hsub
      obtain rfl := mem_singleton.1 hb'
      exact fun x hx => hb x (hsub hx)

theorem homed_enqueue (hh : Homed q.view) (h : q.enqueue entry = some q') : Homed q'.view := by
  refine forall_enqueue hh (forall_mem_singleton.2 rfl) ?_ h
  intro b hb heq
  refine forall_mem_append.2 ⟨hb, forall_mem_singleton.2 heq.symm⟩

theorem homed_view (q : FairCostQueue τ) : Homed q.view ↔ Homed q.buckets := by
  simp only [Homed, view, mem_rotate]

/-! ## Any calls -/

/-- A queue with what it has accepted, served and removed, oldest first. -/
structure History (τ : Type) where
  queue : FairCostQueue τ
  accepted : List (QueueEntry τ)
  served : List (QueueEntry τ)
  removed : List (QueueEntry τ)

inductive Call (τ : Type)
  | enqueue (entry : QueueEntry τ)
  | dequeue (maxCost : ℤ)
  | removeById (id : ℕ)
  | drain

namespace History

def start (maxCount maxCost : ℕ) : History τ := ⟨new maxCount maxCost, [], [], []⟩

def step (r : History τ) : Call τ → Option (History τ)
  | .enqueue entry =>
    match r.queue.enqueue entry with
    | none => some r
    | some queue => some { r with queue, accepted := r.accepted ++ [entry.bare] }
  | .dequeue maxCost =>
    match r.queue.dequeue maxCost with
    | none => some r
    | some (entry, queue) => some { r with queue, served := r.served ++ [entry] }
  | .removeById id =>
    match r.queue.removeById id with
    | none => some r
    | some (entry, queue) => some { r with queue, removed := r.removed ++ [entry.bare] }
  | .drain =>
    some { r with queue := r.queue.drain.2, served := r.served ++ r.queue.drain.1 }

/-- Every tenant has been served in the order of its arrivals, and what waits comes after. -/
def InOrder (r : History τ) : Prop :=
  ∀ t, ofTenant t r.served ++ r.queue.line t <+ ofTenant t r.accepted

structure Lawful (maxCount maxCost : ℕ) (r : History τ) : Prop where
  sound : r.queue.Sound
  homed : Homed r.queue.view
  limits : r.queue.maxCount = maxCount ∧ r.queue.maxCost = maxCost
  count_le : r.queue.count ≤ maxCount
  cost_le : r.queue.cost ≤ maxCost
  inOrder : r.InOrder
  account : (r.accepted : Multiset (QueueEntry τ)) = ↑(r.served ++ r.removed) + r.queue.items

variable {maxCount maxCost : ℕ} {r r' : History τ}

theorem Lawful.start : (start maxCount maxCost : History τ).Lawful maxCount maxCost where
  sound := Sound.new _ _
  homed := forall_mem_nil _
  limits := ⟨rfl, rfl⟩
  count_le := Nat.zero_le _
  cost_le := Int.natCast_nonneg _
  inOrder := fun _ => Sublist.refl _
  account := rfl

/-- What is left of the counters once an entry has gone. -/
theorem counters_le (hq : q.Sound) (hq' : q'.Sound) {e : QueueEntry τ}
    (hitems : q.items = e ::ₘ q'.items) : q'.count ≤ q.count ∧ q'.cost ≤ q.cost := by
  have hpos : 0 < e.cost := (hq.costs e (hitems ▸ Multiset.mem_cons_self _ _)).1
  rw [hq.count, hq'.count, hq.cost, hq'.cost, hitems, total_cons, Multiset.card_cons]
  exact ⟨Nat.le_succ _, by omega⟩

theorem limits_dequeue {maxCost : ℤ} (h : q.dequeue maxCost = some (entry, q')) :
    q'.maxCount = q.maxCount ∧ q'.maxCost = q.maxCost := by
  have hcase := q.dequeue_cases maxCost
  rw [h] at hcase
  cases hcase with
  | reserved v₁ b v₂ _ view pick old fits served => exact ⟨served.maxCount, served.maxCost⟩
  | fitting v₁ b v₂ _ view pick free passed fits served => exact ⟨served.maxCount, served.maxCost⟩

section

variable (hr : r.Lawful maxCount maxCost)
include hr

theorem Lawful.enqueue {queue : FairCostQueue τ} (h : r.queue.enqueue entry = some queue) :
    ({ r with queue, accepted := r.accepted ++ [entry.bare] } : History τ).Lawful maxCount
      maxCost := by
  have hitems := items_enqueue h
  have hsound := hr.sound.enqueue h
  have hhomed := homed_enqueue hr.homed h
  obtain ⟨hacc, rfl⟩ := enqueue_eq_some.1 h
  obtain ⟨-, -, hcount, hcost⟩ := canAccept_iff.1 hacc
  rw [hr.limits.1] at hcount
  rw [hr.limits.2] at hcost
  refine ⟨hsound, hhomed, hr.limits, hcount, hcost, ?_, ?_⟩
  · intro t
    show ofTenant t r.served ++ lineOf t (pushTo entry r.queue.buckets) <+ _
    rw [lineOf_pushTo hr.sound.tenants, ← append_assoc, ofTenant_append]
    exact (hr.inOrder t).append_right _
  · show (↑(r.accepted ++ [entry.bare]) : Multiset (QueueEntry τ)) = _
    rw [hitems, ← Multiset.coe_add, hr.account, Multiset.add_cons, Multiset.coe_singleton,
      Multiset.add_comm, Multiset.singleton_add]

theorem Lawful.dequeue {queue : FairCostQueue τ} {cost : ℤ}
    (h : r.queue.dequeue cost = some (entry, queue)) :
    ({ r with queue, served := r.served ++ [entry] } : History τ).Lawful maxCount maxCost := by
  have hitems := (items_dequeue h).1
  have hsound := hr.sound.dequeue h
  obtain ⟨hcount, hcost⟩ := counters_le hr.sound hsound hitems
  obtain ⟨hmax, hmax'⟩ := limits_dequeue h
  refine ⟨hsound, homed_stable.dequeue hr.homed h, ⟨hmax.trans hr.limits.1, hmax'.trans hr.limits.2⟩,
    hcount.trans hr.count_le, hcost.trans hr.cost_le, ?_, ?_⟩
  · intro t
    have hline := line_dequeue (t := t) hr.sound hr.homed h
    show ofTenant t (r.served ++ [entry]) ++ queue.line t <+ _
    rw [ofTenant_append, append_assoc, ← hline]
    exact hr.inOrder t
  · rw [hr.account, hitems, Multiset.add_cons, ← Multiset.cons_add, Multiset.cons_coe]
    congr 1
    show _ = (↑(r.served ++ [entry] ++ r.removed) : Multiset (QueueEntry τ))
    rw [append_assoc]
    exact Multiset.coe_eq_coe.2 perm_middle.symm

theorem Lawful.removeById {queue : FairCostQueue τ} {id : ℕ}
    (h : r.queue.removeById id = some (entry, queue)) :
    ({ r with queue, removed := r.removed ++ [entry.bare] } : History τ).Lawful maxCount
      maxCost := by
  have hitems := (items_removeById hr.sound.cursor h).1
  have hsound := hr.sound.removeById h
  obtain ⟨hcount, hcost⟩ := counters_le hr.sound hsound hitems
  have hlimits : queue.maxCount = r.queue.maxCount ∧ queue.maxCost = r.queue.maxCost := by
    have hcase := removeById_cases hr.sound.cursor id
    rw [h] at hcase
    cases hcase with
    | found _ _ _ _ _ _ _ _ _ _ _ maxCount maxCost => exact ⟨maxCount, maxCost⟩
  refine ⟨hsound, homed_stable.removeById hr.sound.cursor hr.homed h,
    ⟨hlimits.1.trans hr.limits.1, hlimits.2.trans hr.limits.2⟩, hcount.trans hr.count_le,
    hcost.trans hr.cost_le, ?_, ?_⟩
  · intro t
    exact ((line_removeById hr.sound h).append_left _).trans (hr.inOrder t)
  · rw [hr.account, hitems, Multiset.add_cons, ← Multiset.cons_add, Multiset.cons_coe]
    congr 1
    show _ = (↑(r.served ++ (r.removed ++ [entry.bare])) : Multiset (QueueEntry τ))
    rw [← append_assoc]
    exact Multiset.coe_eq_coe.2 (perm_append_singleton _ _).symm

/-- A drain is dequeues with all the capacity there is. -/
theorem Lawful.drainLoop (n : ℕ) :
    ({ r with queue := (drainLoop n r.queue).2, served := r.served ++ (drainLoop n r.queue).1 } :
      History τ).Lawful maxCount maxCost := by
  induction n generalizing r with
  | zero => simpa [FairCostQueue.drainLoop] using hr
  | succ n ih =>
    rw [FairCostQueue.drainLoop]
    cases hdeq : r.queue.dequeue maxSafeInteger with
    | none => simpa using hr
    | some p =>
      have ih := ih (hr.dequeue hdeq)
      rw [append_assoc] at ih
      exact ih

theorem Lawful.drain : ({ r with queue := r.queue.drain.2, served := r.served ++ r.queue.drain.1 } :
      History τ).Lawful maxCount maxCost := by
  have hloop := hr.drainLoop r.queue.count
  have hhomed := (homed_view _).1 hloop.homed
  exact ⟨hr.sound.drain.2.2, (homed_view _).2 hhomed, hloop.limits, hloop.count_le, hloop.cost_le,
    hloop.inOrder, hloop.account⟩

theorem Lawful.step {c : Call τ} (h : r.step c = some r') : r'.Lawful maxCount maxCost := by
  cases c with
  | enqueue entry =>
    rw [History.step] at h
    cases hcall : r.queue.enqueue entry with
    | none =>
      rw [hcall] at h
      cases h
      exact hr
    | some queue =>
      rw [hcall] at h
      cases h
      exact hr.enqueue hcall
  | dequeue cost =>
    rw [History.step] at h
    cases hcall : r.queue.dequeue cost with
    | none =>
      rw [hcall] at h
      cases h
      exact hr
    | some p =>
      rw [hcall] at h
      cases h
      exact hr.dequeue hcall
  | removeById id =>
    rw [History.step] at h
    cases hcall : r.queue.removeById id with
    | none =>
      rw [hcall] at h
      cases h
      exact hr
    | some p =>
      rw [hcall] at h
      cases h
      exact hr.removeById hcall
  | drain =>
    cases h
    exact hr.drain

end

end History

/-- The entries in store. -/
def stored (q : FairCostQueue τ) : List (QueueEntry τ) := q.buckets.flatMap entries

theorem homed_stored (h : Homed q.view) (t : String) :
    t ∈ q.buckets.map tenant ↔ ∃ e ∈ q.stored, e.tenantKey = t := by
  have h := (homed_view q).1 h
  simp only [stored, mem_map, mem_flatMap]
  constructor
  · intro ⟨b, hb, ht⟩
    exact ⟨b.head, ⟨b, hb, mem_cons_self⟩, (h b hb _ mem_cons_self).trans ht⟩
  · intro ⟨e, ⟨b, hb, he⟩, ht⟩
    exact ⟨b, hb, (h b hb e he).symm.trans ht⟩

/-- Two tenants: one request is served, and another one removed. -/
def twoTenants : List (Call Unit) :=
  [.enqueue ⟨1, "a", 3, 0, 9, (), 0⟩, .enqueue ⟨2, "b", 2, 0, 9, (), 0⟩,
    .enqueue ⟨3, "a", 1, 0, 9, (), 0⟩, .dequeue 5, .removeById 2]

end OmniRoute.FairCostQueue
