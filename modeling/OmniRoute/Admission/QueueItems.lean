import OmniRoute.Admission.QueueView

/-!
# What the fair queue holds

`items` is the entries of the queue, in no order and without their skip counts. Every operation
adds or removes one of them, or none.

**Main results.** `Sound` says that the counters tell the number and the cost of the items; it is
kept by every operation (`Sound.enqueue`, `Sound.dequeue`, `Sound.removeById`), and a drain
returns every item (`Sound.drain`).
-/

namespace OmniRoute

open List Bucket

variable {τ : Type}

@[simp] theorem QueueEntry.bare_bare (e : QueueEntry τ) : e.bare.bare = e.bare := rfl

@[simp] theorem QueueEntry.bare_skip (e : QueueEntry τ) : e.skip.bare = e.bare := rfl

namespace FairCostQueue

/-- The entries of some buckets. -/
def itemsOf (v : List (Bucket τ)) : Multiset (QueueEntry τ) :=
  ↑((v.flatMap entries).map QueueEntry.bare)

def items (q : FairCostQueue τ) : Multiset (QueueEntry τ) := itemsOf q.buckets

@[simp] theorem itemsOf_nil : itemsOf ([] : List (Bucket τ)) = 0 := rfl

theorem itemsOf_cons (b : Bucket τ) (v : List (Bucket τ)) :
    itemsOf (b :: v) = ↑(b.entries.map QueueEntry.bare) + itemsOf v := by
  simp [itemsOf]

theorem itemsOf_append (v₁ v₂ : List (Bucket τ)) :
    itemsOf (v₁ ++ v₂) = itemsOf v₁ + itemsOf v₂ := by
  simp [itemsOf]

theorem itemsOf_perm {v₁ v₂ : List (Bucket τ)} (h : v₁.Perm v₂) : itemsOf v₁ = itemsOf v₂ :=
  Multiset.coe_eq_coe.2 ((h.flatMap_right _).map _)

theorem items_view (q : FairCostQueue τ) : q.items = itemsOf q.view :=
  itemsOf_perm (rotate_perm _ _).symm

theorem itemsOf_skipHead (v : List (Bucket τ)) : itemsOf (v.map skipHead) = itemsOf v := by
  induction v with
  | nil => rfl
  | cons b v ih =>
    rw [map_cons, itemsOf_cons, itemsOf_cons, ih]
    rfl

theorem itemsOf_ofEntries (tenant : String) (es : List (QueueEntry τ)) :
    itemsOf (Bucket.ofEntries tenant es).toList = ↑(es.map QueueEntry.bare) := by
  cases es with
  | nil => rfl
  | cons e es => simp [Bucket.ofEntries, itemsOf, entries]

theorem itemsOf_rest (b : Bucket τ) : itemsOf [b] = b.head.bare ::ₘ itemsOf b.rest := by
  rw [rest, itemsOf_ofEntries, itemsOf_cons]
  simp [entries]

theorem mem_itemsOf {v : List (Bucket τ)} {e : QueueEntry τ} :
    e ∈ itemsOf v ↔ ∃ b ∈ v, ∃ e' ∈ b.entries, e'.bare = e := by
  simp only [itemsOf, Multiset.mem_coe, mem_map, mem_flatMap]
  constructor
  · intro ⟨e', ⟨b, hb, he'⟩, heq⟩
    exact ⟨b, hb, e', he', heq⟩
  · intro ⟨b, hb, e', he', heq⟩
    exact ⟨e', ⟨b, hb, he'⟩, heq⟩

/-! ## The operations -/

@[simp] theorem items_new (maxCount : ℕ) (maxCost : ℤ) :
    (new maxCount maxCost : FairCostQueue τ).items = 0 :=
  rfl

theorem itemsOf_pushTo (entry : QueueEntry τ) (bs : List (Bucket τ)) :
    itemsOf (pushTo entry bs) = entry.bare ::ₘ itemsOf bs := by
  induction bs with
  | nil => rfl
  | cons b bs ih =>
    rw [pushTo]
    split
    · rw [itemsOf_cons, itemsOf_cons, ← Multiset.cons_add]
      simp only [entries, map_cons, map_append, map_nil]
      congr 1
      rw [Multiset.cons_coe, Multiset.coe_eq_coe, ← cons_append]
      exact perm_append_singleton _ _
    · rw [itemsOf_cons, ih, itemsOf_cons, Multiset.add_cons]

variable {q q' : FairCostQueue τ} {entry : QueueEntry τ}

theorem items_enqueue (h : q.enqueue entry = some q') : q'.items = entry.bare ::ₘ q.items := by
  rw [enqueue] at h
  split at h
  · cases h
    exact itemsOf_pushTo entry q.buckets
  · cases h

theorem Served.items {b : Bucket τ} {v : List (Bucket τ)} (h : q.Served b v q') :
    itemsOf (b :: v) = b.head.bare ::ₘ q'.items := by
  rw [items_view, h.view, itemsOf_append, ← Multiset.add_cons, ← itemsOf_rest, ← itemsOf_append]
  exact itemsOf_perm (perm_append_singleton _ _).symm

theorem itemsOf_middle (v₁ : List (Bucket τ)) (b : Bucket τ) (v₂ : List (Bucket τ)) :
    itemsOf (v₁ ++ b :: v₂) = itemsOf (b :: (v₂ ++ v₁)) :=
  itemsOf_perm (perm_middle.trans (perm_append_comm.cons b))

/-- What a dequeue serves leaves the items, and fits. -/
theorem items_dequeue {maxCost : ℤ} (h : q.dequeue maxCost = some (entry, q')) :
    q.items = entry ::ₘ q'.items ∧ entry.cost ≤ maxCost := by
  have hcase := q.dequeue_cases maxCost
  rw [h] at hcase
  cases hcase with
  | reserved v₁ b v₂ _ view pick old fits served =>
    exact ⟨by rw [items_view, view, itemsOf_middle, served.items], fits⟩
  | fitting v₁ b v₂ _ view pick free passed fits served =>
    refine ⟨?_, fits⟩
    rw [items_view, view, itemsOf_middle, ← served.items, itemsOf_cons, itemsOf_cons,
      itemsOf_append, itemsOf_append, itemsOf_skipHead]

theorem items_removeById (hc : q.CursorOk) {id : ℕ} (h : q.removeById id = some (entry, q')) :
    q.items = entry.bare ::ₘ q'.items ∧ entry.id = id := by
  have hcase := removeById_cases hc id
  rw [h] at hcase
  cases hcase with
  | found v₁ b v₂ es₁ _ es₂ _ view entries named view' =>
    refine ⟨?_, named⟩
    have hb : itemsOf [b] =
        entry.bare ::ₘ itemsOf (Bucket.ofEntries b.tenant (es₁ ++ es₂)).toList := by
      rw [itemsOf_ofEntries, itemsOf_cons, entries, itemsOf_nil, Multiset.add_zero,
        map_append, map_cons, Multiset.cons_coe, Multiset.coe_eq_coe, map_append]
      exact perm_middle
    rw [items_view, view, items_view, view', itemsOf_append, ← singleton_append,
      itemsOf_append, hb, itemsOf_append, itemsOf_append, Multiset.cons_add, Multiset.add_cons,
      Multiset.add_assoc]

theorem removeById_none (hc : q.CursorOk) {id : ℕ} (h : q.removeById id = none) :
    ∀ e ∈ q.items, e.id ≠ id := by
  have hcase := removeById_cases hc id
  rw [h] at hcase
  cases hcase with
  | missing hid =>
    intro e he
    rw [items_view, mem_itemsOf] at he
    obtain ⟨b, hb, e', he', rfl⟩ := he
    exact hid b hb e' he'

/-! ## The counters -/

/-- The cost of some items. -/
def total (s : Multiset (QueueEntry τ)) : ℤ := (s.map QueueEntry.cost).sum

@[simp] theorem total_cons (e : QueueEntry τ) (s : Multiset (QueueEntry τ)) :
    total (e ::ₘ s) = e.cost + total s := by simp [total]

/-- A tenant has one bucket, the cursor stands on a slot, and the counters are right. -/
structure Sound (q : FairCostQueue τ) : Prop where
  tenants : (q.buckets.map Bucket.tenant).Nodup
  cursor : q.CursorOk
  count : q.count = q.items.card
  cost : q.cost = total q.items
  costs : ∀ e ∈ q.items, 0 < e.cost ∧ e.cost ≤ maxSafeInteger

theorem Sound.new (maxCount : ℕ) (maxCost : ℤ) :
    (FairCostQueue.new maxCount maxCost : FairCostQueue τ).Sound where
  tenants := nodup_nil
  cursor := Or.inl ⟨rfl, rfl⟩
  count := rfl
  cost := rfl
  costs := by simp

theorem tenants_view (q : FairCostQueue τ) :
    (q.view.map Bucket.tenant).Nodup ↔ (q.buckets.map Bucket.tenant).Nodup :=
  ((rotate_perm _ _).map _).nodup_iff

theorem canAccept_iff {cost : ℤ} :
    q.canAccept cost = true ↔
      0 < cost ∧ cost ≤ maxSafeInteger ∧ q.count < q.maxCount ∧ q.cost + cost ≤ q.maxCost := by
  simp only [canAccept, Bool.and_eq_true, decide_eq_true_eq, Bool.not_eq_true',
    decide_eq_false_iff_not, not_le, not_lt]
  constructor
  · intro ⟨⟨⟨hpos, hsafe⟩, hcount⟩, hcost⟩
    exact ⟨hpos, hsafe, hcount, by omega⟩
  · intro ⟨hpos, hsafe, hcount, hcost⟩
    exact ⟨⟨⟨hpos, hsafe⟩, hcount⟩, by omega⟩

theorem enqueue_eq_some :
    q.enqueue entry = some q' ↔ q.canAccept entry.cost = true ∧ q' = { q with
      buckets := pushTo entry q.buckets, count := q.count + 1, cost := q.cost + entry.cost } := by
  rw [enqueue]
  split
  · next h => simp [h, eq_comm]
  · next h => simp [h]

theorem tenants_pushTo {bs : List (Bucket τ)} (h : (bs.map Bucket.tenant).Nodup) :
    ((pushTo entry bs).map Bucket.tenant).Nodup := by
  by_cases hjoin : ∃ b ∈ bs, b.tenant = entry.tenantKey
  · rw [pushTo_join h hjoin, map_map]
    exact (map_congr_left fun b _ => pushed_tenant entry b) ▸ h
  · have hopen : ∀ b ∈ bs, b.tenant ≠ entry.tenantKey := by
      intro b hb heq
      exact hjoin ⟨b, hb, heq⟩
    rw [pushTo_open hopen, map_append]
    refine nodup_append.2 ⟨h, by simp, ?_⟩
    intro t ht t' ht' heq
    obtain ⟨b, hb, rfl⟩ := mem_map.1 ht
    exact hopen b hb (heq.trans (by simpa using ht'))

theorem Sound.enqueue (hq : q.Sound) (h : q.enqueue entry = some q') : q'.Sound := by
  have hitems := items_enqueue h
  obtain ⟨hacc, rfl⟩ := enqueue_eq_some.1 h
  obtain ⟨hpos, hsafe, -, -⟩ := canAccept_iff.1 hacc
  refine ⟨tenants_pushTo hq.tenants, ?_, ?_, ?_, ?_⟩
  · have hlen : q.buckets.length ≤ (pushTo entry q.buckets).length ∧
        0 < (pushTo entry q.buckets).length := by
      generalize q.buckets = bs
      induction bs with
      | nil => simp [pushTo]
      | cons b bs ih =>
        rw [pushTo]
        split
        · simp
        · simpa using ih.1
    rcases hq.cursor with ⟨hnil, hzero⟩ | hlt
    · exact Or.inr (by rw [show ({ q with
        buckets := pushTo entry q.buckets, count := q.count + 1, cost := q.cost + entry.cost } :
        FairCostQueue τ).cursor = 0 from hzero]; exact hlen.2)
    · exact Or.inr (hlt.trans_le hlen.1)
  · rw [hitems, Multiset.card_cons, ← hq.count]
  · rw [hitems, total_cons, ← hq.cost]
    exact add_comm _ _
  · rw [hitems]
    intro e he
    rcases Multiset.mem_cons.1 he with rfl | he
    · exact ⟨hpos, hsafe⟩
    · exact hq.costs e he

/-- What is left once an item has gone out. -/
theorem Sound.remove (hq : q.Sound) {e : QueueEntry τ} (hitems : q.items = e ::ₘ q'.items)
    (htenants : (q'.view.map Bucket.tenant).Nodup) (hcursor : q'.CursorOk)
    (hcount : q'.count = q.count - 1) (hcost : q'.cost = q.cost - e.cost) :
    q'.Sound where
  tenants := (tenants_view q').1 htenants
  cursor := hcursor
  count := by rw [hcount, hq.count, hitems]; simp
  cost := by rw [hcost, hq.cost, hitems, total_cons]; omega
  costs := fun x hx => hq.costs x (by rw [hitems]; exact Multiset.mem_cons_of_mem hx)

theorem tenants_ofEntries (tenant : String) (es : List (QueueEntry τ)) :
    ((Bucket.ofEntries tenant es).toList.map Bucket.tenant).Sublist [tenant] := by
  cases es with
  | nil => exact nil_sublist _
  | cons e es => exact List.Sublist.refl _

theorem Served.tenants {b : Bucket τ} {v : List (Bucket τ)} (h : q.Served b v q')
    (hnd : ((b :: v).map Bucket.tenant).Nodup) : (q'.view.map Bucket.tenant).Nodup := by
  rw [h.view, map_append]
  refine List.Nodup.sublist ((tenants_ofEntries b.tenant b.tail).append_left _) ?_
  exact (perm_append_singleton _ _).nodup_iff.2 hnd

theorem tenants_middle {v₁ v₂ : List (Bucket τ)} {b : Bucket τ}
    (h : ((v₁ ++ b :: v₂).map Bucket.tenant).Nodup) :
    ((b :: (v₂ ++ v₁)).map Bucket.tenant).Nodup :=
  ((perm_middle.trans (perm_append_comm.cons b)).map _).nodup_iff.1 h

theorem map_skipHead_tenant (v : List (Bucket τ)) :
    (v.map skipHead).map Bucket.tenant = v.map Bucket.tenant := by
  rw [map_map]
  rfl

theorem Sound.dequeue (hq : q.Sound) {maxCost : ℤ} (h : q.dequeue maxCost = some (entry, q')) :
    q'.Sound := by
  have hitems := (items_dequeue h).1
  have htenants := (tenants_view q).2 hq.tenants
  have hcase := q.dequeue_cases maxCost
  rw [h] at hcase
  cases hcase with
  | reserved v₁ b v₂ _ view pick old fits served =>
    rw [view] at htenants
    exact hq.remove hitems (served.tenants (tenants_middle htenants)) served.cursor served.count
      served.cost
  | fitting v₁ b v₂ _ view pick free passed fits served =>
    rw [view] at htenants
    have hskip : ((b :: (v₂ ++ v₁.map skipHead)).map Bucket.tenant).Nodup := by
      rw [map_cons, map_append, map_skipHead_tenant, ← map_append, ← map_cons]
      exact tenants_middle htenants
    exact hq.remove hitems (served.tenants hskip) served.cursor served.count served.cost

theorem Sound.removeById (hq : q.Sound) {id : ℕ} (h : q.removeById id = some (entry, q')) :
    q'.Sound := by
  have hitems := (items_removeById hq.cursor h).1
  have htenants := (tenants_view q).2 hq.tenants
  have hcase := removeById_cases hq.cursor id
  rw [h] at hcase
  cases hcase with
  | found v₁ b v₂ es₁ _ es₂ _ view entries named view' maxCount maxCost count cost cursor =>
    refine hq.remove hitems ?_ cursor count cost
    rw [view] at htenants
    rw [view', map_append, map_append, append_assoc]
    refine htenants.sublist ?_
    rw [map_append]
    exact (((tenants_ofEntries b.tenant _).append_right _).append_left _)

/-! ## Draining -/

/-- With all the capacity there is, a dequeue serves something unless the queue is empty. -/
theorem Sound.dequeue_none (hq : q.Sound) (h : q.dequeue maxSafeInteger = none) : q.items = 0 := by
  have hfits : ∀ b ∈ q.view, b.head.cost ≤ maxSafeInteger := by
    intro b hb
    have hmem : b.head.bare ∈ q.items := by
      rw [items_view, mem_itemsOf]
      exact ⟨b, hb, b.head, mem_cons_self, rfl⟩
    exact (hq.costs _ hmem).2
  have hcase := q.dequeue_cases maxSafeInteger
  rw [h] at hcase
  cases hcase with
  | empty hcount => exact Multiset.card_eq_zero.1 (hq.count ▸ hcount)
  | held b hb old hlt => exact absurd (hfits b hb) (not_le.2 hlt)
  | unfit free hall =>
    rw [items_view]
    cases hview : q.view with
    | nil => rfl
    | cons b v =>
      have hb : b ∈ q.view := by rw [hview]; exact mem_cons_self
      exact absurd (hfits b hb) (not_le.2 (hall b hb))

theorem drainLoop_items {n : ℕ} (hq : q.Sound) (hn : q.count ≤ n) :
    ((drainLoop n q).1 : Multiset (QueueEntry τ)) = q.items ∧ (drainLoop n q).2.items = 0 ∧
      (drainLoop n q).2.Sound := by
  induction n generalizing q with
  | zero =>
    have hzero : q.items = 0 := Multiset.card_eq_zero.1 (hq.count ▸ Nat.le_zero.1 hn)
    exact ⟨hzero.symm, hzero, hq⟩
  | succ n ih =>
    rw [drainLoop]
    cases hdeq : q.dequeue maxSafeInteger with
    | none =>
      have hzero := hq.dequeue_none hdeq
      exact ⟨hzero.symm, hzero, hq⟩
    | some r =>
      obtain ⟨entry, q'⟩ := r
      have hq' := hq.dequeue hdeq
      have hitems := (items_dequeue hdeq).1
      have hcard : q'.count + 1 = q.count := by
        rw [hq'.count, hq.count, hitems, Multiset.card_cons]
      obtain ⟨hout, hempty, hsound⟩ := ih hq' (by omega)
      exact ⟨by rw [hitems, ← hout]; rfl, hempty, hsound⟩

theorem buckets_of_items (h : q.items = 0) : q.buckets = [] := by
  cases hb : q.buckets with
  | nil => rfl
  | cons b bs =>
    rw [items, hb, itemsOf_cons] at h
    have hcard := congrArg Multiset.card h
    simp [entries] at hcard

/-- A drain returns every item and leaves none. -/
theorem Sound.drain (hq : q.Sound) :
    (q.drain.1 : Multiset (QueueEntry τ)) = q.items ∧ q.drain.2.items = 0 ∧ q.drain.2.Sound := by
  obtain ⟨hout, hempty, hsound⟩ := drainLoop_items hq le_rfl
  exact ⟨hout, hempty, hsound.tenants, Or.inl ⟨buckets_of_items hempty, rfl⟩, hsound.count,
    hsound.cost, hsound.costs⟩

/-! ## What holds of every bucket -/

/-- No service, skip or removal breaks the predicate. -/
structure Stable (p : Bucket τ → Prop) : Prop where
  skipHead : ∀ b, p b → p (skipHead b)
  without : ∀ b es₁ e es₂, p b → b.entries = es₁ ++ e :: es₂ →
    ∀ b' ∈ (Bucket.ofEntries b.tenant (es₁ ++ es₂)).toList, p b'

variable {p : Bucket τ → Prop}

theorem Stable.dequeue (hp : Stable p) {maxCost : ℤ} (hv : ∀ b ∈ q.view, p b)
    (h : q.dequeue maxCost = some (entry, q')) : ∀ b ∈ q'.view, p b := by
  have hrest : ∀ b, p b → ∀ b' ∈ b.rest, p b' := fun b hb => hp.without b [] b.head b.tail hb rfl
  have hcase := q.dequeue_cases maxCost
  rw [h] at hcase
  cases hcase with
  | reserved v₁ b v₂ _ view pick old fits served =>
    rw [view, forall_mem_append, forall_mem_cons] at hv
    rw [served.view, forall_mem_append, forall_mem_append]
    exact ⟨⟨hv.2.2, hv.1⟩, hrest b hv.2.1⟩
  | fitting v₁ b v₂ _ view pick free passed fits served =>
    rw [view, forall_mem_append, forall_mem_cons] at hv
    rw [served.view, forall_mem_append, forall_mem_append, forall_mem_map]
    exact ⟨⟨hv.2.2, fun b hb => hp.skipHead b (hv.1 b hb)⟩, hrest b hv.2.1⟩

theorem Stable.removeById (hp : Stable p) (hc : q.CursorOk) {id : ℕ} (hv : ∀ b ∈ q.view, p b)
    (h : q.removeById id = some (entry, q')) : ∀ b ∈ q'.view, p b := by
  have hcase := removeById_cases hc id
  rw [h] at hcase
  cases hcase with
  | found v₁ b v₂ es₁ e es₂ _ view entries named view' =>
    rw [view, forall_mem_append, forall_mem_cons] at hv
    rw [view', forall_mem_append, forall_mem_append]
    exact ⟨⟨hv.1, hp.without b es₁ _ es₂ hv.2.1 entries⟩, hv.2.2⟩

theorem forall_enqueue (hv : ∀ b ∈ q.view, p b) (hopen : p ⟨entry.tenantKey, entry, []⟩)
    (hjoin : ∀ b, p b → b.tenant = entry.tenantKey → p { b with tail := b.tail ++ [entry] })
    (h : q.enqueue entry = some q') : ∀ b ∈ q'.view, p b := by
  have hpush : ∀ bs : List (Bucket τ), (∀ b ∈ bs, p b) → ∀ b ∈ pushTo entry bs, p b := by
    intro bs
    induction bs with
    | nil => exact fun _ => forall_mem_singleton.2 hopen
    | cons b bs ih =>
      intro hbs
      obtain ⟨hb, hbs⟩ := forall_mem_cons.1 hbs
      rw [pushTo]
      split
      · next heq => exact forall_mem_cons.2 ⟨hjoin b hb heq, hbs⟩
      · exact forall_mem_cons.2 ⟨hb, ih hbs⟩
  obtain ⟨-, rfl⟩ := enqueue_eq_some.1 h
  simp only [view, mem_rotate] at hv ⊢
  exact hpush _ hv

end FairCostQueue
end OmniRoute
