import OmniRoute.Admission.FairQueue

/-!
# The fair queue from the cursor on

`view` is the list of buckets in the order a pass visits them. Serving a bucket turns the view:
the buckets after it come first, those before it follow, and what is left of it comes last.

**Main results.** `dequeue_cases` and `removeById_cases` say what the two operations do to the
view, with the cursor arithmetic of the code gone; `pushTo_join` and `view_open` do the same for
an arrival.
-/

namespace OmniRoute.FairCostQueue

open List Bucket Nat

variable {τ : Type}

/-! ## The view from the cursor -/

/-- The buckets in the order a pass visits them. -/
def view (q : FairCostQueue τ) : List (Bucket τ) := q.buckets.rotate q.cursor

/-- The slot of the bucket that comes `p`-th in the view. -/
def slot (q : FairCostQueue τ) (p : ℕ) : ℕ := (q.cursor + p) % q.buckets.length

@[simp] theorem length_view (q : FairCostQueue τ) : q.view.length = q.buckets.length :=
  length_rotate ..

theorem getElem?_slot (q : FairCostQueue τ) {p : ℕ} (hp : p < q.buckets.length) :
    q.buckets[q.slot p]? = q.view[p]? := by
  rw [view, getElem?_rotate hp, slot, add_comm]

theorem visits_eq (q : FairCostQueue τ) : q.visits = (List.range q.view.length).map q.slot := by
  rw [length_view]
  rfl

theorem exists_split_of_getElem? {α : Type*} {l : List α} {i : ℕ} {a : α}
    (h : l[i]? = some a) : ∃ l₁ l₂, l = l₁ ++ a :: l₂ ∧ l₁.length = i := by
  obtain ⟨hi, rfl⟩ := List.getElem?_eq_some_iff.1 h
  exact ⟨l.take i, l.drop (i + 1), by simp, by simp; omega⟩

variable {q : FairCostQueue τ}

theorem slot_split {v₁ v₂ : List (Bucket τ)} {b : Bucket τ} (h : q.view = v₁ ++ b :: v₂) :
    ∃ l₁ l₂, q.buckets = l₁ ++ b :: l₂ ∧ l₁.length = q.slot v₁.length ∧ l₂ ++ l₁ = v₂ ++ v₁ := by
  have hlt : v₁.length < q.buckets.length := by
    rw [← length_view, h]
    simp
  have hget : q.buckets[q.slot v₁.length]? = some b := by
    rw [q.getElem?_slot hlt, h]
    simp
  obtain ⟨l₁, l₂, hl, hlen⟩ := exists_split_of_getElem? hget
  refine ⟨l₁, l₂, hl, hlen, ?_⟩
  -- both sides are the buckets rotated to the slot, without the bucket there
  have hl' : q.buckets.rotate (q.slot v₁.length) = b :: l₂ ++ l₁ := by
    rw [hl, ← hlen, rotate_append_length_eq]
  have hv' : q.buckets.rotate (q.slot v₁.length) = b :: v₂ ++ v₁ := by
    rw [slot, rotate_mod, ← rotate_rotate]
    show q.view.rotate v₁.length = _
    rw [h, rotate_append_length_eq]
  rw [hl'] at hv'
  exact cons_inj_right b |>.1 hv'

/-! ## Serving a bucket -/

/-- The cursor stands on a slot, if there is one. -/
def CursorOk (q : FairCostQueue τ) : Prop := q.buckets = [] ∧ q.cursor = 0 ∨
  q.cursor < q.buckets.length

/-- The queue `q` after the head of the bucket `b` has been served, with `v` the other buckets:
the view starts after `b`, and what is left of `b` comes last. -/
structure Served (q : FairCostQueue τ) (b : Bucket τ) (v : List (Bucket τ))
    (q' : FairCostQueue τ) : Prop where
  view : q'.view = v ++ b.rest
  maxCount : q'.maxCount = q.maxCount
  maxCost : q'.maxCost = q.maxCost
  count : q'.count = q.count - 1
  cost : q'.cost = q.cost - b.head.cost
  cursor : q'.CursorOk

theorem takeAt_view {v₁ v₂ : List (Bucket τ)} {b : Bucket τ} (h : q.view = v₁ ++ b :: v₂) :
    ∃ q', q.takeAt (q.slot v₁.length) = some (b.head.bare, q') ∧ q.Served b (v₂ ++ v₁) q' := by
  obtain ⟨l₁, l₂, hl, hlen, hturn⟩ := slot_split h
  have hget : q.buckets[q.slot v₁.length]? = some b := by rw [hl, ← hlen]; simp
  cases htail : b.tail with
  | nil =>
    have herase : q.buckets.eraseIdx (q.slot v₁.length) = l₁ ++ l₂ := by
      rw [hl, ← hlen, eraseIdx_append_of_length_le le_rfl]
      simp
    simp only [takeAt, hget, htail, ofEntries, herase]
    refine ⟨_, rfl, ?_, rfl, rfl, rfl, rfl, ?_⟩
    · simp only [FairCostQueue.view, ofEntries, rest, htail, Option.toList_none,
        append_nil, ← hturn]
      split
      · next hnil => simp [append_eq_nil_iff.1 (length_eq_zero_iff.1 hnil)]
      · rw [rotate_mod, ← hlen, rotate_append_length_eq]
    · dsimp only [CursorOk]
      split
      · next hnil => exact Or.inl ⟨length_eq_zero_iff.1 hnil, rfl⟩
      · next hne => exact Or.inr (mod_lt _ (pos_of_ne_zero hne))
  | cons e es =>
    have hset : q.buckets.set (q.slot v₁.length) ⟨b.tenant, e, es⟩ =
        (l₁ ++ [⟨b.tenant, e, es⟩]) ++ l₂ := by
      rw [hl, ← hlen, set_append_right _ _ le_rfl]
      simp
    have hpos : 0 < q.buckets.length := length_pos_iff.2 (by rw [hl]; simp)
    simp only [takeAt, hget, htail, ofEntries]
    refine ⟨_, rfl, ?_, rfl, rfl, rfl, rfl, ?_⟩
    · simp only [FairCostQueue.view, ofEntries, rest, htail, Option.toList_some, ← hturn]
      have hmod : ((q.slot v₁.length + 1) % q.buckets.length) =
          (q.slot v₁.length + 1) % (q.buckets.set (q.slot v₁.length) ⟨b.tenant, e, es⟩).length := by
        rw [length_set]
      have hlen' : q.slot v₁.length + 1 = (l₁ ++ [(⟨b.tenant, e, es⟩ : Bucket τ)]).length := by
        simp [hlen]
      rw [hmod, rotate_mod, hset, hlen', rotate_append_length_eq, append_assoc]
    · simp only [CursorOk, length_set]
      exact Or.inr (mod_lt _ hpos)

/-! ## Passing over heads -/

theorem rotate_modify {α : Type*} (l : List α) (c p : ℕ) (f : α → α) (hp : p < l.length) :
    (l.modify ((c + p) % l.length) f).rotate c = (l.rotate c).modify p f := by
  apply ext_getElem
  · simp
  · intro k hk _
    have hk' : k < l.length := by simpa using hk
    rw [getElem_rotate, getElem_modify, getElem_modify, getElem_rotate]
    have hiff : (c + p) % l.length = (k + c) % l.length ↔ p = k := by
      rw [add_comm k c]
      constructor
      · intro heq
        exact Nat.ModEq.eq_of_lt_of_lt (Nat.ModEq.add_left_cancel' c heq) hp hk'
      · intro heq
        rw [heq]
    simp only [length_modify, hiff]

theorem skipSlots_view {v₁ v₂ : List (Bucket τ)} (h : q.view = v₁ ++ v₂) :
    (q.skipSlots ((List.range v₁.length).map q.slot)).view = v₁.map skipHead ++ v₂ ∧
      (q.skipSlots ((List.range v₁.length).map q.slot)).buckets.length = q.buckets.length := by
  induction v₁ using reverseRecOn generalizing v₂ with
  | nil =>
    rw [nil_append] at h
    exact ⟨h, rfl⟩
  | append_singleton v b ih =>
    rw [append_assoc] at h
    obtain ⟨hview, hlen⟩ := ih h
    have hlt : v.length < q.buckets.length := by
      rw [← length_view, h]
      simp
    rw [length_append, length_singleton, range_succ, map_append, skipSlots, foldl_append]
    simp only [map_singleton, foldl_cons, foldl_nil]
    refine ⟨?_, by rw [length_modify]; exact hlen⟩
    -- the last slot of the list is skipped in the queue where the others have been skipped
    generalize hqs : q.skipSlots ((range v.length).map q.slot) = qs at hview hlen
    have hb : ((range v.length).map q.slot).foldl
        (fun bs idx => bs.modify idx skipHead) q.buckets = qs.buckets := by
      rw [← hqs]; rfl
    have hc : qs.cursor = q.cursor := by rw [← hqs]; rfl
    rw [hb, view, slot, ← hc, ← hlen, rotate_modify _ _ _ _ (by omega)]
    have hview' : qs.buckets.rotate qs.cursor = v.map skipHead ++ b :: v₂ := hview
    rw [hview', modify_eq_take_drop]
    simp

/-! ## The two passes -/

/-- What the first pass keeps after the buckets `v`: nothing if none of them reserves, and the
oldest reserving one otherwise. -/
def ReservedIn (q : FairCostQueue τ) (v : List (Bucket τ)) : Option (ℕ × QueueEntry τ) → Prop
  | none => ∀ b ∈ v, ¬ b.Reserves
  | some r => ∃ v₁ b v₂, v = v₁ ++ b :: v₂ ∧ r = (q.slot v₁.length, b.head) ∧ b.Reserves ∧
      ∀ b' ∈ v, b'.Reserves → b.head.enqueuedAtMs ≤ b'.head.enqueuedAtMs

theorem reserved_spec (q : FairCostQueue τ) : q.ReservedIn q.view q.reserved := by
  rw [reserved, visits_eq, foldl_map]
  generalize hv : q.view = v
  have hget : ∀ p, p < v.length → q.buckets[q.slot p]? = v[p]? := by
    intro p hp
    rw [q.getElem?_slot (by rw [← length_view, hv]; exact hp), hv]
  clear hv
  -- the pass keeps the invariant bucket by bucket
  induction v using reverseRecOn with
  | nil => simp [ReservedIn]
  | append_singleton v b ih =>
    have hb : q.buckets[q.slot v.length]? = some b := by
      rw [hget _ (by simp)]
      simp
    have ih := ih fun p hp => by
      rw [hget p (by rw [length_append]; omega), getElem?_append_left hp]
    rw [length_append, length_singleton, range_succ, foldl_append]
    simp only [foldl_cons, foldl_nil, hb]
    generalize foldl _ none (range v.length) = found at ih ⊢
    by_cases hres : b.Reserves
    · unfold reserve
      rw [if_pos (show maxUnfittableSkips ≤ b.head.skipCount from hres)]
      cases found with
      | none =>
        refine ⟨v, b, [], rfl, rfl, hres, fun b' hb' hres' => ?_⟩
        rcases mem_append.1 hb' with hb' | hb'
        · exact absurd hres' (ih b' hb')
        · rw [mem_singleton.1 hb']
      | some r =>
        obtain ⟨v₁, b₁, v₂, rfl, rfl, hres₁, hmin⟩ := ih
        dsimp only
        split
        · next hlt =>
          refine ⟨_, b, [], rfl, rfl, hres, fun b' hb' hres' => ?_⟩
          rcases mem_append.1 hb' with hb' | hb'
          · exact hlt.le.trans (hmin b' hb' hres')
          · rw [mem_singleton.1 hb']
        · next hnot =>
          refine ⟨v₁, b₁, v₂ ++ [b], by simp, rfl, hres₁, fun b' hb' hres' => ?_⟩
          rcases mem_append.1 hb' with hb' | hb'
          · exact hmin b' hb' hres'
          · rw [mem_singleton.1 hb']
            exact not_lt.1 hnot
    · unfold reserve
      rw [if_neg (show ¬ maxUnfittableSkips ≤ b.head.skipCount from hres)]
      cases found with
      | none =>
        intro b' hb'
        rcases mem_append.1 hb' with hb' | hb'
        · exact ih b' hb'
        · rw [mem_singleton.1 hb']
          exact hres
      | some r =>
        obtain ⟨v₁, b₁, v₂, rfl, rfl, hres₁, hmin⟩ := ih
        refine ⟨v₁, b₁, v₂ ++ [b], by simp, rfl, hres₁, fun b' hb' hres' => ?_⟩
        rcases mem_append.1 hb' with hb' | hb'
        · exact hmin b' hb' hres'
        · rw [mem_singleton.1 hb'] at hres'
          exact absurd hres' hres

/-- The second pass over the buckets `v`, which come after `k` others in the view. -/
theorem firstFitting_spec (q : FairCostQueue τ) (maxCost : ℤ) {v : List (Bucket τ)} {k : ℕ}
    (hget : ∀ p, p < v.length → q.buckets[q.slot (k + p)]? = v[p]?) :
    match q.firstFitting maxCost ((List.range k).map q.slot)
        ((List.range' k v.length).map q.slot) with
    | none => ∀ b ∈ v, maxCost < b.head.cost
    | some (idx, bypassed) => ∃ v₁ b v₂, v = v₁ ++ b :: v₂ ∧ idx = q.slot (k + v₁.length) ∧
        bypassed = (List.range (k + v₁.length)).map q.slot ∧ (∀ b' ∈ v₁, maxCost < b'.head.cost) ∧
        b.head.cost ≤ maxCost := by
  induction v generalizing k with
  | nil => simp [firstFitting]
  | cons b v ih =>
    have hb : q.buckets[q.slot k]? = some b := by simpa using hget 0 (by simp)
    simp only [length_cons, range'_succ, map_cons, firstFitting, hb]
    by_cases hfit : maxCost < b.head.cost
    · have ih := ih (k := k + 1) fun p hp => by
        rw [add_assoc, add_comm 1]
        simpa using hget (p + 1) (by simpa using hp)
      rw [if_pos hfit]
      rw [range_succ, map_append, map_singleton] at ih
      generalize q.firstFitting maxCost _ _ = found at ih ⊢
      cases found with
      | none =>
        intro b' hb'
        rcases mem_cons.1 hb' with rfl | hb'
        · exact hfit
        · exact ih b' hb'
      | some r =>
        obtain ⟨v₁, b₁, v₂, rfl, hidx, hby, hskip, hb₁⟩ := ih
        have hk : k + 1 + v₁.length = k + (b :: v₁).length := by simp; omega
        refine ⟨b :: v₁, b₁, v₂, rfl, hk ▸ hidx, hk ▸ hby, fun b' hb' => ?_, hb₁⟩
        rcases mem_cons.1 hb' with rfl | hb'
        · exact hfit
        · exact hskip b' hb'
    · rw [if_neg hfit]
      exact ⟨[], b, v, rfl, rfl, rfl, by simp, not_lt.1 hfit⟩

/-- `b` is the oldest of the buckets whose head has reserved the capacity. -/
def Oldest (q : FairCostQueue τ) (b : Bucket τ) : Prop :=
  b.Reserves ∧ ∀ b' ∈ q.view, b'.Reserves → b.head.enqueuedAtMs ≤ b'.head.enqueuedAtMs

/-- What `dequeue` does. -/
inductive Dequeues (q : FairCostQueue τ) (maxCost : ℤ) :
    Option (QueueEntry τ × FairCostQueue τ) → Prop
  | empty (h : q.count = 0) : Dequeues q maxCost none
  /-- The oldest head that has reserved the capacity does not fit. -/
  | held (b : Bucket τ) (hb : b ∈ q.view) (old : q.Oldest b) (h : maxCost < b.head.cost) :
      Dequeues q maxCost none
  | unfit (free : ∀ b ∈ q.view, ¬ b.Reserves) (h : ∀ b ∈ q.view, maxCost < b.head.cost) :
      Dequeues q maxCost none
  | reserved (v₁ : List (Bucket τ)) (b : Bucket τ) (v₂ : List (Bucket τ)) (q' : FairCostQueue τ)
      (view : q.view = v₁ ++ b :: v₂) (pick : q.reserved = some (q.slot v₁.length, b.head))
      (old : q.Oldest b) (fits : b.head.cost ≤ maxCost)
      (served : q.Served b (v₂ ++ v₁) q') : Dequeues q maxCost (some (b.head.bare, q'))
  | fitting (v₁ : List (Bucket τ)) (b : Bucket τ) (v₂ : List (Bucket τ)) (q' : FairCostQueue τ)
      (view : q.view = v₁ ++ b :: v₂) (pick : q.reserved = none)
      (free : ∀ b ∈ q.view, ¬ b.Reserves)
      (passed : ∀ b' ∈ v₁, maxCost < b'.head.cost) (fits : b.head.cost ≤ maxCost)
      (served : q.Served b (v₂ ++ v₁.map skipHead) q') :
      Dequeues q maxCost (some (b.head.bare, q'))

theorem dequeue_cases (q : FairCostQueue τ) (maxCost : ℤ) :
    q.Dequeues maxCost (q.dequeue maxCost) := by
  unfold dequeue
  by_cases hcount : q.count = 0
  · rw [if_pos hcount]
    exact Dequeues.empty hcount
  rw [if_neg hcount]
  have hres := q.reserved_spec
  cases hr : q.reserved with
  | some r =>
    rw [hr] at hres
    obtain ⟨v₁, b, v₂, hview, rfl, hb, hmin⟩ := hres
    dsimp only
    split
    · next hlt => exact Dequeues.held b (by rw [hview]; simp) ⟨hb, hmin⟩ hlt
    · next hfit =>
      obtain ⟨q', hq', hserved⟩ := takeAt_view hview
      rw [hq']
      exact Dequeues.reserved v₁ b v₂ q' hview hr ⟨hb, hmin⟩ (not_lt.1 hfit) hserved
  | none =>
    rw [hr] at hres
    have hfirst := firstFitting_spec q maxCost (v := q.view) (k := 0) fun p hp => by
      rw [zero_add, q.getElem?_slot (by simpa using hp)]
    rw [range_zero, map_nil, ← range_eq_range', ← visits_eq] at hfirst
    cases hf : q.firstFitting maxCost [] q.visits with
    | none =>
      rw [hf] at hfirst
      exact Dequeues.unfit hres hfirst
    | some r =>
      rw [hf] at hfirst
      obtain ⟨v₁, b, v₂, hview, hidx, hby, hover, hfit⟩ := hfirst
      rw [zero_add] at hidx hby
      obtain ⟨hskip, hlen⟩ := skipSlots_view hview
      rw [← hby] at hskip hlen
      have hidx' : (q.skipSlots r.2).slot (v₁.map skipHead).length = r.1 := by
        rw [hidx, length_map, slot, slot, hlen]
        rfl
      obtain ⟨q', hq', hserved⟩ := takeAt_view hskip
      rw [hidx'] at hq'
      show Dequeues q maxCost ((q.skipSlots r.2).takeAt r.1)
      rw [hq']
      exact Dequeues.fitting v₁ b v₂ q' hview hr hres hover hfit
        ⟨hserved.view, hserved.maxCount, hserved.maxCost, hserved.count, hserved.cost,
          hserved.cursor⟩

/-! ## Arrivals and removals -/

/-- The bucket with an entry of its tenant at its end; another tenant's bucket stays. -/
def pushed (entry : QueueEntry τ) (b : Bucket τ) : Bucket τ :=
  if b.tenant = entry.tenantKey then { b with tail := b.tail ++ [entry] } else b

@[simp] theorem pushed_tenant (entry : QueueEntry τ) (b : Bucket τ) :
    (pushed entry b).tenant = b.tenant := by
  unfold pushed
  split <;> rfl

@[simp] theorem pushed_head (entry : QueueEntry τ) (b : Bucket τ) :
    (pushed entry b).head = b.head := by
  unfold pushed
  split <;> rfl

theorem pushTo_open {entry : QueueEntry τ} {bs : List (Bucket τ)}
    (h : ∀ b ∈ bs, b.tenant ≠ entry.tenantKey) :
    pushTo entry bs = bs ++ [⟨entry.tenantKey, entry, []⟩] := by
  induction bs with
  | nil => rfl
  | cons b bs ih =>
    rw [pushTo, if_neg (h b (by simp)), ih fun b hb => h b (mem_cons_of_mem _ hb)]
    rfl

theorem pushTo_join {entry : QueueEntry τ} {bs : List (Bucket τ)}
    (hnd : (bs.map tenant).Nodup) (h : ∃ b ∈ bs, b.tenant = entry.tenantKey) :
    pushTo entry bs = bs.map (pushed entry) := by
  induction bs with
  | nil => simp at h
  | cons b bs ih =>
    obtain ⟨hnot, hnd⟩ := nodup_cons.1 hnd
    by_cases hb : b.tenant = entry.tenantKey
    · have hrest : bs.map (pushed entry) = bs.map id := by
        refine map_congr_left fun b' hb' => ?_
        have hne : b'.tenant ≠ entry.tenantKey := by
          intro heq
          exact hnot (mem_map.2 ⟨b', hb', heq.trans hb.symm⟩)
        rw [pushed, if_neg hne, id]
      rw [pushTo, if_pos hb, map_cons, hrest, map_id, pushed, if_pos hb]
    · obtain ⟨b', hmem, hb'⟩ := h
      rcases mem_cons.1 hmem with rfl | hmem
      · exact absurd hb' hb
      · rw [pushTo, if_neg hb, map_cons, ih hnd ⟨b', hmem, hb'⟩, pushed, if_neg hb]

/-- A bucket opened at the end of `order` comes after the slots from the cursor on. -/
theorem view_open (hc : q.cursor ≤ q.buckets.length) (b : Bucket τ) :
    (q.buckets ++ [b]).rotate q.cursor =
      q.buckets.drop q.cursor ++ b :: q.buckets.take q.cursor := by
  rw [rotate_eq_drop_append_take (by simp; omega), drop_append_of_le_length hc,
    take_append_of_le_length hc]
  simp

theorem view_eq (hc : q.cursor ≤ q.buckets.length) :
    q.view = q.buckets.drop q.cursor ++ q.buckets.take q.cursor :=
  rotate_eq_drop_append_take hc

theorem CursorOk.le (h : q.CursorOk) : q.cursor ≤ q.buckets.length := by
  rcases h with ⟨hb, hc⟩ | hlt
  · simp [hb, hc]
  · exact hlt.le

/-- What `removeById` does. -/
inductive Removes (q : FairCostQueue τ) (id : ℕ) : Option (QueueEntry τ × FairCostQueue τ) → Prop
  | missing (h : ∀ b ∈ q.view, ∀ e ∈ b.entries, e.id ≠ id) : Removes q id none
  | found (v₁ : List (Bucket τ)) (b : Bucket τ) (v₂ : List (Bucket τ)) (es₁ : List (QueueEntry τ))
      (e : QueueEntry τ) (es₂ : List (QueueEntry τ)) (q' : FairCostQueue τ)
      (view : q.view = v₁ ++ b :: v₂) (entries : b.entries = es₁ ++ e :: es₂) (named : e.id = id)
      (view' : q'.view = v₁ ++ (ofEntries b.tenant (es₁ ++ es₂)).toList ++ v₂)
      (maxCount : q'.maxCount = q.maxCount) (maxCost : q'.maxCost = q.maxCost)
      (count : q'.count = q.count - 1) (cost : q'.cost = q.cost - e.cost)
      (cursor : q'.CursorOk) : Removes q id (some (e, q'))

theorem findSlot_spec (id : ℕ) (bs : List (Bucket τ)) (ti : ℕ) :
    match findSlot id ti bs with
    | none => ∀ b ∈ bs, ∀ e ∈ b.entries, e.id ≠ id
    | some (idx, b) => ∃ l₁ l₂, bs = l₁ ++ b :: l₂ ∧ idx = ti + l₁.length ∧
        ∃ e ∈ b.entries, e.id = id := by
  induction bs generalizing ti with
  | nil => simp [findSlot]
  | cons b bs ih =>
    rw [findSlot]
    by_cases hany : b.entries.any (·.id = id)
    · rw [if_pos hany]
      exact ⟨[], bs, rfl, rfl, by simpa using hany⟩
    · rw [if_neg hany]
      have ih := ih (ti + 1)
      have hb : ∀ e ∈ b.entries, e.id ≠ id := by simpa using hany
      cases hfind : findSlot id (ti + 1) bs with
      | none =>
        rw [hfind] at ih
        intro b' hb'
        rcases mem_cons.1 hb' with rfl | hb'
        · exact hb
        · exact ih b' hb'
      | some r =>
        rw [hfind] at ih
        obtain ⟨l₁, l₂, rfl, hidx, he⟩ := ih
        exact ⟨b :: l₁, l₂, rfl, by rw [hidx]; simp; omega, he⟩

theorem rotate_of_le {α : Type*} {l₁ l₂ : List α} {c : ℕ} (hc : c ≤ l₁.length) :
    (l₁ ++ l₂).rotate c = l₁.drop c ++ l₂ ++ l₁.take c := by
  rw [rotate_eq_drop_append_take (by simp; omega), drop_append_of_le_length hc,
    take_append_of_le_length hc]

theorem rotate_of_ge {α : Type*} {l₁ l₂ : List α} {k : ℕ} (hk : k ≤ l₂.length) :
    (l₁ ++ l₂).rotate (l₁.length + k) = l₂.drop k ++ l₁ ++ l₂.take k := by
  rw [← rotate_rotate, rotate_append_length_eq, rotate_of_le hk]

/-- Where a slot stands in the view, whatever it holds, and that splicing it out of `order` takes
it out of the view. -/
theorem rotate_splice {α : Type*} (l₁ l₂ : List α) {c : ℕ} (hc : c ≤ l₁.length + l₂.length) :
    ∃ v₁ v₂, (∀ b, (l₁ ++ b :: l₂).rotate c = v₁ ++ b :: v₂) ∧
      (l₁ ++ l₂).rotate (spliceCursor c l₁.length (l₁ ++ l₂).length) = v₁ ++ v₂ ∧
      (l₁ ++ l₂ = [] ∧ spliceCursor c l₁.length (l₁ ++ l₂).length = 0 ∨
        spliceCursor c l₁.length (l₁ ++ l₂).length < (l₁ ++ l₂).length) := by
  unfold spliceCursor
  rcases Nat.lt_or_ge l₁.length c with hgt | hle
  · obtain ⟨k, rfl⟩ := Nat.exists_eq_add_of_lt hgt
    have hk : k + 1 ≤ l₂.length := by omega
    have hne : (l₁ ++ l₂).length ≠ 0 := by
      rw [length_append]
      omega
    refine ⟨l₂.drop k ++ l₁, l₂.take k, fun b => ?_, ?_, Or.inr ?_⟩
    · rw [add_assoc, rotate_of_ge (by simp; omega)]
      simp
    · rw [if_neg hne, if_pos hgt, Nat.add_sub_cancel, rotate_of_ge (by omega)]
    · rw [if_neg hne, if_pos hgt, Nat.add_sub_cancel, length_append]
      omega
  · refine ⟨l₁.drop c, l₂ ++ l₁.take c, fun b => ?_, ?_, ?_⟩
    · rw [rotate_of_le hle]
      simp
    · rcases Nat.lt_or_ge c (l₁ ++ l₂).length with hlt | hge
      · rw [if_neg (by omega), if_neg (by omega), if_neg (by omega), rotate_of_le hle, append_assoc]
      · -- the last slot of `order` was spliced out, at the cursor
        have hnil : l₂ = [] := length_eq_zero_iff.1 (by simp at hge; omega)
        subst hnil
        have hlen : l₁.length ≤ c := by simpa using hge
        rw [if_neg (by omega : ¬ l₁.length < c), if_pos hge, ite_self, rotate_zero,
          take_of_length_le hlen, drop_eq_nil_of_le hlen]
        simp
    · split
      · next hnil => exact Or.inl ⟨length_eq_zero_iff.1 hnil, rfl⟩
      · next hne =>
        rw [if_neg (by omega : ¬ l₁.length < c)]
        split
        · exact Or.inr (pos_of_ne_zero hne)
        · next h => exact Or.inr (not_le.1 h)

theorem removeById_cases (hc : q.CursorOk) (id : ℕ) : q.Removes id (q.removeById id) := by
  have hslot := findSlot_spec id q.buckets 0
  cases hfind : findSlot id 0 q.buckets with
  | none =>
    rw [hfind] at hslot
    rw [removeById, hfind]
    exact Removes.missing fun b hb => hslot b (mem_rotate.1 hb)
  | some r =>
    obtain ⟨ti, b⟩ := r
    rw [hfind] at hslot
    obtain ⟨l₁, l₂, hl, hti, e₀, he₀, hid₀⟩ := hslot
    rw [zero_add] at hti
    subst hti
    obtain ⟨e, hent⟩ : ∃ e, b.entries.find? (·.id = id) = some e := by
      rw [← Option.isSome_iff_exists, find?_isSome]
      exact ⟨e₀, he₀, by simpa using hid₀⟩
    obtain ⟨hid, es₁, es₂, hes, hfirst⟩ := find?_eq_some_iff_append.1 hent
    have hid : e.id = id := by simpa using hid
    have herase : b.entries.eraseP (·.id = id) = es₁ ++ es₂ := by
      rw [hes, eraseP_append_right _ (by simpa using hfirst), eraseP_cons_of_pos]
      simpa using hid
    have hcur : q.cursor ≤ l₁.length + l₂.length := by
      rcases hc with ⟨hnil, -⟩ | hlt
      · simp [hnil] at hl
      · rw [hl] at hlt
        simp at hlt
        omega
    obtain ⟨v₁, v₂, hview, hout, hcursor⟩ := rotate_splice l₁ l₂ hcur
    have hq : q.view = v₁ ++ b :: v₂ := by rw [view, hl, hview]
    cases hof : ofEntries b.tenant (es₁ ++ es₂) with
    | some rest =>
      have hset : q.buckets.set l₁.length rest = l₁ ++ rest :: l₂ := by
        rw [hl, set_append_right _ _ le_rfl]
        simp
      simp only [removeById, hfind, hent, herase, hof, hset]
      refine Removes.found v₁ b v₂ es₁ e es₂ _ hq hes hid ?_ rfl rfl rfl rfl (Or.inr ?_)
      · rw [hof, view, hview]
        simp
      · simp
        omega
    | none =>
      have hsplice : q.buckets.eraseIdx l₁.length = l₁ ++ l₂ := by
        rw [hl, eraseIdx_append_of_length_le le_rfl]
        simp
      simp only [removeById, hfind, hent, herase, hof, hsplice]
      refine Removes.found v₁ b v₂ es₁ e es₂ _ hq hes hid ?_ rfl rfl rfl rfl hcursor
      rw [hof, view, hout]
      simp

end OmniRoute.FairCostQueue
