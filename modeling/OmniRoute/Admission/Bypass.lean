import OmniRoute.Admission.FairRun
import OmniRoute.Lib.Ageing

/-!
# Who is served before a waiting head

An entry at the head of its bucket waits; the question is how many later arrivals are served
while it does.

A bucket is opened at the end of `order`. While the cursor has not passed the slot of the waiting
entry, the new bucket comes after it in the round; once the cursor has passed the slot, the new
bucket comes before it, and so does every bucket opened next: `not_boundedBypass`.

**Main result (`bypass_le`).** As long as no bucket opened in the meantime gets in front of the
waiting entry, at most `bypassBound n` entries are served while it waits, `n` being the number of
buckets when it came to the head of its own.

The proof measures the ring of the buckets that were there then (`Ageing.potential`), plus a
full round for each pass-over the waiting head can still suffer before it reserves the capacity.
-/

namespace OmniRoute.FairRun

open FairCostQueue List Trace Bucket Ageing Nat

variable {τ : Type}

/-! ## Staying in front -/

/-- The buckets a pass visits up to the one with `id` at its head. -/
def upTo (id : ℕ) : List (Bucket τ) → List (Bucket τ)
  | [] => []
  | b :: v => if b.head.id = id then [b] else b :: upTo id v

/-- The dequeue serves a bucket that comes after the one with `id` at its head. -/
def PassesOver (q : FairCostQueue τ) (id : ℕ) (maxCost : ℤ) : Prop :=
  match q.reserved with
  | some (_, entry) =>
    entry.cost ≤ maxCost ∧ entry.id ∉ (upTo id q.view).map fun b => b.head.id
  | none =>
    (∀ b ∈ upTo id q.view, maxCost < b.head.cost) ∧ ∃ b ∈ q.view, b.head.cost ≤ maxCost

/-- The step lets no bucket opened since the watch began get in front of `id`: a bucket is opened
only while the cursor has not passed the slot of `id`, and `id` is not passed over while such a
bucket is queued. -/
def InTurn (id : ℕ) (r : FairRun τ) : QueueEvent τ → Prop
  | .enqueue tenantKey cost _ _ _ =>
    r.queue.canAccept cost = true →
      tenantKey ∈ r.queue.buckets.map tenant ∨
        ∃ i b, r.queue.cursor ≤ i ∧ r.queue.buckets[i]? = some b ∧ b.head.id = id
  | .dequeue maxCost =>
    (∀ b ∈ r.queue.buckets, b.tenant ∈ r.watched) ∨ ¬ PassesOver r.queue id maxCost
  | .removeById _ => True

/-- How many entries are served at most while a head waits among `n` buckets. -/
def bypassBound (n : ℕ) : ℕ :=
  maxUnfittableSkips * (bound maxUnfittableSkips n + 1) + bound maxUnfittableSkips n

/-! ## The measure of a waiting head -/

/-- How often the head of a bucket has been passed over. -/
def age (b : Bucket τ) : ℕ := b.head.skipCount

theorem age_skipHead (b : Bucket τ) : age b.skipHead = age b + 1 := rfl

/-- The buckets that have been open since the watch began. -/
def kept (watched : List String) (v : List (Bucket τ)) : List (Bucket τ) :=
  v.filter (·.tenant ∈ watched)

/-- What can still be served before the head of `b`: the potential of the buckets `post` behind it
and `pre` before it, and a full round for each pass-over it can suffer. -/
def remaining (n : ℕ) (pre : List (Bucket τ)) (b : Bucket τ) (post : List (Bucket τ)) : ℕ :=
  (maxUnfittableSkips - age b) * (bound maxUnfittableSkips n + 1) +
    potential age maxUnfittableSkips post pre

/-- Entry `id` is at the head of its bucket, every bucket before it has been open since the watch
began, and what can still be served before it stays within a budget. -/
def Waits (id n budget : ℕ) (r : FairRun τ) : Prop :=
  ∃ pre b post, r.queue.view = pre ++ b :: post ∧ b.head.id = id ∧
    (∀ x ∈ pre ++ [b], x.tenant ∈ r.watched) ∧ (kept r.watched post).length + pre.length ≤ n ∧
      remaining n pre b (kept r.watched post) + r.served.length ≤ budget

theorem split_cases {α : Type*} {v₁ v₂ pre post : List α} {x b : α}
    (h : v₁ ++ x :: v₂ = pre ++ b :: post) :
    (∃ s, pre = v₁ ++ x :: s ∧ v₂ = s ++ b :: post) ∨ (v₁ = pre ∧ x = b ∧ v₂ = post) ∨
      ∃ s, v₁ = pre ++ b :: s ∧ post = s ++ x :: v₂ := by
  rcases append_eq_append_iff.1 h with ⟨s, hs, hrest⟩ | ⟨s, hs, hrest⟩
  · cases s with
    | nil =>
      obtain ⟨hx, hv⟩ := cons.inj hrest
      exact Or.inr (Or.inl ⟨by simpa using hs.symm, hx, hv⟩)
    | cons y s =>
      obtain ⟨rfl, hv⟩ := cons.inj hrest
      exact Or.inl ⟨s, hs, hv⟩
  · cases s with
    | nil =>
      obtain ⟨hx, hv⟩ := cons.inj hrest
      exact Or.inr (Or.inl ⟨by simpa using hs, hx.symm, hv.symm⟩)
    | cons y s =>
      obtain ⟨rfl, hv⟩ := cons.inj hrest
      exact Or.inr (Or.inr ⟨s, hs, hv⟩)

theorem kept_append (watched : List String) (v₁ v₂ : List (Bucket τ)) :
    kept watched (v₁ ++ v₂) = kept watched v₁ ++ kept watched v₂ := filter_append ..

theorem kept_self {watched : List String} {v : List (Bucket τ)}
    (h : ∀ x ∈ v, x.tenant ∈ watched) : kept watched v = v :=
  filter_eq_self.2 fun x hx => by simpa using h x hx

variable {x : Bucket τ} {q : FairCostQueue τ} {r : FairRun τ}

/-- The buckets of the new queue are watched if they were. -/
theorem mem_watched_become (hx : x ∈ q.view) :
    x.tenant ∈ (r.become q).watched ↔ x.tenant ∈ r.watched := by
  have hmem : x.tenant ∈ q.buckets.map tenant :=
    mem_map.2 ⟨x, mem_rotate.1 hx, rfl⟩
  simp only [become, mem_filter, hmem, decide_true, and_true]

variable {b : Bucket τ} {r' : FairRun τ} {post pre : List (Bucket τ)} {budget id n : ℕ}

theorem Waits.become (hqueue : r'.queue = q) (hwatched : r'.watched = (r.become q).watched)
    (hview : q.view = pre ++ b :: post) (hid : b.head.id = id)
    (hpre : ∀ x ∈ pre, x.tenant ∈ r.watched) (hb : b.tenant ∈ r.watched)
    (hlen : (kept r.watched post).length + pre.length ≤ n)
    (hval : remaining n pre b (kept r.watched post) + r'.served.length ≤ budget) :
    Waits id n budget r' := by
  have hkept : kept r'.watched post = kept r.watched post := by
    refine filter_congr fun x hx => ?_
    rw [hwatched, decide_eq_decide]
    exact mem_watched_become (by rw [hview]; simp [hx])
  refine ⟨pre, b, post, by rw [hqueue, hview], hid, ?_, by rw [hkept]; exact hlen,
    by rw [hkept]; exact hval⟩
  intro x hx
  rw [hwatched, mem_watched_become (by rw [hview]; simp at hx ⊢; tauto)]
  rcases mem_append.1 hx with hx | hx
  · exact hpre x hx
  · rw [mem_singleton.1 hx]
    exact hb

theorem length_ofEntries (tenant : String) (es : List (QueueEntry τ)) :
    (ofEntries tenant es).toList.length ≤ 1 := by
  cases es <;> simp [ofEntries]

theorem length_rest (b : Bucket τ) : b.rest.length ≤ 1 := length_ofEntries b.tenant b.tail

theorem tenant_ofEntries {tenant : String} {es : List (QueueEntry τ)}
    (hx : x ∈ (ofEntries tenant es).toList) : x.tenant = tenant := by
  cases es with
  | nil => cases hx
  | cons e es => rw [mem_singleton.1 hx]

/-- What is left of a served bucket has not been passed over. -/
theorem age_rest (hy : ∀ e ∈ b.tail, e.skipCount = 0) : ∀ x ∈ b.rest, age x = 0 := by
  intro x hx
  unfold rest at hx
  cases htail : b.tail with
  | nil =>
    rw [htail] at hx
    cases hx
  | cons e es =>
    rw [htail] at hx
    rw [mem_singleton.1 hx]
    exact hy e (by rw [htail]; exact mem_cons_self)

/-! ## One step -/

theorem heads_sublist (v : List (Bucket τ)) :
    (v.map fun b => b.head.id).Sublist
      (((v.flatMap entries).map QueueEntry.bare).map QueueEntry.id) := by
  induction v with
  | nil => exact List.Sublist.refl _
  | cons b v ih =>
    simp only [flatMap_cons, entries, map_cons, map_append, cons_append]
    exact Sublist.cons_cons _ (ih.trans (sublist_append_right _ _))

theorem Good.heads (hr : r.Good) : (r.queue.view.map fun b => b.head.id).Nodup := by
  have hids := hr.ids
  rw [items_view] at hids
  exact List.Nodup.sublist (heads_sublist _) hids

/-- The other heads have other ids. -/
theorem Good.head_ne (hr : r.Good) (hview : r.queue.view = pre ++ b :: post) :
    (∀ x ∈ pre, x.head.id ≠ b.head.id) ∧ ∀ x ∈ post, x.head.id ≠ b.head.id := by
  have hnd := hr.heads
  rw [hview, map_append, map_cons] at hnd
  obtain ⟨-, hpost, hdisj⟩ := nodup_append.1 hnd
  constructor
  · intro x hx
    exact hdisj _ (mem_map.2 ⟨x, hx, rfl⟩) _ mem_cons_self
  · intro x hx heq
    exact (nodup_cons.1 hpost).1 (mem_map.2 ⟨x, hx, heq⟩)

theorem upTo_eq (hpre : ∀ x ∈ pre, x.head.id ≠ id) (hb : b.head.id = id) :
    upTo id (pre ++ b :: post) = pre ++ [b] := by
  induction pre with
  | nil => rw [nil_append, upTo, if_pos hb, nil_append]
  | cons a pre ih =>
    rw [cons_append, upTo, if_neg (hpre a mem_cons_self),
      ih fun x hx => hpre x (mem_cons_of_mem _ hx)]
    rfl

variable {entry : QueueEntry τ}

/-- An entry that has left is not queued. -/
theorem Good.gone (hr : r.Good) (hitems : r.queue.items = entry ::ₘ q.items) :
    ¬ Queued q entry.id := by
  have hids := hr.ids
  rw [hitems, Multiset.map_cons, Multiset.nodup_cons] at hids
  intro ⟨e, he, hid⟩
  exact hids.1 (Multiset.mem_map.2 ⟨e, he, hid⟩)

/-- A service before the turn of `id`. -/
theorem Waits.serve (hr : r.Good) {pre₁ pre₁' pre₂ : List (Bucket τ)}
    (hview : r.queue.view = pre₁ ++ x :: (pre₂ ++ b :: post)) (hid : b.head.id = id)
    (hwatched : ∀ y ∈ pre₁ ++ x :: pre₂ ++ [b], y.tenant ∈ r.watched)
    (hlen : (kept r.watched post).length + (pre₁ ++ x :: pre₂).length ≤ n)
    (hval : remaining n (pre₁ ++ x :: pre₂) b (kept r.watched post) + r.served.length ≤ budget)
    (hview' : q.view = pre₂ ++ b :: post ++ pre₁' ++ x.rest) (hqueue : r'.queue = q)
    (hwatch' : r'.watched = (r.become q).watched) (hserved : r'.served.length = r.served.length + 1)
    (hpre₁ : pre₁'.map tenant = pre₁.map tenant)
    (hsweep : ∀ k, weight age maxUnfittableSkips k pre₁' + sweep k ≤
      weight age maxUnfittableSkips k pre₁ + sweep (k + pre₁.length)) :
    Waits id n budget r' := by
  have hyoung : ∀ y ∈ x.rest, age y = 0 := age_rest (hr.young x (by rw [hview]; simp))
  have hlen₁ : pre₁'.length = pre₁.length := by
    rw [← length_map (f := tenant), hpre₁, length_map]
  have hw₁ : ∀ y ∈ pre₁', y.tenant ∈ r.watched := by
    intro y hy
    have hmem : y.tenant ∈ pre₁.map tenant := hpre₁ ▸ mem_map.2 ⟨y, hy, rfl⟩
    obtain ⟨y', hy', heq⟩ := mem_map.1 hmem
    exact heq ▸ hwatched y' (by simp [hy'])
  have hwrest : ∀ y ∈ x.rest, y.tenant ∈ r.watched := by
    intro y hy
    rw [tenant_ofEntries hy]
    exact hwatched x (by simp)
  have hkept : kept r.watched (post ++ pre₁' ++ x.rest) =
      kept r.watched post ++ pre₁' ++ x.rest := by
    rw [kept_append, kept_append, kept_self hw₁, kept_self hwrest]
  have hpot := potential_serve (b := x) (length_rest x)
    (fun y hy => (hyoung y hy).trans_le (zero_le _)) hlen₁ hsweep (kept r.watched post) pre₂
  have hsplit : q.view = pre₂ ++ b :: (post ++ pre₁' ++ x.rest) := by rw [hview']; simp
  refine Waits.become hqueue hwatch' hsplit hid (fun y hy => hwatched y (by simp [hy]))
    (hwatched b (by simp)) ?_ ?_
  · have hrest := length_rest x
    rw [hkept]
    simp only [length_append, length_cons, hlen₁] at hlen ⊢
    omega
  · rw [hkept, hserved]
    unfold remaining at hval ⊢
    omega

/-- A service out of turn, of a bucket behind `id`, with no bucket opened in the meantime. Either
the bucket has reserved the capacity, or `id` has been passed over once more. -/
theorem Waits.pass {post₁ post₂ pre' post₁' : List (Bucket τ)} {b' : Bucket τ}
    (hview : r.queue.view = pre ++ b :: (post₁ ++ x :: post₂)) (hid : b'.head.id = id)
    (hall : ∀ y ∈ r.queue.view, y.tenant ∈ r.watched)
    (hlen : (post₁ ++ x :: post₂).length + pre.length ≤ n)
    (hval : remaining n pre b (post₁ ++ x :: post₂) + r.served.length ≤ budget)
    (hview' : q.view = post₂ ++ pre' ++ b' :: post₁' ++ x.rest) (hqueue : r'.queue = q)
    (hwatch' : r'.watched = (r.become q).watched) (hserved : r'.served.length = r.served.length + 1)
    (htenants : (pre' ++ b' :: post₁').map tenant = (pre ++ b :: post₁).map tenant)
    (hlens : pre'.length = pre.length ∧ post₁'.length = post₁.length)
    (hmeasure : remaining n (post₂ ++ pre') b' (post₁' ++ x.rest) + 1 ≤
      remaining n pre b (post₁ ++ x :: post₂)) : Waits id n budget r' := by
  have hw : ∀ y ∈ pre' ++ b' :: post₁', y.tenant ∈ r.watched := by
    intro y hy
    have hmem : y.tenant ∈ (pre ++ b :: post₁).map tenant :=
      htenants ▸ mem_map.2 ⟨y, hy, rfl⟩
    obtain ⟨y', hy', heq⟩ := mem_map.1 hmem
    refine heq ▸ hall y' ?_
    rw [hview]
    simp only [mem_append, mem_cons] at hy' ⊢
    tauto
  have hwrest : ∀ y ∈ x.rest, y.tenant ∈ r.watched := by
    intro y hy
    rw [tenant_ofEntries hy]
    exact hall x (by rw [hview]; simp)
  have hkept : kept r.watched (post₁' ++ x.rest) = post₁' ++ x.rest := by
    refine kept_self fun y hy => ?_
    rcases mem_append.1 hy with hy | hy
    · exact hw y (by simp [hy])
    · exact hwrest y hy
  have hsplit : q.view = (post₂ ++ pre') ++ b' :: (post₁' ++ x.rest) := by rw [hview']; simp
  refine Waits.become hqueue hwatch' hsplit hid ?_ (hw b' (by simp)) ?_ ?_
  · intro y hy
    rcases mem_append.1 hy with hy | hy
    · exact hall y (by rw [hview]; simp [hy])
    · exact hw y (by simp [hy])
  · have hrest := length_rest x
    rw [hkept]
    simp only [length_append, length_cons, hlens.1, hlens.2] at hlen ⊢
    omega
  · rw [hkept, hserved]
    omega

/-- No budget is lost when `id` is passed over: it has one pass-over less to suffer. -/
theorem remaining_skip {pre' post' : List (Bucket τ)} (hb : ¬ b.Reserves)
    (hlen : post'.length + pre'.length ≤ n) :
    remaining n pre' b.skipHead post' + 1 ≤ remaining n pre b post := by
  have hpot := @Ageing.potential_le_bound (Bucket τ) age maxUnfittableSkips post' pre'
  have hbound : bound maxUnfittableSkips (post'.length + pre'.length) ≤
      bound maxUnfittableSkips n := bound_mono hlen
  have hage : maxUnfittableSkips - age b = maxUnfittableSkips - age b.skipHead + 1 := by
    have hlt : age b < maxUnfittableSkips := not_le.1 hb
    have hskip : age b.skipHead = age b + 1 := rfl
    omega
  unfold remaining
  rw [hage, add_mul, one_mul]
  omega

theorem Waits.dequeue {maxCost : ℤ} (hr : r.Good) (hw : Waits id n budget r)
    (hturn : InTurn id r (.dequeue maxCost)) (hdeq : r.queue.dequeue maxCost = some (entry, q))
    (hq : Queued q id) : Waits id n budget { r.become q with served := r.served ++ [entry] } := by
  obtain ⟨pre, b, post, hview, hid, hwatched, hlen, hval⟩ := hw
  have hgone : entry.id ≠ id := by
    intro heq
    exact hr.gone (items_dequeue hdeq).1 (heq ▸ hq)
  obtain ⟨hne_pre, hne_post⟩ := hr.head_ne hview
  rw [hid] at hne_pre hne_post
  have hupTo : upTo id r.queue.view = pre ++ [b] := by rw [hview]; exact upTo_eq hne_pre hid
  have hcase := r.queue.dequeue_cases maxCost
  rw [hdeq] at hcase
  -- no bucket has been opened if `id` is passed over
  have hall : PassesOver r.queue id maxCost → ∀ y ∈ r.queue.view, y.tenant ∈ r.watched := by
    intro hpass y hy
    rcases hturn with hturn | hturn
    · exact hturn y (mem_rotate.1 hy)
    · exact absurd hpass hturn
  cases hcase with
  | reserved v₁ x v₂ _ view pick old fits served =>
    rcases split_cases (view.symm.trans hview) with ⟨s, rfl, rfl⟩ | ⟨-, rfl, -⟩ | ⟨s, rfl, rfl⟩
    · refine Waits.serve hr view hid hwatched hlen hval served.view rfl rfl (by simp) rfl ?_
      intro k
      exact Nat.add_le_add_left (sweep_mono (Nat.le_add_right _ _)) _
    · exact absurd hid hgone
    · have hpass : PassesOver r.queue id maxCost := by
        unfold PassesOver
        rw [pick, hupTo]
        refine ⟨fits, ?_⟩
        intro hmem
        obtain ⟨y, hy, heq⟩ := mem_map.1 hmem
        refine (hr.head_ne view).1 y ?_ heq
        rw [mem_append, mem_singleton] at hy
        rw [mem_append, mem_cons]
        tauto
      have hall := hall hpass
      rw [kept_self fun y hy => hall y (by rw [hview]; simp [hy])] at hlen hval
      have hview' : q.view = v₂ ++ pre ++ b :: s ++ x.rest := by rw [served.view]; simp
      refine Waits.pass hview hid hall hlen hval hview' rfl rfl (by simp) rfl ⟨rfl, rfl⟩ ?_
      have hyoung : ∀ y ∈ x.rest, age y = 0 := age_rest (hr.young x (by rw [view]; simp))
      have haged : maxUnfittableSkips ≤ age x := old.1
      have hjump := potential_jump (by decide) haged (length_rest x) hyoung s v₂ pre
      exact Nat.add_le_add_left hjump _
  | fitting v₁ x v₂ _ view pick free passed fits served =>
    rcases split_cases (view.symm.trans hview) with ⟨s, rfl, rfl⟩ | ⟨-, rfl, -⟩ | ⟨s, rfl, rfl⟩
    · refine Waits.serve hr view hid hwatched hlen hval served.view rfl rfl (by simp)
        (map_skipHead_tenant v₁) ?_
      intro k
      exact weight_aged age_skipHead k v₁
    · exact absurd hid hgone
    · have hpass : PassesOver r.queue id maxCost := by
        unfold PassesOver
        rw [pick, hupTo]
        refine ⟨fun y hy => passed y ?_, x, by rw [view]; simp, fits⟩
        rw [mem_append, mem_singleton] at hy
        rw [mem_append, mem_cons]
        tauto
      have hall := hall hpass
      rw [kept_self fun y hy => hall y (by rw [hview]; simp [hy])] at hlen hval
      have hview' : q.view = v₂ ++ pre.map skipHead ++ b.skipHead ::
          s.map skipHead ++ x.rest := by rw [served.view]; simp
      have hfree : ¬ b.Reserves := free b (by rw [hview]; simp)
      have hid' : b.skipHead.head.id = id := hid
      refine Waits.pass hview hid' hall hlen hval hview' rfl rfl (by simp) ?_ (by simp) ?_
      · rw [← map_cons, ← map_append, map_skipHead_tenant]
      · refine remaining_skip hfree ?_
        have hrest := length_rest x
        simp only [length_append, length_cons, length_map] at hlen ⊢
        omega

/-- The head of what is left of a bucket has not been passed over more often than its head. -/
theorem age_without {es₁ es₂ : List (QueueEntry τ)} {e : QueueEntry τ}
    (hy : ∀ e ∈ b.tail, e.skipCount = 0) (h : b.entries = es₁ ++ e :: es₂) :
    ∀ x ∈ (ofEntries b.tenant (es₁ ++ es₂)).toList, age x ≤ age b := by
  intro x hx
  cases es₁ with
  | nil =>
    obtain ⟨-, htail⟩ := cons.inj h
    cases es₂ with
    | nil => cases hx
    | cons e₂ es₂ =>
      rw [mem_singleton.1 hx]
      have hzero : e₂.skipCount = 0 := hy e₂ (by rw [htail]; exact mem_cons_self)
      exact hzero.trans_le (zero_le _)
  | cons e₁ es₁ =>
    obtain ⟨hhead, -⟩ := cons.inj h
    rw [mem_singleton.1 hx]
    show e₁.skipCount ≤ b.head.skipCount
    rw [hhead]

theorem Waits.removeById {other : ℕ} (hr : r.Good) (hw : Waits id n budget r)
    (hrem : r.queue.removeById other = some (entry, q)) (hq : Queued q id) :
    Waits id n budget (r.become q) := by
  obtain ⟨pre, b, post, hview, hid, hwatched, hlen, hval⟩ := hw
  have hgone : entry.id ≠ id := by
    intro heq
    exact hr.gone (items_removeById hr.sound.cursor hrem).1 (heq ▸ hq)
  have hcase := removeById_cases hr.sound.cursor other
  rw [hrem] at hcase
  cases hcase with
  | found v₁ x v₂ es₁ _ es₂ _ view entries named view' =>
    have hage := age_without (hr.young x (by rw [view]; simp)) entries
    have hleft := length_ofEntries x.tenant (es₁ ++ es₂)
    have htenant : ∀ y ∈ (ofEntries x.tenant (es₁ ++ es₂)).toList, y.tenant = x.tenant :=
      fun y hy => tenant_ofEntries hy
    rcases split_cases (view.symm.trans hview) with ⟨s, rfl, rfl⟩ | ⟨rfl, rfl, rfl⟩ | ⟨s, rfl, rfl⟩
    · generalize (ofEntries x.tenant (es₁ ++ es₂)).toList = left at *
      have hsplit : q.view = (v₁ ++ left ++ s) ++ b :: post := by rw [view']; simp
      have hpot := @Ageing.potential_leave_pre _ age maxUnfittableSkips _ _ hleft hage
        (kept r.watched post) v₁ s
      refine Waits.become rfl rfl hsplit hid ?_ (hwatched b (by simp)) ?_ ?_
      · intro y hy
        rw [mem_append, mem_append] at hy
        rcases hy with (hy | hy) | hy
        · exact hwatched y (by simp [hy])
        · rw [htenant y hy]
          exact hwatched x (by simp)
        · exact hwatched y (by simp [hy])
      · simp only [length_append, length_cons] at hlen ⊢
        omega
      · show remaining n _ b _ + r.served.length ≤ budget
        unfold remaining at hval ⊢
        omega
    · -- an entry behind `id` in its own bucket
      cases es₁ with
      | nil =>
        obtain ⟨hhead, -⟩ := cons.inj entries
        exact absurd (hhead ▸ hid) hgone
      | cons e₁ es₁ =>
        obtain ⟨hhead, -⟩ := cons.inj entries
        refine Waits.become (b := ⟨x.tenant, e₁, es₁ ++ es₂⟩) rfl rfl ?_ ?_
          (fun y hy => hwatched y (by simp [hy])) (hwatched x (by simp)) hlen ?_
        · show q.view = _
          rw [view']
          simp [ofEntries]
        · exact hhead ▸ hid
        · have hsame : age (⟨x.tenant, e₁, es₁ ++ es₂⟩ : Bucket τ) = age x := by
            unfold age
            rw [hhead]
          unfold remaining at hval ⊢
          rw [hsame]
          exact hval
    · generalize (ofEntries x.tenant (es₁ ++ es₂)).toList = left at *
      have hsplit : q.view = pre ++ b :: (s ++ left ++ v₂) := by rw [view']; simp
      have hkept : (kept r.watched (s ++ left ++ v₂)).length ≤
            (kept r.watched (s ++ x :: v₂)).length ∧
          potential age maxUnfittableSkips (kept r.watched (s ++ left ++ v₂)) pre ≤
            potential age maxUnfittableSkips (kept r.watched (s ++ x :: v₂)) pre := by
        have hsplit₁ : kept r.watched (s ++ left ++ v₂) =
            kept r.watched s ++ kept r.watched left ++ kept r.watched v₂ := by
          rw [kept_append, kept_append]
        have hsplit₂ : kept r.watched (s ++ x :: v₂) =
            kept r.watched s ++ kept r.watched (x :: v₂) := kept_append ..
        by_cases hx : x.tenant ∈ r.watched
        · have hself : kept r.watched left = left :=
            kept_self fun y hy => (htenant y hy).symm ▸ hx
          have hcons : kept r.watched (x :: v₂) = x :: kept r.watched v₂ :=
            filter_cons_of_pos (by simpa using hx)
          rw [hsplit₁, hsplit₂, hself, hcons]
          refine ⟨?_, potential_leave_post hleft hage _ _ _⟩
          simp only [length_append, length_cons]
          omega
        · have hnone : kept r.watched left = [] :=
            filter_eq_nil_iff.2 fun y hy => by simpa [htenant y hy] using hx
          have hcons : kept r.watched (x :: v₂) = kept r.watched v₂ :=
            filter_cons_of_neg (by simpa using hx)
          rw [hsplit₁, hsplit₂, hnone, hcons, append_nil]
          exact ⟨le_rfl, le_rfl⟩
      refine Waits.become rfl rfl hsplit hid (fun y hy => hwatched y (by simp [hy]))
        (hwatched b (by simp)) (by omega) ?_
      show remaining n _ b _ + r.served.length ≤ budget
      unfold remaining at hval ⊢
      omega

/-- A list has one place for a head with a given id. -/
theorem split_unique {v₁ v₂ : List (Bucket τ)} (h : v₁ ++ x :: v₂ = pre ++ b :: post)
    (hx : x.head.id = id) (hpre : ∀ y ∈ pre, y.head.id ≠ id) (hpost : ∀ y ∈ post, y.head.id ≠ id) :
    v₁ = pre ∧ x = b ∧ v₂ = post := by
  rcases split_cases h with ⟨s, rfl, -⟩ | hsame | ⟨s, -, rfl⟩
  · exact absurd hx (hpre x (by simp))
  · exact hsame
  · exact absurd hx (hpost x (by simp))

theorem Waits.enqueue (hr : r.Good) (hw : Waits id n budget r)
    (hturn : entry.tenantKey ∈ r.queue.buckets.map tenant ∨
      ∃ i b, r.queue.cursor ≤ i ∧ r.queue.buckets[i]? = some b ∧ b.head.id = id)
    (henq : r.queue.enqueue entry = some q) (hqueue : r'.queue = q)
    (hwatch' : r'.watched = (r.become q).watched) (hserved : r'.served = r.served) :
    Waits id n budget r' := by
  obtain ⟨pre, b, post, hview, hid, hwatched, hlen, hval⟩ := hw
  rcases enqueue_view hr.sound henq with ⟨-, hview'⟩ | ⟨hopen, hview'⟩
  · -- the arrival joins a bucket: no head changes
    have hsplit : q.view = pre.map (pushed entry) ++ pushed entry b :: post.map (pushed entry) := by
      rw [hview', hview, map_append, map_cons]
    have hkept : kept r.watched (post.map (pushed entry)) =
        (kept r.watched post).map (pushed entry) := by
      unfold kept
      rw [filter_map]
      congr 1
      exact filter_congr fun y _ => by simp
    have hage : ∀ y : Bucket τ, age (pushed entry y) = age y := fun y => by simp [age]
    refine Waits.become hqueue hwatch' hsplit (by simpa using hid) ?_
      (by simpa using hwatched b (by simp)) ?_ ?_
    · intro y hy
      obtain ⟨y, hmem, rfl⟩ := mem_map.1 hy
      rw [pushed_tenant]
      exact hwatched y (by simp [hmem])
    · rw [hkept, length_map, length_map]
      exact hlen
    · rw [hkept, hserved]
      unfold remaining at hval ⊢
      rw [potential_map hage, hage]
      exact hval
  · -- the arrival opens a bucket behind `id`
    rcases hturn with hjoin | ⟨i, x, hcur, hget, hx⟩
    · exact absurd hjoin hopen
    · obtain ⟨hne_pre, hne_post⟩ := hr.head_ne hview
      rw [hid] at hne_pre hne_post
      obtain ⟨l₁, l₂, hl, hlen₁⟩ : ∃ l₁ l₂, r.queue.buckets.drop r.queue.cursor = l₁ ++ x :: l₂ ∧
          l₁.length = i - r.queue.cursor := by
        refine exists_split_of_getElem? ?_
        rw [getElem?_drop, Nat.add_sub_cancel' hcur, hget]
      have hview₂ : l₁ ++ x :: (l₂ ++ r.queue.buckets.take r.queue.cursor) = pre ++ b :: post := by
        rw [← hview, view_eq hr.sound.cursor.le, hl]
        simp
      obtain ⟨rfl, rfl, rfl⟩ := split_unique hview₂ hx hne_pre hne_post
      have hsplit : q.view = l₁ ++ x :: (l₂ ++ ⟨entry.tenantKey, entry, []⟩ ::
          r.queue.buckets.take r.queue.cursor) := by
        rw [hview', hl]
        simp
      have hnot : entry.tenantKey ∉ r.watched := fun hmem => hopen (hr.watched _ hmem)
      have hkept : kept r.watched (l₂ ++ ⟨entry.tenantKey, entry, []⟩ ::
          r.queue.buckets.take r.queue.cursor) =
          kept r.watched (l₂ ++ r.queue.buckets.take r.queue.cursor) := by
        rw [kept_append, kept_append]
        congr 1
        exact filter_cons_of_neg (by simpa using hnot)
      refine Waits.become hqueue hwatch' hsplit hid (fun y hy => hwatched y (by simp [hy]))
        (hwatched x (by simp)) ?_ ?_
      · rw [hkept]
        exact hlen
      · rw [hkept, hserved]
        exact hval

/-! ## Whole runs -/

/-- The budget holds as long as `id` is queued. -/
def Within (id n budget : ℕ) (r : FairRun τ) : Prop :=
  r.Good ∧ id < r.nextId ∧ (Queued r.queue id → Waits id n budget r)

theorem Within.step {ev : QueueEvent τ} (h : Within id n budget r) (hturn : InTurn id r ev)
    (hstep : r.step ev = some r') : Within id n budget r' := by
  obtain ⟨hr, hid, hw⟩ := h
  have hr' := hr.step hstep
  cases ev with
  | enqueue tenantKey cost enqueuedAtMs deadlineMs payload =>
    rw [FairRun.step] at hstep
    cases henq : r.queue.enqueue (r.entry tenantKey cost enqueuedAtMs deadlineMs payload) with
    | none =>
      rw [henq] at hstep
      cases hstep
      exact ⟨hr', lt_succ_of_lt hid, hw⟩
    | some q =>
      rw [henq] at hstep
      cases hstep
      refine ⟨hr', lt_succ_of_lt hid, ?_⟩
      intro hq
      have hqueued : Queued r.queue id := by
        obtain ⟨e, he, heq⟩ := hq
        have hmem : e ∈ q.items := he
        rw [items_enqueue henq] at hmem
        rcases Multiset.mem_cons.1 hmem with rfl | hmem
        · exact absurd heq hid.ne'
        · exact ⟨e, hmem, heq⟩
      exact (hw hqueued).enqueue hr (hturn (enqueue_eq_some.1 henq).1) henq rfl rfl rfl
  | dequeue maxCost =>
    rw [FairRun.step] at hstep
    cases hdeq : r.queue.dequeue maxCost with
    | none =>
      rw [hdeq] at hstep
      cases hstep
      exact ⟨hr, hid, hw⟩
    | some p =>
      obtain ⟨entry, q⟩ := p
      rw [hdeq] at hstep
      cases hstep
      refine ⟨hr', hid, ?_⟩
      intro hq
      have hqueued : Queued r.queue id := by
        obtain ⟨e, he, heq⟩ := hq
        exact ⟨e, by rw [(items_dequeue hdeq).1]; exact Multiset.mem_cons_of_mem he, heq⟩
      exact (hw hqueued).dequeue hr hturn hdeq hq
  | removeById other =>
    rw [FairRun.step] at hstep
    cases hrem : r.queue.removeById other with
    | none =>
      rw [hrem] at hstep
      cases hstep
      exact ⟨hr, hid, hw⟩
    | some p =>
      obtain ⟨entry, q⟩ := p
      rw [hrem] at hstep
      cases hstep
      refine ⟨hr', hid, ?_⟩
      intro hq
      have hqueued : Queued r.queue id := by
        obtain ⟨e, he, heq⟩ := hq
        refine ⟨e, ?_, heq⟩
        rw [(items_removeById hr.sound.cursor hrem).1]
        exact Multiset.mem_cons_of_mem he
      exact (hw hqueued).removeById hr hrem hq

theorem Within.watch (hr : r.Good) (hid : AtHead r.queue id) :
    Within id r.queue.buckets.length
      (bypassBound r.queue.buckets.length + r.served.length) r.watch := by
  obtain ⟨b, hb, rfl⟩ := hid
  have hview : b ∈ r.queue.view := mem_rotate.2 hb
  have hmem : b.head.bare ∈ r.queue.items := by
    rw [items_view, mem_itemsOf]
    exact ⟨b, hview, b.head, mem_cons_self, rfl⟩
  refine ⟨hr.watch, hr.minted b.head.bare hmem, ?_⟩
  intro _
  obtain ⟨pre, post, hsplit⟩ := append_of_mem hview
  have hall : ∀ y ∈ r.queue.view, y.tenant ∈ r.watch.watched := fun y hy =>
    mem_map.2 ⟨y, mem_rotate.1 hy, rfl⟩
  have hkept : kept r.watch.watched post = post :=
    kept_self fun y hy => hall y (by rw [hsplit]; simp [hy])
  have hlen : post.length + pre.length + 1 = r.queue.buckets.length := by
    rw [← length_view, hsplit]
    simp
    omega
  refine ⟨pre, b, post, hsplit, rfl, ?_, ?_, ?_⟩
  · intro y hy
    refine hall y ?_
    rw [hsplit]
    simp only [mem_append, mem_cons] at hy ⊢
    tauto
  · rw [hkept]
    omega
  · have hpot := @Ageing.potential_le_bound _ age maxUnfittableSkips post pre
    have hbound := @Ageing.bound_mono maxUnfittableSkips _ _
      (show post.length + pre.length ≤ r.queue.buckets.length by omega)
    have hskips : (maxUnfittableSkips - age b) *
        (bound maxUnfittableSkips r.queue.buckets.length + 1) ≤ maxUnfittableSkips *
        (bound maxUnfittableSkips r.queue.buckets.length + 1) :=
      mul_le_mul_right _ (sub_le _ _)
    rw [hkept]
    show remaining _ pre b post + r.served.length ≤ _
    unfold remaining bypassBound
    omega

theorem exec_watch_served {es : List (QueueEvent τ)} (hr : r.Good) (hid : AtHead r.queue id)
    (hok : Trace.Meets step (InTurn id) r.watch es) (h : exec step r.watch es = some r')
    (hq : Queued r'.queue id) :
    r'.served.length ≤ r.served.length + bypassBound r.queue.buckets.length := by
  have hwithin := exec_invariant_of_meets (I := Within id _ _)
    (fun _ _ _ hI hturn hstep => hI.step hturn hstep) (Within.watch hr hid) hok h
  obtain ⟨pre, b, post, -, -, -, -, hval⟩ := hwithin.2.2 hq
  omega

/-- While the entry `id` waits at the head of its bucket, and no bucket opened in the meantime
gets in front of it, the later arrivals served are bounded by the number of buckets there were
when it came to the head. -/
theorem bypass_le {id : ℕ} {r r' : FairRun τ} {es : List (QueueEvent τ)} (hr : r.Reachable)
    (hid : AtHead r.queue id) (hok : Trace.Meets step (InTurn id) r.watch es)
    (h : exec step r.watch es = some r') (hq : Queued r'.queue id) :
    overtakes id r r' ≤ bypassBound r.queue.buckets.length := by
  have hserved := exec_watch_served hr.good hid hok h hq
  have hfilter := length_filter_le (id < ·.id) (r'.served.drop r.served.length)
  rw [length_drop] at hfilter
  unfold overtakes
  omega

/-- An entry of cost 2 at the head of one bucket and one of cost 1 in another. -/
def mixed : FairRun Unit where
  queue :=
    { maxCount := 3, maxCost := 5, cursor := 0, count := 2, cost := 3
      buckets := [⟨"b", ⟨1, "b", 2, 0, 0, (), 0⟩, []⟩, ⟨"a", ⟨2, "a", 1, 0, 0, (), 0⟩, []⟩] }
  nextId := 3
  served := []
  watched := []

/-- The entry of cost 2 has been passed over. -/
def mixedServed : FairRun Unit where
  queue :=
    { maxCount := 3, maxCost := 5, cursor := 0, count := 1, cost := 2
      buckets := [⟨"b", ⟨1, "b", 2, 0, 0, (), 1⟩, []⟩] }
  nextId := 3
  served := [⟨2, "a", 1, 0, 0, (), 0⟩]
  watched := ["b"]

theorem bypass_le_mixed : overtakes 1 mixed mixedServed = 1 ∧
    overtakes 1 mixed mixedServed ≤ bypassBound 2 := by
  have hr : mixed.Reachable :=
    ⟨3, 5, [.enqueue "b" 2 0 0 (), .enqueue "a" 1 0 0 ()], by decide⟩
  have hok : Trace.Meets step (InTurn 1) mixed.watch [.dequeue 1] :=
    fun _ _ => ⟨Or.inl (by decide), trivial⟩
  have hq : Queued mixedServed.queue 1 := ⟨⟨1, "b", 2, 0, 0, (), 0⟩, by decide, rfl⟩
  exact ⟨by decide, bypass_le hr ⟨_, mem_cons_self, rfl⟩ hok (by decide) hq⟩

/-! ## Overtaken for ever -/

/-- Two tenants take turns to send one request each. -/
def passer (k : ℕ) : String := if k % 2 = 0 then "b" else "c"

def passerEntry (k : ℕ) : QueueEntry Unit := ⟨k + 3, passer k, 1, 0, 0, (), 0⟩

/-- Entry 2 waits at the head of the bucket of `a`, in front of the cursor, and `k` entries that
came later have been served. -/
def overtaken (k : ℕ) : FairRun Unit where
  queue :=
    { maxCount := 3, maxCost := 3, cursor := 1, count := 2, cost := 2
      buckets := [⟨"a", ⟨2, "a", 1, 0, 0, (), 0⟩, []⟩, ⟨passer k, passerEntry k, []⟩] }
  nextId := k + 4
  served := ⟨1, "a", 1, 0, 0, (), 0⟩ :: (List.range k).map passerEntry
  watched := []

theorem overtaken_reachable : (overtaken 0).Reachable :=
  ⟨3, 3, [.enqueue "a" 1 0 0 (), .enqueue "a" 1 0 0 (), .enqueue "b" 1 0 0 (), .dequeue 3],
    by decide⟩

theorem passer_ne (k : ℕ) : passer k ≠ "a" ∧ passer k ≠ passer (k + 1) := by
  unfold passer
  rcases mod_two_eq_zero_or_one k with h | h
  · rw [if_pos h, if_neg (by omega)]
    decide
  · rw [if_neg (by omega), if_pos (by omega)]
    decide

/-- The next tenant arrives and the one in the queue is served. Everything fits. -/
theorem overtaken_step (k : ℕ) :
    exec step (overtaken k) [.enqueue (passer (k + 1)) 1 0 0 (), .dequeue 3] =
      some (overtaken (k + 1)) := by
  let full : FairCostQueue Unit :=
    { maxCount := 3, maxCost := 3, cursor := 1, count := 3, cost := 3
      buckets := [⟨"a", ⟨2, "a", 1, 0, 0, (), 0⟩, []⟩, ⟨passer k, passerEntry k, []⟩,
        ⟨passer (k + 1), passerEntry (k + 1), []⟩] }
  have hpush : (overtaken k).queue.enqueue (passerEntry (k + 1)) = some full := by
    have ha : "a" ≠ passer (k + 1) := (passer_ne (k + 1)).1.symm
    have hk : passer k ≠ passer (k + 1) := (passer_ne k).2
    have hbuckets : pushTo (passerEntry (k + 1)) (overtaken k).queue.buckets = full.buckets := by
      refine pushTo_open ?_
      intro b hb
      rcases mem_cons.1 hb with rfl | hb
      · exact ha
      · rw [mem_singleton.1 hb]
        exact hk
    refine enqueue_eq_some.2 ⟨rfl, ?_⟩
    rw [hbuckets]
    rfl
  have hvisits : full.visits = [1, 2, 0] := by simp [full, visits, range_succ]
  have hreserved : full.reserved = none := by
    rw [reserved, hvisits]
    rfl
  have hserve : full.dequeue 3 = some (passerEntry k, (overtaken (k + 1)).queue) := by
    rw [dequeue, if_neg (show full.count ≠ 0 from succ_ne_zero 2), hreserved, hvisits]
    rfl
  have hserved : (overtaken k).served ++ [passerEntry k] = (overtaken (k + 1)).served := by
    simp [overtaken, range_succ]
  have harrive : step (overtaken k) (.enqueue (passer (k + 1)) 1 0 0 ()) =
      some { overtaken k with queue := full, nextId := k + 5 } := by
    rw [step, show (overtaken k).entry (passer (k + 1)) 1 0 0 () = passerEntry (k + 1) from rfl,
      hpush]
    rfl
  rw [exec_cons]
  refine ⟨_, harrive, ?_⟩
  rw [exec_cons]
  refine ⟨_, ?_, rfl⟩
  rw [step, hserve]
  show some { overtaken (k + 1) with served := (overtaken k).served ++ [passerEntry k] } = _
  rw [hserved]

theorem overtaken_run (k : ℕ) : ∃ es, exec step (overtaken 0) es = some (overtaken k) := by
  induction k with
  | zero => exact ⟨[], rfl⟩
  | succ k ih =>
    obtain ⟨es, hes⟩ := ih
    exact ⟨es ++ _, exec_append.2 ⟨_, hes, overtaken_step k⟩⟩

/-- Entry 2 fits whenever capacity is offered, and is starved by two other tenants. -/
theorem not_boundedBypass : ¬ BoundedBypass Unit := by
  intro ⟨bound, hbound⟩
  obtain ⟨es, hes⟩ := overtaken_run (bound (overtaken 0).queue + 1)
  have hle := hbound (overtaken 0) overtaken_reachable 2 ⟨_, mem_cons_self, rfl⟩ es _ hes
    ⟨⟨2, "a", 1, 0, 0, (), 0⟩, by rw [items]; simp [overtaken, itemsOf, entries, QueueEntry.bare], rfl⟩
  have hall : ((range (bound (overtaken 0).queue + 1)).map passerEntry).filter (2 < ·.id) =
      (range (bound (overtaken 0).queue + 1)).map passerEntry := by
    refine filter_eq_self.2 fun e he => ?_
    obtain ⟨k, -, rfl⟩ := mem_map.1 he
    simp [passerEntry]
  have hover : overtakes 2 (overtaken 0) (overtaken (bound (overtaken 0).queue + 1)) =
      bound (overtaken 0).queue + 1 := by
    show (((range (bound (overtaken 0).queue + 1)).map passerEntry).filter (2 < ·.id)).length = _
    rw [hall, length_map, length_range]
  omega

end OmniRoute.FairRun
