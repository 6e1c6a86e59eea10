import OmniRoute.Admission.Budget

/-!
# Stranded requests

A dispatch serves the shared queue until its next head does not fit, and then takes one request
from every lane. A state is at rest when another dispatch would serve nothing.

**Main result (`not_stranded`).** When every dispatch of a run finds a state that one pass can
serve (`Servable`), no request of the run is stranded: nothing waits while nothing is active, and
a head that fits is held back by the oldest of the heads that have reserved the capacity.

The condition is needed. A dispatch takes one request of a lane although the next one fits
(`secondOfLane_stranded`), passes by the lanes while the shared queue is not empty, and can do
nothing for a request above a limit that was cut.
-/

namespace OmniRoute

open List Option OrdMap AdmissionController Keeps Bool Or

namespace FairCostQueue

variable {τ : Type}

/-! ## Queues that serve nothing -/

variable {q : FairCostQueue τ} {maxCost : ℤ}

/-- With less room, nothing is served either. -/
theorem dequeue_none_mono {maxCost' : ℤ} (hle : maxCost' ≤ maxCost) (h : q.dequeue maxCost = none) :
    q.dequeue maxCost' = none := by
  have hcase := q.dequeue_cases maxCost
  have hcase' := q.dequeue_cases maxCost'
  cases hdeq : q.dequeue maxCost' with
  | none => rfl
  | some r =>
    rw [hdeq] at hcase'
    rw [h] at hcase
    have hcount : q.count ≠ 0 := by
      intro hzero
      rw [dequeue, if_pos hzero] at hdeq
      cases hdeq
    cases hcase' with
    | reserved v₁ b v₂ q' view pick old fits served =>
      -- the same head is picked, and it fits
      obtain ⟨q'', htake, -⟩ := takeAt_view view
      rw [dequeue, if_neg hcount, pick] at h
      dsimp only at h
      rw [if_neg (not_lt.2 (fits.trans hle)), htake] at h
      cases h
    | fitting v₁ b v₂ q' view pick free passed fits served =>
      have hb : b ∈ q.view := by
        rw [view]
        simp
      cases hcase with
      | empty hzero => exact absurd hzero hcount
      | held b' hb' old hlt => exact absurd old.1 (free b' hb')
      | unfit _ hall => exact absurd (fits.trans hle) (not_le.2 (hall b hb))

theorem mem_items_of_head {b : Bucket τ} (hb : b ∈ q.view) : b.head.bare ∈ q.items := by
  rw [items_view, mem_itemsOf]
  exact ⟨b, hb, b.head, mem_cons_self, rfl⟩

/-- What is served fits. -/
theorem dequeue_none_of_unfit (h : ∀ e ∈ q.items, maxCost < e.cost) : q.dequeue maxCost = none := by
  cases hdeq : q.dequeue maxCost with
  | none => rfl
  | some r =>
    obtain ⟨entry, q'⟩ := r
    obtain ⟨hitems, hfits⟩ := items_dequeue hdeq
    have hmem : entry ∈ q.items := by
      rw [hitems]
      exact Multiset.mem_cons_self _ _
    exact absurd hfits (not_le.2 (h entry hmem))

theorem Sound.dequeue_nonpos (hq : q.Sound) (h : maxCost ≤ 0) : q.dequeue maxCost = none :=
  dequeue_none_of_unfit fun e he => h.trans_lt (hq.costs e he).1

/-- If everything fits, something is served, or nothing waits. -/
theorem Sound.items_of_dequeue_none (hq : q.Sound) (hfits : ∀ e ∈ q.items, e.cost ≤ maxCost)
    (h : q.dequeue maxCost = none) : q.items = 0 := by
  have hcase := q.dequeue_cases maxCost
  rw [h] at hcase
  cases hcase with
  | empty hcount => exact Multiset.card_eq_zero.1 (hq.count ▸ hcount)
  | held b hb old hlt => exact absurd (hfits _ (mem_items_of_head hb)) (not_le.2 hlt)
  | unfit free hall =>
    rw [items_view]
    cases hview : q.view with
    | nil => rfl
    | cons b v =>
      have hb : b ∈ q.view := by
        rw [hview]
        exact mem_cons_self
      exact absurd (hfits _ (mem_items_of_head hb)) (not_le.2 (hall b hb))

theorem Sound.cost_le (hq : q.Sound) {e : QueueEntry τ} (he : e ∈ q.items) : e.cost ≤ q.cost := by
  obtain ⟨others, hothers⟩ := Multiset.exists_cons_of_mem he
  have hrest : 0 ≤ total others := by
    apply Multiset.sum_nonneg
    intro c hc
    obtain ⟨e', he', rfl⟩ := Multiset.mem_map.1 hc
    apply (hq.costs e' ?_).1.le
    rw [hothers]
    exact Multiset.mem_cons_of_mem he'
  rw [hq.cost, hothers, total_cons]
  omega

end FairCostQueue

namespace AdmissionController

open FairCostQueue

variable {F : Type} [JsNumber F]

/-! ## Rest -/

/-- Another dispatch would serve nothing, and nothing waits for nothing. -/
structure AtRest (s : AdmissionController F) : Prop where
  shared : s.queue.dequeue s.available = none
  lanes : ∀ p ∈ s.virtualLanes.entries, p.2.queue.dequeue s.available = none
  idle : s.active.size = 0 → s.waiting = 0

/-- No two requests of the lane fit together. -/
def NoPairFits (available : ℤ) (q : FairCostQueue QueuedPayload) : Prop :=
  ∀ e e' : QueueEntry QueuedPayload, {e, e'} ≤ q.items → available < e.cost + e'.cost

/-- One pass over the queues serves all that can be served: while nothing is active, no request
that waits is above the limit; and if a lane has a request to serve, then the whole shared queue
fits and no two requests of that lane fit together. -/
structure Servable (s : AdmissionController F) : Prop where
  idle : s.active.size = 0 → ∀ e ∈ s.waiting, e.cost ≤ s.adaptation.currentLimit
  shared : ∀ p ∈ s.virtualLanes.entries, p.2.queue.dequeue s.available ≠ none →
    s.queue.cost ≤ s.available
  lanes : ∀ p ∈ s.virtualLanes.entries, p.2.queue.dequeue s.available ≠ none →
    NoPairFits s.available p.2.queue

/-- What a service spends: the limit stays, the active cost and the active leases grow. -/
structure Spends (s t : AdmissionController F) : Prop where
  limit : t.adaptation.currentLimit = s.adaptation.currentLimit
  cost : s.activeCost ≤ t.activeCost
  active : t.active.size = 0 → s.active.size = 0

theorem Spends.refl (s : AdmissionController F) : Spends s s := ⟨rfl, le_rfl, id⟩

variable {s t : AdmissionController F}

theorem Spends.trans {u : AdmissionController F} (h₁ : Spends s t) (h₂ : Spends t u) : Spends s u :=
  ⟨h₂.limit.trans h₁.limit, h₁.cost.trans h₂.cost, fun h => h₁.active (h₂.active h)⟩

theorem Spends.available (h : Spends s t) : t.available ≤ s.available := by
  have hcost := h.cost
  unfold AdmissionController.available
  rw [h.limit]
  omega

theorem Spends.frame (hlimit : t.adaptation.currentLimit = s.adaptation.currentLimit)
    (hactive : t.active = s.active) (hcost : t.activeCost = s.activeCost) : Spends s t :=
  ⟨hlimit, hcost.ge, fun h => hactive ▸ h⟩

variable {entry : QueueEntry QueuedPayload}

theorem size_set_ne {m : OrdMap ℕ ActiveLeaseRecord} {id : ℕ} {record : ActiveLeaseRecord} :
    (m.set id record).size ≠ 0 := by
  intro hsize
  have hlen := (perm_set m id record).length_eq
  have hzero : (m.set id record).entries.length = 0 := hsize
  rw [hzero, length_cons] at hlen
  omega

theorem Spends.passes {p : Prop} (hp : p) (h : Passes p s t) : Spends s t := by
  induction h with
  | refl => exact .refl s
  | @tail t _ _ helementary ih =>
    refine ih.trans ?_
    cases helementary with
    | queues h =>
      rw [h.2]
      exact Spends.frame rfl rfl rfl
    | @admits cost hpos _ =>
      obtain ⟨integral, time, heq⟩ := t.admitEntry_eq cost .none
      rw [heq]
      refine ⟨rfl, ?_, fun hsize => absurd hsize size_set_ne⟩
      show t.activeCost ≤ t.activeCost + cost
      have := hpos hp
      omega

theorem takeShared_spends (hs : s.QueuesSound) {q : FairCostQueue QueuedPayload}
    (hdeq : s.queue.dequeue s.available = some (entry, q)) :
    Spends s ({ s with queue := q }.serveEntry entry).1 :=
  .passes trivial (Passes.takeShared .refl hdeq fun _ => hs)

variable {key : String}

theorem takeLane_spends (hs : s.QueuesSound) {lane : AdmissionLane}
    {q : FairCostQueue QueuedPayload} (hget : s.virtualLanes.get key = some lane)
    (hdeq : lane.queue.dequeue s.available = some (entry, q)) :
    Spends s ((s.putLane key lane q).serveEntry entry).1 :=
  .passes trivial (Passes.takeLane .refl hget hdeq fun _ => hs)

theorem removeEmptyLane_spends (s : AdmissionController F) (key : String) :
    Spends s (s.removeEmptyLane key) :=
  .passes trivial (Passes.evictsOnly .refl (removeEmptyLane_evictsOnly s key))

theorem dispatch_spends (hs : s.QueuesSound) : Keeps s s.dispatch ∧ Spends s s.dispatch :=
  ⟨(refl hs).dispatch, .passes trivial (Passes.dispatch .refl fun _ => hs)⟩

/-! ## The shared queue -/

/-- What the loop over the shared queue comes to: it stops with a queue that serves nothing, it
leaves the lanes alone, and it empties a queue that fits as a whole. -/
theorem dispatchLoop_rest (n : ℕ) (hs : s.QueuesSound) (hn : s.queue.count ≤ n) :
    (dispatchLoop n s).1.queue.dequeue (dispatchLoop n s).1.available = none ∧
      (dispatchLoop n s).1.virtualLanes = s.virtualLanes ∧ Keeps s (dispatchLoop n s).1 ∧
      Spends s (dispatchLoop n s).1 ∧
      ((dispatchLoop n s).2 = true → (dispatchLoop n s).1.queue.count = 0) ∧
      (s.queue.cost ≤ s.available → (dispatchLoop n s).2 = true) := by
  have hdone : ∀ s : AdmissionController F, s.queue.count = 0 →
      s.queue.dequeue s.available = none := by
    intro s hcount
    rw [dequeue, if_pos hcount]
  induction n generalizing s with
  | zero =>
    have hcount : s.queue.count = 0 := Nat.le_zero.1 hn
    exact ⟨hdone s hcount, rfl, refl hs, Spends.refl s, fun _ => hcount, fun _ => rfl⟩
  | succ n ih =>
    rw [dispatchLoop]
    split
    · next hcount =>
      exact ⟨hdone s hcount, rfl, refl hs, Spends.refl s, fun _ => hcount, fun _ => rfl⟩
    next hcount =>
    have hsome : ∃ e, e ∈ s.queue.items := by
      apply Multiset.exists_mem_of_ne_zero
      intro hzero
      exact hcount (by rw [hs.1.count, hzero]; rfl)
    obtain ⟨e, he⟩ := hsome
    have hcost := hs.1.cost_le he
    have hpos := (hs.1.costs e he).1
    dsimp only
    split
    · next hfull =>
      refine ⟨hs.1.dequeue_nonpos hfull, rfl, refl hs, Spends.refl s, (absurd · false_ne_true), ?_⟩
      intro hfits
      unfold available at hfits
      omega
    cases hdeq : s.queue.dequeue (s.adaptation.currentLimit - s.activeCost) with
    | none =>
      refine ⟨hdeq, rfl, refl hs, Spends.refl s, (absurd · false_ne_true), ?_⟩
      intro hfits
      have hall : ∀ e ∈ s.queue.items, e.cost ≤ s.adaptation.currentLimit - s.activeCost :=
        fun e he => (hs.1.cost_le he).trans hfits
      rw [hs.1.items_of_dequeue_none hall hdeq] at he
      exact absurd he (Multiset.notMem_zero e)
    | some r =>
      obtain ⟨entry, q⟩ := r
      have hserved := ((refl hs).takeShared hdeq).serve
      have hspent := takeShared_spends hs hdeq
      have hq := hs.1.dequeue hdeq
      have hitems := (items_dequeue hdeq).1
      have hlanes : ({ s with queue := q }.serveEntry entry).1.virtualLanes = s.virtualLanes ∧
          ({ s with queue := q }.serveEntry entry).1.queue = q ∧
          (s.queue.cost ≤ s.available →
            q.cost ≤ ({ s with queue := q }.serveEntry entry).1.available) := by
        have hcost' : q.cost = s.queue.cost - entry.cost := by
          rw [hq.cost, hs.1.cost, hitems, total_cons]
          omega
        have hpos' := Sound.dequeue_pos hs.1 hdeq
        rcases serveEntry_cases { s with queue := q } entry with
          heq | ⟨code, message, heq⟩
        · obtain ⟨integral, time, heq'⟩ := admitQueued_eq
            { s with queue := q } entry
          rw [heq, heq']
          refine ⟨rfl, rfl, ?_⟩
          intro hfits
          show q.cost ≤ s.adaptation.currentLimit - (s.activeCost + entry.cost)
          unfold available at hfits
          omega
        · rw [heq]
          refine ⟨rfl, rfl, ?_⟩
          intro hfits
          show q.cost ≤ s.adaptation.currentLimit - s.activeCost
          unfold available at hfits
          omega
      obtain ⟨hlanes, hqueue, hroom⟩ := hlanes
      have hcount' : ({ s with queue := q }.serveEntry entry).1.queue.count ≤ n := by
        have hcard := congrArg Multiset.card hitems
        rw [Multiset.card_cons, ← hs.1.count, ← hq.count] at hcard
        rw [hqueue]
        omega
      obtain ⟨hrest, hlanes', hkeeps, hspends, hempty, hfits⟩ := ih hserved.sound hcount'
      refine ⟨hrest, hlanes'.trans hlanes, hserved.trans hkeeps, hspent.trans hspends, hempty, ?_⟩
      intro hall
      apply hfits
      rw [hqueue]
      exact hroom hall

/-! ## The lanes -/

/-- A lane that serves nothing, or at most one request, within `available`. -/
def LaneGood (available : ℤ) (lane : AdmissionLane) : Prop :=
  lane.queue.dequeue available = none ∨ NoPairFits available lane.queue

variable {q : FairCostQueue QueuedPayload}

theorem NoPairFits.mono {available : ℤ} {q' : FairCostQueue QueuedPayload}
    (h : NoPairFits available q) (hle : q'.items ≤ q.items) : NoPairFits available q' :=
  fun e e' hpair => h e e' (hpair.trans hle)

/-- After one of its requests such a lane has none that fits into what is left. -/
theorem NoPairFits.dequeue_none {room available : ℤ} {q' : FairCostQueue QueuedPayload}
    (h : NoPairFits room q) (hroom : available ≤ room)
    (hdeq : q.dequeue available = some (entry, q')) :
    q'.dequeue (available - entry.cost) = none := by
  apply dequeue_none_of_unfit
  intro e he
  have hpair : {entry, e} ≤ q.items := by
    rw [(items_dequeue hdeq).1, Multiset.insert_eq_cons]
    exact Multiset.cons_le_cons entry (Multiset.singleton_le.2 he)
  have hcost := h entry e hpair
  omega

/-- One round of a lane's loop. -/
theorem dispatchLane_succ (n : ℕ) {lane : AdmissionLane}
    (hget : s.virtualLanes.get key = some lane) (hcount : lane.queue.count ≠ 0)
    (hpos : 0 < s.available) (hdeq : lane.queue.dequeue s.available = some (entry, q)) :
    dispatchLane key (n + 1) s =
      if ((s.putLane key lane q).serveEntry entry).2 = true then
        (((s.putLane key lane q).serveEntry entry).1, false)
      else dispatchLane key n ((s.putLane key lane q).serveEntry entry).1 := by
  unfold available at hpos hdeq
  rw [dispatchLane, hget]
  dsimp only
  rw [if_neg hcount, if_neg (not_le.2 hpos), hdeq]
  dsimp only
  split
  · next t hserve =>
    rw [show (s.putLane key lane q).serveEntry entry = (t, true) from hserve]
    rfl
  · next t hserve =>
    rw [show (s.putLane key lane q).serveEntry entry = (t, false) from hserve]
    rfl

/-- What the loop of a lane comes to: the lane serves nothing more, or there is no room left; the
other lanes and the shared queue stay. -/
structure LaneRest (key : String) (s : AdmissionController F) (r : AdmissionController F × Bool) :
    Prop where
  keeps : Keeps s r.1
  spends : Spends s r.1
  queue : r.1.queue = s.queue
  full : r.2 = true → r.1.available ≤ 0
  quiet : ∀ lane, r.1.virtualLanes.get key = some lane →
    lane.queue.dequeue r.1.available = none
  others : ∀ other, other ≠ key → r.1.virtualLanes.get other = s.virtualLanes.get other

theorem LaneRest.stop (full : Bool) (hs : s.QueuesSound) (hfull : full = true → s.available ≤ 0)
    (hquiet : ∀ lane, s.virtualLanes.get key = some lane → lane.queue.dequeue s.available = none) :
    LaneRest key s (s, full) :=
  ⟨refl hs, Spends.refl s, rfl, hfull, hquiet, fun _ _ => rfl⟩

theorem dispatchLane_rest (key : String) (n : ℕ) {room : ℤ} (hs : s.QueuesSound)
    (hroom : s.available ≤ room) (hgood : ∀ lane, s.virtualLanes.get key = some lane →
      lane.queue.count ≤ n ∧ LaneGood room lane) : LaneRest key s (dispatchLane key n s) := by
  induction n generalizing s with
  | zero =>
    apply LaneRest.stop false hs (absurd · false_ne_true)
    intro lane hget
    rw [dequeue, if_pos (Nat.le_zero.1 (hgood lane hget).1)]
  | succ n ih =>
    cases hget : s.virtualLanes.get key with
    | none =>
      rw [dispatchLane, hget]
      apply LaneRest.stop false hs (absurd · false_ne_true)
      intro lane hlane
      rw [hget] at hlane
      cases hlane
    | some l =>
      obtain ⟨hcount, hlane⟩ := hgood l hget
      have hquiet : l.queue.dequeue s.available = none → ∀ lane,
          s.virtualLanes.get key = some lane → lane.queue.dequeue s.available = none := by
        intro h lane hlane
        rw [hget] at hlane
        cases hlane
        exact h
      by_cases hzero : l.queue.count = 0
      · rw [dispatchLane, hget]
        dsimp only
        rw [if_pos hzero]
        apply LaneRest.stop false hs (absurd · false_ne_true) (hquiet ?_)
        rw [dequeue, if_pos hzero]
      by_cases hfull : s.available ≤ 0
      · have hfull' := hfull
        unfold available at hfull'
        rw [dispatchLane, hget]
        dsimp only
        rw [if_neg hzero, if_pos hfull']
        exact LaneRest.stop true hs (fun _ => hfull) (hquiet ((hs.lane hget).dequeue_nonpos hfull))
      cases hdeq : l.queue.dequeue s.available with
      | none =>
        have hdeq' := hdeq
        have hfull' := hfull
        unfold available at hdeq' hfull'
        rw [dispatchLane, hget]
        dsimp only
        rw [if_neg hzero, if_neg hfull', hdeq']
        exact LaneRest.stop false hs (absurd · false_ne_true) (hquiet hdeq)
      | some r =>
        obtain ⟨entry, q⟩ := r
        have hserved := ((refl hs).dequeueLane hget hdeq).serve
        have hspent := takeLane_spends hs hget hdeq
        have hitems := (items_dequeue hdeq).1
        have hpairs : NoPairFits room l.queue := by
          rcases hlane with hnone | hpairs
          · rw [dequeue_none_mono hroom hnone] at hdeq
            cases hdeq
          · exact hpairs
        have hother : ∀ other, other ≠ key →
            (s.putLane key l q).virtualLanes.get other = s.virtualLanes.get other :=
          fun other hne => OrdMap.get_set_ne _ hne _
        have hself : (s.putLane key l q).virtualLanes.get key = some { l with queue := q } :=
          OrdMap.get_set_self _ _ _
        rw [dispatchLane_succ n hget hzero (not_le.1 hfull) hdeq]
        rcases (s.putLane key l q).serveEntry_cases entry with heq | ⟨code, message, heq⟩
        · -- the request is admitted, and the lane is left
          rw [heq] at hserved hspent ⊢
          rw [if_pos rfl]
          obtain ⟨integral, time, heq'⟩ := (s.putLane key l q).admitQueued_eq entry
          refine ⟨hserved, hspent, by rw [heq']; rfl, (absurd · false_ne_true), ?_, ?_⟩
          · intro lane hlane
            rw [heq'] at hlane ⊢
            obtain rfl := some.inj (hself.symm.trans hlane)
            have hnext := hpairs.dequeue_none hroom hdeq
            rw [show s.available - entry.cost = s.adaptation.currentLimit -
              (s.activeCost + entry.cost) by unfold available; omega] at hnext
            exact hnext
          · intro other hne
            rw [heq']
            exact hother other hne
        · -- the request is rejected, and the loop goes on
          rw [heq] at hserved hspent ⊢
          rw [if_neg Bool.false_ne_true]
          rw [failQueued_eq] at hserved hspent ⊢
          have hcard : q.count ≤ n := by
            have hcards := congrArg Multiset.card hitems
            rw [Multiset.card_cons, ← (hs.lane hget).count,
              ← ((hs.lane hget).dequeue hdeq).count] at hcards
            omega
          have hrest := ih hserved.sound (hspent.available.trans hroom) (by
            intro lane hlane
            obtain rfl := some.inj (hself.symm.trans hlane)
            refine ⟨hcard, inr (hpairs.mono ?_)⟩
            rw [hitems]
            exact Multiset.le_cons_self _ _)
          refine ⟨hserved.trans hrest.keeps, hspent.trans hrest.spends, hrest.queue, hrest.full,
            hrest.quiet, ?_⟩
          intro other hne
          rw [hrest.others other hne]
          exact hother other hne

/-- The pass over the lanes leaves none that has a request to serve. -/
theorem dispatchKeys_rest {keys : List String} (hnd : keys.Nodup) {room : ℤ} (hs : s.QueuesSound)
    (hroom : s.available ≤ room)
    (hlater : ∀ p ∈ s.virtualLanes.entries, p.1 ∈ keys → LaneGood room p.2)
    (hvisited : ∀ p ∈ s.virtualLanes.entries, p.1 ∉ keys → p.2.queue.dequeue s.available = none) :
    (dispatchKeys keys s).queue = s.queue ∧ Spends s (dispatchKeys keys s) ∧
      ∀ p ∈ (dispatchKeys keys s).virtualLanes.entries,
        p.2.queue.dequeue (dispatchKeys keys s).available = none := by
  induction keys generalizing s with
  | nil => exact ⟨rfl, Spends.refl s, fun p hp => hvisited p hp not_mem_nil⟩
  | cons key keys ih =>
    obtain ⟨hnot, hnd⟩ := nodup_cons.1 hnd
    rw [dispatchKeys]
    cases hget : s.virtualLanes.get key with
    | none =>
      have habsent : ∀ p ∈ s.virtualLanes.entries, p.1 ≠ key := by
        intro p hp heq
        exact get_eq_none.1 hget (heq ▸ mem_map_of_mem hp)
      apply ih hnd hs hroom
      · intro p hp hkey
        exact hlater p hp (mem_cons_of_mem _ hkey)
      · intro p hp hkey
        exact hvisited p hp (not_mem_cons_of_ne_of_not_mem (habsent p hp) hkey)
    | some l =>
      have hrest := dispatchLane_rest key l.queue.count hs hroom (by
        intro lane hlane
        rw [hget] at hlane
        cases hlane
        exact ⟨le_rfl, hlater (key, l) (get_eq_some.1 hget) mem_cons_self⟩)
      dsimp only
      rcases hd : dispatchLane key l.queue.count s with ⟨t, full⟩
      rw [hd] at hrest
      have hspends := hrest.spends
      -- the other lanes are as before, within less room
      have hlanes : ∀ p ∈ t.virtualLanes.entries, p.1 ≠ key → p ∈ s.virtualLanes.entries := by
        intro p hp hne
        have hp' : t.virtualLanes.get p.1 = some p.2 := get_eq_some.2 hp
        rw [hrest.others p.1 hne] at hp'
        exact get_eq_some.1 hp'
      cases full with
      | true =>
        refine ⟨hrest.queue, hspends, ?_⟩
        intro p hp
        exact (hrest.keeps.sound.2 p hp).dequeue_nonpos (hrest.full rfl)
      | false =>
        have hdropped : ∀ p ∈ (t.removeEmptyLane key).virtualLanes.entries,
            p ∈ t.virtualLanes.entries := by
          intro p hp
          rcases t.removeEmptyLane_cases key with heq | ⟨_, _, _, heq⟩
          · rwa [heq] at hp
          · rw [heq] at hp
            exact mem_of_mem_delete hp
        have hsame : (t.removeEmptyLane key).available = t.available ∧
            (t.removeEmptyLane key).queue = t.queue := by
          rw [removeEmptyLane_evictsOnly t key]
          exact ⟨rfl, rfl⟩
        obtain ⟨hqueue, hspends', hall⟩ := ih (s := t.removeEmptyLane key) hnd
          (hrest.keeps.removeEmptyLane key).sound (hsame.1 ▸ hspends.available.trans hroom)
          (by
            intro p hp hkey
            have hne : p.1 ≠ key := by
              intro heq
              exact hnot (heq ▸ hkey)
            exact hlater p (hlanes p (hdropped p hp) hne) (mem_cons_of_mem _ hkey))
          (by
            intro p hp hkey
            rw [hsame.1]
            by_cases heq : p.1 = key
            · have hp' : t.virtualLanes.get key = some p.2 :=
                get_eq_some.2 (heq ▸ hdropped p hp)
              exact hrest.quiet p.2 hp'
            · apply dequeue_none_mono hspends.available
              exact hvisited p (hlanes p (hdropped p hp) heq)
                (not_mem_cons_of_ne_of_not_mem heq hkey))
        exact ⟨hqueue.trans (hsame.2.trans hrest.queue),
          (hspends.trans (removeEmptyLane_spends t key)).trans hspends', hall⟩

/-! ## A dispatch -/

theorem AtRest.servable (h : AtRest s) : Servable s where
  idle := by
    intro hsize e he
    rw [h.idle hsize] at he
    exact absurd he (Multiset.notMem_zero e)
  shared := fun p hp hserves => absurd (h.lanes p hp) hserves
  lanes := fun p hp hserves => absurd (h.lanes p hp) hserves

/-- A controller without leases has the whole limit to give. -/
theorem Ledger.available_of_idle (h : Ledger s) (hsize : s.active.size = 0) :
    s.available = s.adaptation.currentLimit := by
  have hnil : s.active.entries = [] := eq_nil_of_length_eq_zero hsize
  unfold available
  rw [h.cost, OrdMap.tally, hnil]
  exact sub_zero _

/-- If the queues serve nothing while nothing is active, the queues are empty. -/
theorem AtRest.of_quiet (hkeeps : Keeps s t) (hspends : Spends s t) (hl : Ledger t)
    (hidle : s.active.size = 0 → ∀ e ∈ s.waiting, e.cost ≤ s.adaptation.currentLimit)
    (hshared : t.queue.dequeue t.available = none)
    (hlanes : ∀ p ∈ t.virtualLanes.entries, p.2.queue.dequeue t.available = none) : AtRest t := by
  refine ⟨hshared, hlanes, ?_⟩
  intro hsize
  have hfits : ∀ e ∈ t.waiting, e.cost ≤ t.available := by
    intro e he
    have hwaiting := hkeeps.waiting
    rw [map_nil, Multiset.coe_nil, Multiset.zero_add] at hwaiting
    rw [hl.available_of_idle hsize, hspends.limit]
    exact hidle (hspends.active hsize) e (Multiset.mem_of_le hwaiting he)
  have hqueue : t.queue.items = 0 := by
    apply hkeeps.sound.1.items_of_dequeue_none ?_ hshared
    intro e he
    exact hfits e (Multiset.mem_add.2 (inl he))
  have hempty : OrdMap.tally laneItems t.virtualLanes = 0 := by
    apply tally_eq_zero
    intro p hp
    apply (hkeeps.sound.2 p hp).items_of_dequeue_none ?_ (hlanes p hp)
    intro e he
    apply hfits e (Multiset.mem_add.2 (inr ?_))
    rw [tally_get (get_eq_some.2 hp)]
    exact Multiset.mem_add.2 (inl he)
  unfold waiting
  rw [hqueue, hempty, Multiset.zero_add]

theorem dispatchLoop_open (n : ℕ) (h : ¬ (s.shutDown = true ∨ s.config.mode ≠ .enforce)) :
    ¬ ((dispatchLoop n s).1.shutDown = true ∨ (dispatchLoop n s).1.config.mode ≠ .enforce) := by
  apply dispatchLoop_induct
    (P := fun t => ¬ (t.shutDown = true ∨ t.config.mode ≠ .enforce)) ?_ n h
  intro t entry q ht _ _
  rcases serveEntry_cases { t with queue := q } entry with
    heq | ⟨code, message, heq⟩
  · obtain ⟨integral, time, heq'⟩ := admitQueued_eq { t with queue := q } entry
    rw [heq, heq']
    exact ht
  · rw [heq]
    exact ht

/-- One pass serves all that it can serve. -/
theorem dispatch_quiet (hs : s.QueuesSound) (hmode : s.config.mode = .enforce)
    (hopen : s.shutDown = false) (hserv : Servable s) :
    s.dispatch.queue.dequeue s.dispatch.available = none ∧
      ∀ p ∈ s.dispatch.virtualLanes.entries, p.2.queue.dequeue s.dispatch.available = none := by
  have hrun : ¬ (s.shutDown = true ∨ s.config.mode ≠ .enforce) := by
    rw [hopen, hmode]
    simp
  have hrun' := dispatchLoop_open s.queue.count hrun
  obtain ⟨hrest, hlanes, hkeeps, hspends, -, hall⟩ := dispatchLoop_rest s.queue.count hs le_rfl
  unfold dispatch
  rw [if_neg hrun]
  rcases hloop : dispatchLoop s.queue.count s with ⟨t, done⟩
  rw [hloop] at hrun' hrest hlanes hkeeps hspends hall
  dsimp only at hrun' hrest hlanes hkeeps hspends hall
  have hroom := hspends.available
  cases done with
  | false =>
    -- the lanes are not served, but then they had nothing to serve
    refine ⟨hrest, ?_⟩
    intro p hp
    rw [hlanes] at hp
    apply dequeue_none_mono hroom
    by_contra hserves
    exact false_ne_true (hall (hserv.shared p hp hserves))
  | true =>
    dsimp only
    unfold dispatchLanes
    rw [if_neg hrun']
    split
    · next hsize =>
      refine ⟨hrest, ?_⟩
      intro p hp
      rw [eq_nil_of_length_eq_zero hsize] at hp
      cases hp
    · have hnd : t.virtualLanes.keys.Nodup := t.virtualLanes.nodup
      obtain ⟨hqueue, hspends', hquiet⟩ := dispatchKeys_rest hnd hkeeps.sound hroom
        (by
          intro p hp _
          rw [hlanes] at hp
          by_cases hserves : p.2.queue.dequeue s.available = none
          · exact inl hserves
          · exact inr (hserv.lanes p hp hserves))
        (fun p hp hkey => absurd (mem_map_of_mem hp) hkey)
      refine ⟨?_, hquiet⟩
      rw [hqueue]
      exact dequeue_none_mono hspends'.available hrest

/-- A dispatch of a state that one pass can serve comes to rest. -/
theorem dispatch_atRest (hs : s.QueuesSound) (hl : Ledger s.dispatch)
    (hmode : s.config.mode = .enforce) (hopen : s.shutDown = false) (hserv : Servable s) :
    AtRest s.dispatch := by
  obtain ⟨hkeeps, hspends⟩ := dispatch_spends hs
  obtain ⟨hshared, hlanes⟩ := dispatch_quiet hs hmode hopen hserv
  exact AtRest.of_quiet hkeeps hspends hl hserv.idle hshared hlanes

/-- The controller is at rest while it enforces. -/
def Rested (s : AdmissionController F) : Prop :=
  s.config.mode = .enforce → s.shutDown = false → AtRest s

/-- One pass can serve the state, if a dispatch does anything at all. -/
def Ready (s : AdmissionController F) : Prop :=
  s.config.mode = .enforce → s.shutDown = false → Servable s

theorem Ready.dispatch (h : Ready s) (hs : s.QueuesSound) (hl : Ledger s.dispatch) :
    Rested s.dispatch := by
  intro hmode hopen
  rw [dispatch_config] at hmode
  have hshut : s.dispatch.shutDown = s.shutDown := (refl hs).dispatch.shutDown
  rw [hshut] at hopen
  exact dispatch_atRest hs hl hmode hopen (h hmode hopen)

theorem Rested.ready (h : Rested s) : Ready s :=
  fun hmode hopen => (h hmode hopen).servable

/-! ## Changes between dispatches -/

/-- No queue gets anything to serve. -/
structure Shrinks (s t : AdmissionController F) : Prop where
  mode : t.config.mode = .enforce → s.config.mode = .enforce
  shutDown : t.shutDown = false → s.shutDown = false
  queue : t.queue = s.queue
  room : t.available ≤ s.available
  lanes : ∀ p ∈ t.virtualLanes.entries, p.2.queue.count = 0 ∨
    ∃ p' ∈ s.virtualLanes.entries, p.2.queue = p'.2.queue
  active : t.active.size = 0 → s.active.size = 0
  waiting : t.waiting ≤ s.waiting

variable {p : String × AdmissionLane}

theorem Shrinks.lane_dequeue (h : Shrinks s t)
    (hlanes : ∀ p ∈ s.virtualLanes.entries, p.2.queue.dequeue s.available = none)
    (hp : p ∈ t.virtualLanes.entries) : p.2.queue.dequeue t.available = none := by
  apply dequeue_none_mono h.room
  rcases h.lanes p hp with hcount | ⟨p', hp', heq⟩
  · rw [dequeue, if_pos hcount]
  · rw [heq]
    exact hlanes p' hp'

theorem Rested.shrinks (hs : Rested s) (h : Shrinks s t) : Rested t := by
  intro hmode hopen
  have hrest := hs (h.mode hmode) (h.shutDown hopen)
  refine ⟨?_, fun p hp => h.lane_dequeue hrest.lanes hp, ?_⟩
  · rw [h.queue]
    exact dequeue_none_mono h.room hrest.shared
  · intro hsize
    have hwaiting := h.waiting
    rw [hrest.idle (h.active hsize)] at hwaiting
    exact Multiset.le_zero.1 hwaiting

/-- The queues stay as they are. -/
theorem Shrinks.frame (hqueues : (t.config, t.shutDown, t.queue, t.virtualLanes) =
      (s.config, s.shutDown, s.queue, s.virtualLanes)) (hroom : t.available ≤ s.available)
    (hactive : t.active.size = 0 → s.active.size = 0) : Shrinks s t := by
  simp only [Prod.mk.injEq] at hqueues
  obtain ⟨hconfig, hshut, hqueue, hlanes⟩ := hqueues
  refine ⟨fun h => hconfig ▸ h, fun h => hshut ▸ h, hqueue, hroom, ?_, hactive, ?_⟩
  · exact fun p hp => inr ⟨p, hlanes ▸ hp, rfl⟩
  · unfold AdmissionController.waiting
    rw [hqueue, hlanes]

/-- An eviction that leaves no other lanes than there were, or empty ones. -/
theorem Shrinks.evictsOnly (h : EvictsOnly s t) (hkeeps : Keeps s t)
    (hlanes : ∀ p ∈ t.virtualLanes.entries, p.2.queue.count = 0 ∨
      ∃ p' ∈ s.virtualLanes.entries, p.2.queue = p'.2.queue) : Shrinks s t := by
  have hwaiting := hkeeps.waiting
  rw [map_nil, Multiset.coe_nil, Multiset.zero_add] at hwaiting
  refine ⟨?_, ?_, ?_, ?_, hlanes, ?_, hwaiting⟩
  all_goals rw [h]
  · exact id
  · exact id
  · exact le_of_eq rfl
  · exact id

theorem deleteLane_lanes (hp : p ∈ (s.deleteLane key).virtualLanes.entries) :
    p ∈ s.virtualLanes.entries := by
  unfold deleteLane at hp
  split at hp
  · exact hp
  · dsimp only at hp
    rw [failAll_lanes] at hp
    exact mem_of_mem_delete hp

theorem evictIdleLanes_lanes (hp : p ∈ s.evictIdleLanes.virtualLanes.entries) :
    p ∈ s.virtualLanes.entries := by
  have hkeys : ∀ (keys : List String) (s : AdmissionController F),
      p ∈ (keys.foldl deleteLane s).virtualLanes.entries → p ∈ s.virtualLanes.entries := by
    intro keys
    induction keys with
    | nil => exact fun _ hp => hp
    | cons key keys ih => exact fun s hp => deleteLane_lanes (ih (s.deleteLane key) hp)
  unfold evictIdleLanes at hp
  dsimp only at hp
  split at hp
  · exact hkeys _ s hp
  · exact hkeys _ s hp

theorem Rested.evictIdleLanes (h : Rested s) (hs : s.QueuesSound) : Rested s.evictIdleLanes := by
  apply h.shrinks
  apply Shrinks.evictsOnly (evictIdleLanes_evictsOnly s) (refl hs).evictIdleLanes
  intro p hp
  exact inr ⟨p, evictIdleLanes_lanes hp, rfl⟩

theorem Rested.sampleIntegral (h : Rested s) : Rested s.sampleIntegral := by
  obtain ⟨integral, time, heq⟩ := s.sampleIntegral_eq
  rw [heq]
  exact h.shrinks (Shrinks.frame rfl le_rfl id)

theorem dispatchVirtual_active (h : s.dispatchVirtual.active.size = 0) : s.active.size = 0 := by
  unfold dispatchVirtual at h
  generalize s.virtualQueue.count = n at h
  induction n generalizing s with
  | zero => exact h
  | succ n ih =>
    rw [dispatchVirtualLoop] at h
    split at h
    · exact h
    dsimp only at h
    split at h
    · exact h
    split at h
    · exact h
    · split at h
      · have hsize := ih h
        exact hsize
      · exact absurd (ih h) size_set_ne

theorem Rested.dispatchVirtual (h : Rested s) : Rested s.dispatchVirtual := by
  have hv := dispatchVirtual_virtualOnly s
  have hactive := dispatchVirtual_active (s := s)
  refine h.shrinks ⟨?_, ?_, ?_, ?_, ?_, hactive, ?_⟩
  · rw [hv]
    exact id
  · rw [hv]
    exact id
  · rw [hv]
  · rw [hv]
    exact le_of_eq rfl
  · rw [hv]
    exact fun p hp => inr ⟨p, hp, rfl⟩
  · rw [hv]
    exact le_of_eq rfl

/-! ## Where a dispatch starts -/

instance lawfulBEqListener : LawfulBEq (ℕ × ℕ) := inferInstance

/-- The states the listeners of an aborted signal dispatch from. -/
def abortPoints (signal : ℕ) : List ℕ → AdmissionController F → List (AdmissionController F)
  | [], _ => []
  | entry :: entries, s =>
    (if (entry, signal) ∈ s.listeners then
      (({ s with listeners := s.listeners.filter (· ≠ (entry, signal)) } :
        AdmissionController F).expired entry .aborted "request aborted while queued").toList
    else []) ++ abortPoints signal entries (s.onAbort signal entry)

/-- A request in the lane of its tenant, if the lane takes it. -/
def joinLane (s : AdmissionController F) (request : AdmissionRequest F) (cost : ℤ) :
    Option (AdmissionController F) :=
  let id := s.leaseSeq + 1
  let s := { s with leaseSeq := id }
  match s.resolveMaxWait request with
  | .error _ => none
  | .ok maxWait =>
    let entry : QueueEntry QueuedPayload :=
      { id, tenantKey := tenant request, cost, enqueuedAtMs := s.now
        deadlineMs := Min.min maxSafeInteger (s.now + maxWait), payload := ⟨request.signal⟩ }
    if entry.tenantKey ≠ "_default" ∧ s.config.virtualLanes then
      match s.enqueueLane entry with
      | (_, false) => none
      | (s, true) => some { s with issued := s.issued ++ [entry.id] }
    else none

/-- An `acquire` up to its dispatch, if the request waits in a lane. -/
def laneArrival (s : AdmissionController F) (request : AdmissionRequest F) :
    Option (AdmissionController F) :=
  if s.shutDown ∨ request.signal.any (· ∈ s.aborted) then none
  else
    let s := s.notePressure request
    match s.resolveCost request with
    | .error _ => none
    | .ok cost =>
      if cost ≤ s.adaptation.currentLimit ∧
          ¬ (s.queue.count = 0 ∧ s.activeCost + cost ≤ s.adaptation.currentLimit) ∧
          s.queue.canAccept cost = true then
        s.joinLane request cost
      else none

/-- The dispatches of an event find states that one pass can serve. Those of an arrival in the
shared queue, of a cut of the limit and of a new configuration always do. -/
def Serves (s : AdmissionController F) : AdmissionEvent F → Prop
  | .acquire request => ∀ d, s.laneArrival request = some d → Ready d
  | .release lease outcome info =>
    ∀ record, s.active.get lease = some record → Ready (s.released lease record outcome info)
  | .tick => Ready s.windowClosed
  | .windowTimer => Ready s.windowClosed
  | .deadline entry =>
    ∀ d, ({ s with timers := s.timers.delete entry } : AdmissionController F).expired entry
      .deadline "admission wait deadline exceeded" = some d → Ready d
  | .abort signal =>
    ∀ d ∈ abortPoints signal ((s.listeners.filter (·.2 = signal)).map Prod.fst)
      { s with aborted := signal :: s.aborted }, Ready d
  | _ => True

/-! ## The operations -/

section

variable (h : Rested s)
include h

section

variable (hs : s.QueuesSound)
include hs

theorem Rested.releaseLease (hl : Ledger s) {id : ℕ}
    {outcome : AdmissionReleaseOutcome} {info : AdmissionReleaseMeta F}
    (hserves : s.Serves (.release id outcome info)) : Rested (s.releaseLease id outcome info) := by
  have hledger := hl.releaseLease hs id outcome info
  rw [releaseLease_eq] at hledger ⊢
  cases hget : s.active.get id with
  | none => exact h
  | some record =>
    rw [hget] at hledger
    exact (hserves record hget).dispatch (hs.released id outcome info) hledger

theorem Rested.expireEntry (hl : Ledger s) {id : ℕ} {code : AdmissionRejectCode} {message : String}
    (hserves : ∀ d, s.expired id code message = some d → Ready d) :
    Rested (s.expireEntry id code message) := by
  have hledger := hl.expireEntry hs id code message
  rw [expireEntry_eq] at hledger ⊢
  rcases expired_cases hs id code message with heq | ⟨entry, queue, virtualLanes, howes, heq⟩
  · rw [heq]
    exact h
  · have hready := hserves _ heq
    rw [heq] at hledger ⊢
    exact hready.dispatch (howes.fail code message).sound hledger

theorem Rested.abort (hl : Ledger s) {signal : ℕ}
    (hserves : s.Serves (.abort signal)) : Rested (s.abort signal) := by
  unfold AdmissionController.abort
  split
  · exact h
  unfold Serves at hserves
  dsimp only at hserves ⊢
  have hstart : Rested { s with aborted := signal :: s.aborted } :=
    h.shrinks (Shrinks.frame rfl le_rfl id)
  have hsound : QueuesSound { s with aborted := signal :: s.aborted } := hs
  have hledger : Ledger { s with aborted := signal :: s.aborted } :=
    hl.frame rfl rfl le_rfl
  generalize (s.listeners.filter fun x => x.2 = signal).map Prod.fst = entries at hserves ⊢
  generalize ({ s with aborted := signal :: s.aborted } : AdmissionController F) = u
    at hstart hsound hledger hserves ⊢
  induction entries generalizing u with
  | nil => exact hstart
  | cons entry entries ih =>
    rw [abortPoints, forall_mem_append] at hserves
    obtain ⟨hfirst, hrest⟩ := hserves
    apply ih (u.onAbort signal entry) ?_ ((refl hsound).onAbort signal entry).sound
      (hledger.onAbort hsound signal entry) hrest
    unfold onAbort
    split
    · next hmem =>
      rw [if_pos hmem] at hfirst
      refine Rested.expireEntry ?_ ?_ ?_ ?_
      · exact hstart.shrinks (Shrinks.frame rfl le_rfl id)
      · exact hsound
      · exact hledger.frame rfl rfl le_rfl
      · intro d hd
        apply hfirst d
        rw [hd]
        exact mem_singleton_self d
    · exact hstart

omit hs in
theorem Rested.armWindowTimer : Rested s.armWindowTimer := by
  unfold AdmissionController.armWindowTimer
  split
  · exact h.shrinks (Shrinks.frame rfl le_rfl id)
  · exact h.shrinks (Shrinks.frame rfl le_rfl id)

omit h in
theorem Rested.tick (hl : Ledger s) (hserves : Ready s.windowClosed) : Rested s.tick := by
  rw [tick_eq]
  exact (hserves.dispatch hs.windowClosed (hl.windowClosed.dispatch hs.windowClosed)).dispatchVirtual

/-- A cut leaves less room, so the dispatch after it has nothing to serve. -/
theorem Rested.observePressure [LawfulJsNumber F]
    (hl : Ledger s) (pressure : AdmissionPressure) : Rested (s.observePressure pressure) := by
  have hlimit := setPressure_currentLimit s.adaptation pressure
  rw [observePressure_eq]
  split
  · apply Rested.dispatchVirtual
    obtain ⟨hledger, hle⟩ := hl.limitCut pressure
    have hrested : Rested (s.limitCut pressure) :=
      h.shrinks (Shrinks.frame rfl (sub_le_sub_right hle _) id)
    exact hrested.ready.dispatch hs (hledger.dispatch hs)
  · apply h.shrinks
    refine Shrinks.frame rfl ?_ id
    unfold available
    rw [hlimit]

end

omit h in
theorem getOrCreateLane_lanes (hp : p ∈ (s.getOrCreateLane key).1.virtualLanes.entries) :
    p.2.queue.count = 0 ∨ ∃ p' ∈ s.virtualLanes.entries, p.2.queue = p'.2.queue := by
  unfold getOrCreateLane at hp
  cases hget : s.virtualLanes.get key with
  | some lane =>
    rw [hget] at hp
    rcases mem_set hp with rfl | hp
    · exact inr ⟨(key, lane), get_eq_some.1 hget, rfl⟩
    · exact inr ⟨p, hp, rfl⟩
  | none =>
    rw [hget] at hp
    rcases mem_set hp with rfl | hp
    · exact inl rfl
    · refine inr ⟨p, ?_, rfl⟩
      split at hp
      · split at hp
        · exact deleteLane_lanes hp
        · exact hp
      · exact hp

theorem Rested.reject (code : AdmissionRejectCode) (message : String) :
    Rested (s.reject code message).1 :=
  h.shrinks (Shrinks.frame rfl le_rfl id)

theorem Rested.admitEntry {cost : ℤ} (hpos : 0 < cost)
    (disposition : VirtualDisposition) : Rested (s.admitEntry cost disposition).1 := by
  obtain ⟨integral, time, heq⟩ := s.admitEntry_eq cost disposition
  rw [heq]
  apply h.shrinks
  refine Shrinks.frame rfl ?_ ?_
  · show s.adaptation.currentLimit - (s.activeCost + cost) ≤ s.available
    unfold available
    omega
  · exact fun hsize => absurd hsize size_set_ne

/-- A lane that refuses the entry. -/
theorem Rested.refuseLane (hs : s.QueuesSound)
    (henq : s.enqueueLane entry = (t, false)) : Rested t := by
  have hkeeps := (enqueueLane_spec (refl hs) entry).1
  rw [henq] at hkeeps
  apply h.shrinks
  apply Shrinks.evictsOnly (enqueueLane_evictsOnly henq) (hkeeps rfl)
  have hlanes : ∀ p ∈ t.virtualLanes.entries,
      p ∈ (s.getOrCreateLane entry.tenantKey).1.virtualLanes.entries := by
    intro p hp
    unfold enqueueLane at henq
    rcases hcreate : s.getOrCreateLane entry.tenantKey with ⟨u, lane⟩
    rw [hcreate] at henq
    dsimp only at henq
    cases hlane : lane.queue.enqueue entry with
    | some q =>
      rw [hlane] at henq
      cases henq
    | none =>
      rw [hlane] at henq
      obtain ⟨rfl, -⟩ := henq
      rcases u.removeEmptyLane_cases entry.tenantKey with heq | ⟨_, _, _, heq⟩
      · rwa [heq] at hp
      · rw [heq] at hp
        exact mem_of_mem_delete hp
  intro p hp
  exact getOrCreateLane_lanes (hlanes p hp)

omit h in
theorem Rested.afterEnqueue (h : Ready { s with issued := s.issued ++ [entry.id] })
    (hs : s.QueuesSound) (hl : Ledger s) :
    Rested (s.afterEnqueue entry) := by
  have hsound : QueuesSound { s with issued := s.issued ++ [entry.id] } := hs
  have hstart : Ledger { s with issued := s.issued ++ [entry.id] } :=
    hl.frame rfl rfl le_rfl
  have hledger := hstart.dispatch hsound
  have hfirst := h.dispatch hsound hledger
  have hsound' := (refl hsound).dispatch.sound
  unfold AdmissionController.afterEnqueue
  dsimp only
  generalize dispatch { s with issued := s.issued ++ [entry.id] } = u
    at hledger hfirst hsound' ⊢
  have hrest : ∀ timers listeners, Rested (dispatch
      { u with timers, listeners }) := by
    intro timers listeners
    have hframe : Ledger { u with timers, listeners } :=
      hledger.frame rfl rfl le_rfl
    have hrested : Rested { u with timers, listeners } :=
      hfirst.shrinks (Shrinks.frame rfl le_rfl id)
    exact hrested.ready.dispatch hsound' (hframe.dispatch hsound')
  cases entry.payload.signal with
  | none => exact hrest _ u.listeners
  | some signal => exact hrest _ _

/-- An arrival in the shared queue finds nothing else to serve. -/
theorem Rested.arrive (henq : s.queue.enqueue entry = some q)
    (hcost : entry.cost ≤ s.adaptation.currentLimit) (seq : ℕ) (issued : List ℕ) :
    Ready { s with queue := q, leaseSeq := seq, issued } := by
  intro hmode hopen
  have hrest := h hmode hopen
  refine ⟨?_, fun p hp hserves => absurd (hrest.lanes p hp) hserves,
    fun p hp hserves => absurd (hrest.lanes p hp) hserves⟩
  intro hsize e he
  have hwaiting := hrest.idle hsize
  unfold waiting at hwaiting he
  have hshared := Multiset.le_zero.1 (hwaiting ▸ Multiset.le_add_right _ _)
  have hlanes := Multiset.le_zero.1 (hwaiting ▸ Multiset.le_add_left _ _)
  dsimp only at he
  rw [items_enqueue henq, hshared, hlanes, Multiset.add_zero, Multiset.mem_cons] at he
  rcases he with rfl | he
  · exact hcost
  · exact absurd he (Multiset.notMem_zero e)

end

variable {request : AdmissionRequest F}

theorem Rested.enqueue (h : Rested s) (hs : s.QueuesSound) (hl : Ledger s) {cost : ℤ}
    (hcost : cost ≤ s.adaptation.currentLimit)
    (hlane : ∀ d, s.joinLane request cost = some d → Ready d) :
    Rested (s.enqueue request cost).1 := by
  have hminted : Ledger { s with leaseSeq := s.leaseSeq + 1 } :=
    hl.frame rfl rfl (Nat.le_succ _)
  have hrested : Rested { s with leaseSeq := s.leaseSeq + 1 } :=
    h.shrinks (Shrinks.frame rfl le_rfl id)
  have hsound : QueuesSound { s with leaseSeq := s.leaseSeq + 1 } := hs
  unfold joinLane at hlane
  unfold AdmissionController.enqueue
  dsimp only at hlane ⊢
  cases hwait : resolveMaxWait { s with leaseSeq := s.leaseSeq + 1 }
      request with
  | error message => exact hrested
  | ok maxWait =>
    rw [hwait] at hlane
    dsimp only at hlane ⊢
    split
    · next hin =>
      rw [if_pos hin] at hlane
      split
      · next t henq => exact (hrested.refuseLane hsound henq).reject _ _
      · next t henq =>
        rw [henq] at hlane
        have hspec := (enqueueLane_spec (refl hsound) _).2 (congrArg Prod.snd henq)
        rw [henq] at hspec
        obtain ⟨-, -, -, hsound', -⟩ := hspec
        exact Rested.afterEnqueue (hlane _ rfl) hsound'
          (hminted.evictsOnly (enqueueLane_evictsOnly henq))
    · split
      · exact hrested.reject _ _
      · next q henq =>
        refine Rested.afterEnqueue ?_ ?_ ?_
        · exact h.arrive henq hcost _ _
        · exact ⟨hs.1.enqueue henq, hs.2⟩
        · exact hminted.frame rfl rfl le_rfl

theorem admitEntry_config (s : AdmissionController F) (cost : ℤ)
    (disposition : VirtualDisposition) :
    (s.admitEntry cost disposition).1.config = s.config := by
  obtain ⟨integral, time, heq⟩ := s.admitEntry_eq cost disposition
  rw [heq]

theorem acquireShadow_config (s : AdmissionController F) (request : AdmissionRequest F)
    (cost limit : ℤ) : (s.acquireShadow request cost limit).1.config = s.config := by
  unfold acquireShadow
  cases s.shadowDecision cost limit with
  | wouldReject => exact admitEntry_config _ cost .rejected
  | wouldAdmit => exact admitEntry_config _ cost .active
  | wouldQueue =>
    dsimp only
    split
    · exact admitEntry_config _ cost .queued
    · exact admitEntry_config _ cost .queued

theorem Rested.acquire (h : Rested s) (hs : s.QueuesSound) (hl : Ledger s)
    (hserves : s.Serves (.acquire request)) : Rested (s.acquire request).1 := by
  have hlane : ∀ d, s.laneArrival request = some d → Ready d := hserves
  unfold laneArrival at hlane
  rw [acquire_eq]
  split
  · exact h.reject _ _
  next hopen =>
  split
  · exact h.reject _ _
  next haborted =>
  have hstop : ¬ (s.shutDown = true ∨ (request.signal.any fun x => decide (x ∈ s.aborted)) = true) :=
    not_or.2 ⟨hopen, haborted⟩
  rw [if_neg hstop] at hlane
  dsimp only at hlane
  obtain ⟨adaptation, hlimit, heq⟩ := s.notePressure_eq request
  have hnoted : Ledger { s with adaptation } := hl.frame hlimit rfl le_rfl
  have hrested : Rested { s with adaptation } := by
    apply h.shrinks
    refine Shrinks.frame rfl ?_ id
    unfold available
    rw [hlimit]
  have hsound : QueuesSound { s with adaptation } := hs
  rw [heq] at hlane ⊢
  generalize ({ s with adaptation } : AdmissionController F) = t at hlane hnoted hrested hsound ⊢
  unfold acquireMode
  cases hcost : t.resolveCost request with
  | error message => exact hrested
  | ok cost =>
    rw [hcost] at hlane
    have hpos := (resolveCost_mem hcost).1
    cases hmode : t.config.mode with
    | off =>
      intro henforce
      have hoff : t.config.mode = .enforce := henforce
      rw [hmode] at hoff
      cases hoff
    | shadow =>
      intro henforce
      have hshadow : (t.acquireShadow request cost t.adaptation.currentLimit).1.config.mode =
        .enforce := henforce
      rw [acquireShadow_config, hmode] at hshadow
      cases hshadow
    | enforce =>
      show Rested (t.acquireEnforce request cost t.adaptation.currentLimit).1
      unfold acquireEnforce
      split
      · split
        · exact hrested.admitEntry hpos .none
        · exact hrested.reject _ _
      next hcost' =>
      split
      · exact hrested.admitEntry hpos .none
      next hroom =>
      split
      · next haccept =>
        apply hrested.enqueue hsound hnoted (not_lt.1 hcost')
        intro d hd
        apply hlane d
        dsimp only
        rw [if_pos ⟨not_lt.1 hcost', hroom, haccept⟩]
        exact hd
      · exact hrested.reject _ _

theorem Rested.call (h : Rested s) (hs : s.QueuesSound) (hl : Ledger s)
    (hserves : s.Serves (.acquire request)) : Rested (s.call request) := by
  have hacquire := h.acquire hs hl hserves
  unfold AdmissionController.call
  rcases hcall : s.acquire request with ⟨t, result⟩
  rw [hcall] at hacquire
  cases result with
  | error message => exact hacquire
  | ok result => exact hacquire.shrinks (Shrinks.frame rfl le_rfl id)

/-- No lane is left, and nothing waits above the limit. -/
structure Fitted (s : AdmissionController F) : Prop where
  mode : s.config.mode = .enforce
  lanes : s.virtualLanes = .empty
  fits : ∀ e ∈ s.queue.items, e.cost ≤ s.adaptation.currentLimit

theorem Fitted.requeue (h : Fitted s) (entry : QueueEntry QueuedPayload) :
    Fitted (s.requeue entry) := by
  unfold AdmissionController.requeue
  rw [if_neg (not_not.2 h.mode)]
  split
  · rw [failQueued_eq]
    exact ⟨h.mode, h.lanes, h.fits⟩
  next hover =>
  cases henq : s.queue.enqueue entry with
  | none =>
    dsimp only
    rw [failQueued_eq]
    exact ⟨h.mode, h.lanes, h.fits⟩
  | some q =>
    refine ⟨h.mode, h.lanes, ?_⟩
    intro e he
    have hitems : e ∈ entry.bare ::ₘ s.queue.items := items_enqueue henq ▸ he
    rcases Multiset.mem_cons.1 hitems with rfl | hmem
    · exact not_lt.1 hover
    · exact h.fits e hmem

/-- A new configuration leaves no lane, and nothing above the new limit. -/
theorem fitted_reseat (s : AdmissionController F) {next : ValidatedConfig F}
    (hmode : next.mode = .enforce) : Fitted (s.reseat next) := by
  have hall : ∀ (es : List (QueueEntry QueuedPayload)) (t : AdmissionController F),
      Fitted t → Fitted (es.foldl requeue t) := by
    intro es
    induction es with
    | nil => exact fun _ ht => ht
    | cons entry es ih => exact fun t ht => ih (t.requeue entry) (ht.requeue entry)
  apply hall s.drainAll
  refine ⟨hmode, rfl, ?_⟩
  exact fun e he => absurd he (Multiset.notMem_zero e)

theorem Fitted.ready (h : Fitted s) : Ready s.rearm := by
  have hframe : s.rearm.queue = s.queue ∧ s.rearm.virtualLanes = s.virtualLanes ∧
      s.rearm.adaptation = s.adaptation := by
    unfold rearm armWindowTimer
    split
    · rw [rebuildVirtualState_virtualOnly s]
      exact ⟨rfl, rfl, rfl⟩
    · rw [rebuildVirtualState_virtualOnly s]
      exact ⟨rfl, rfl, rfl⟩
  obtain ⟨hqueue, hlanes, hadaptation⟩ := hframe
  intro _ _
  refine ⟨?_, ?_, ?_⟩
  · intro _ e he
    unfold waiting at he
    rw [hqueue, hlanes, h.lanes, tally_empty, Multiset.add_zero] at he
    rw [hadaptation]
    exact h.fits e he
  all_goals
    intro p hp
    rw [hlanes, h.lanes] at hp
    cases hp

theorem Rested.reconfigure (hs : s.QueuesSound) (hl : Ledger s) (next : ValidatedConfig F) :
    Rested (s.reconfigure next) := by
  have hledger := hl.reconfigure hs next
  have hsound := ((refl hs).sampleIntegral.reseat next).rearm.sound
  rw [reconfigure_eq] at hledger ⊢
  by_cases hmode : next.mode = .enforce
  · rw [if_pos hmode] at hledger ⊢
    exact (s.sampleIntegral.fitted_reseat hmode).ready.dispatch hsound hledger
  · rw [if_neg hmode]
    intro henforce
    rw [rearm_config, reseat_config] at henforce
    exact absurd henforce hmode

theorem shutDown_shutdown (s : AdmissionController F) : s.shutdown.shutDown = true := by
  unfold shutdown
  split
  · assumption
  · dsimp only [clearLaneEviction]
    rw [failAll_evictsOnly, failAll_evictsOnly]

theorem Rested.shutdown (s : AdmissionController F) : Rested s.shutdown := by
  intro _ hopen
  rw [shutDown_shutdown] at hopen
  cases hopen

theorem Rested.new (config : ValidatedConfig F) (now : ℤ) :
    Rested (AdmissionController.new config now) := by
  unfold AdmissionController.new
  apply Rested.armWindowTimer
  intro _ _
  exact ⟨dequeue_none_of_unfit nofun, nofun, fun _ => rfl⟩

theorem Rested.step [LawfulJsNumber F] {e : AdmissionEvent F} (h : Rested s) (hs : s.QueuesSound)
    (hl : Ledger s) (hserves : s.Serves e) (hstep : s.step e = some t) : Rested t := by
  cases e with
  | clock now =>
    cases hstep
    exact h.shrinks (Shrinks.frame rfl le_rfl id)
  | acquire request =>
    cases hstep
    exact h.call hs hl hserves
  | release lease outcome info =>
    cases hstep
    exact h.releaseLease hs hl hserves
  | observePressure pressure =>
    cases hstep
    exact h.observePressure hs hl pressure
  | tick =>
    cases hstep
    exact Rested.tick hs hl hserves
  | snapshot =>
    cases hstep
    exact h.sampleIntegral
  | updateConfig config =>
    cases hstep
    unfold updateConfig
    cases validateConfig config with
    | error message => exact h
    | ok next => exact Rested.reconfigure hs hl next
  | shutdown =>
    cases hstep
    exact Rested.shutdown s
  | abort signal =>
    cases hstep
    exact h.abort hs hl hserves
  | deadline entry =>
    obtain ⟨-, -, -, rfl⟩ := step_deadline hstep
    refine Rested.expireEntry ?_ ?_ ?_ hserves
    · exact h.shrinks (Shrinks.frame rfl le_rfl id)
    · exact hs
    · exact hl.frame rfl rfl le_rfl
  | windowTimer =>
    obtain rfl := step_windowTimer hstep
    exact (Rested.tick hs hl hserves).armWindowTimer
  | laneTimer =>
    obtain rfl := step_laneTimer hstep
    exact h.evictIdleLanes hs

/-! ## No request is stranded -/

/-- The shared queue and the queues of the lanes. -/
def queues (s : AdmissionController F) : List (FairCostQueue QueuedPayload) :=
  s.queue :: s.virtualLanes.values.map AdmissionLane.queue

/-- While it enforces, the controller leaves nothing queued with nothing active, and no head that
fits, unless the oldest of the heads that have reserved the capacity does not fit. -/
def NotStranded (s : AdmissionController F) : Prop :=
  s.config.mode = .enforce → s.shutDown = false →
    (s.active.size = 0 → ∀ q ∈ s.queues, q.count = 0) ∧
    ∀ q ∈ s.queues, ∀ b ∈ q.view, b.head.cost ≤ s.available →
      ∃ r ∈ q.view, q.Oldest r ∧ s.available < r.head.cost

theorem exists_held (hq : q.Sound) {maxCost : ℤ} (h : q.dequeue maxCost = none)
    {b : Bucket QueuedPayload} (hb : b ∈ q.view) (hfits : b.head.cost ≤ maxCost) :
    ∃ r ∈ q.view, q.Oldest r ∧ maxCost < r.head.cost := by
  have hcase := q.dequeue_cases maxCost
  rw [h] at hcase
  cases hcase with
  | empty hcount =>
    have hzero : q.items = 0 := Multiset.card_eq_zero.1 (hq.count ▸ hcount)
    have hmem := mem_items_of_head hb
    rw [hzero] at hmem
    exact absurd hmem (Multiset.notMem_zero _)
  | held r hr old hlt => exact ⟨r, hr, old, hlt⟩
  | unfit _ hall => exact absurd hfits (not_le.2 (hall b hb))

theorem Rested.notStranded (h : Rested s) (hs : s.QueuesSound) : s.NotStranded := by
  intro hmode hopen
  have hrest := h hmode hopen
  have hqueues : ∀ q ∈ s.queues, q.Sound ∧ q.dequeue s.available = none ∧ q.items ≤ s.waiting := by
    intro q hq
    unfold waiting
    rcases mem_cons.1 hq with rfl | hq
    · exact ⟨hs.1, hrest.shared, Multiset.le_add_right _ _⟩
    · obtain ⟨lane, hlane, rfl⟩ := mem_map.1 hq
      obtain ⟨p, hp, rfl⟩ := mem_map.1 hlane
      refine ⟨hs.2 p hp, hrest.lanes p hp, ?_⟩
      rw [tally_get (f := laneItems) (get_eq_some.2 hp)]
      exact (Multiset.le_add_right _ _).trans (Multiset.le_add_left _ _)
  constructor
  · intro hsize q hq
    obtain ⟨hsound, -, hitems⟩ := hqueues q hq
    rw [hrest.idle hsize] at hitems
    rw [hsound.count, Multiset.le_zero.1 hitems]
    rfl
  · intro q hq b hb hfits
    obtain ⟨hsound, hnone, -⟩ := hqueues q hq
    exact exists_held hsound hnone hb hfits

/-- In a run whose dispatches find states that one pass can serve, no request is stranded. -/
theorem not_stranded [LawfulJsNumber F] (config : ValidatedConfig F) (now : ℤ)
    (es : List (AdmissionEvent F)) (s : AdmissionController F)
    (hserves : Trace.Meets step Serves (new config now) es)
    (hrun : Trace.exec step (new config now) es = some s) :
    s.NotStranded := by
  have hinv := Trace.exec_invariant_of_meets (I := fun s => Books 0 s ∧ Ledger s ∧ Rested s)
    (fun s e t ⟨hs, hl, hr⟩ hok hstep =>
      ⟨hs.step hstep, hl.step hs.sound hstep, hr.step hs.sound hl hok hstep⟩)
    ⟨Books.new config now, Ledger.new config now, Rested.new config now⟩ hserves hrun
  exact hinv.2.2.notStranded hinv.1.sound

/-- Where the shared queue fits and no lane holds two requests, one pass serves all there is. -/
theorem Ready.of_single (hfits : ∀ e ∈ s.waiting, e.cost ≤ s.adaptation.currentLimit)
    (hshared : s.queue.cost ≤ s.available)
    (hlanes : ∀ p ∈ s.virtualLanes.entries, p.2.queue.items.card ≤ 1) : Ready s := by
  intro _ _
  refine ⟨fun _ => hfits, fun _ _ _ => hshared, ?_⟩
  intro p hp _ e e' hpair
  have hcard := Multiset.card_le_card hpair
  rw [Multiset.insert_eq_cons, Multiset.card_cons, Multiset.card_singleton] at hcard
  have hone := hlanes p hp
  omega

/-- A request waits in a lane, and the release of the lease before it serves it. -/
theorem not_stranded_lane :
    ∃ s : AdmissionController ℚ, Trace.exec step
        (new (smallConfig .enforce true) 0)
        [.acquire { cost := some 10 }, .acquire { cost := some 5, tenantKey := some "a" },
          .release 1 .success {}] = some s ∧ s.activeCost = 5 ∧ s.NotStranded := by
  obtain ⟨s, hrun, hcost⟩ : ∃ s : AdmissionController ℚ, Trace.exec step
      (new (smallConfig .enforce true) 0)
      [.acquire { cost := some 10 }, .acquire { cost := some 5, tenantKey := some "a" },
        .release 1 .success {}] = some s ∧ s.activeCost = 5 := by
    refine ⟨_, rfl, ?_⟩
    decide +kernel
  have hserves : Trace.Meets step Serves (new (smallConfig .enforce true) 0)
      [.acquire { cost := some 10 }, .acquire { cost := some 5, tenantKey := some "a" },
        .release 1 .success {}] := by
    intro s₁ hs₁
    refine ⟨?_, ?_⟩
    · have hnone : ((new (smallConfig .enforce true) 0).laneArrival
          { cost := some 10 }).isNone = true := by decide +kernel
      intro d hd
      rw [hd] at hnone
      cases hnone
    intro s₂ hs₂
    refine ⟨?_, ?_⟩
    · cases hs₁
      have hpoint : ∀ d ∈ ((new (smallConfig .enforce true) 0).call
          { cost := some 10 }).laneArrival { cost := some 5, tenantKey := some "a" },
          (∀ e ∈ d.waiting, e.cost ≤ d.adaptation.currentLimit) ∧ d.queue.cost ≤ d.available ∧
            ∀ p ∈ d.virtualLanes.entries, p.2.queue.items.card ≤ 1 := by decide +kernel
      intro d hd
      obtain ⟨hfits, hshared, hlanes⟩ := hpoint d hd
      exact Ready.of_single hfits hshared hlanes
    intro s₃ hs₃
    refine ⟨?_, trivial⟩
    cases hs₁
    cases hs₂
    have hget : (((new (smallConfig .enforce true) 0).call
        { cost := some 10 }).call { cost := some 5, tenantKey := some "a" }).active.get 1 =
        some ⟨10, 0, .none⟩ := by decide +kernel
    intro record hrecord
    obtain rfl := some.inj (hget.symm.trans hrecord)
    apply Ready.of_single
    · decide +kernel
    · decide +kernel
    · decide +kernel
  exact ⟨s, hrun, hcost, not_stranded _ 0 _ s hserves hrun⟩

/-- Of two requests in a lane that both fit, the release of a lease serves one. -/
theorem secondOfLane_stranded : ¬ ∀ s : AdmissionController ℚ, s.Reachable → s.NotStranded := by
  intro hall
  obtain ⟨s, hrun, hmode, hopen, q, hq, b, hb, hfits, hfree⟩ : ∃ s : AdmissionController ℚ,
      Trace.exec step (new (smallConfig .enforce true) 0)
        [.acquire { cost := some 10 }, .acquire { cost := some 2, tenantKey := some "a" },
          .acquire { cost := some 2, tenantKey := some "a" }, .release 1 .success {}] = some s ∧
      s.config.mode = .enforce ∧ s.shutDown = false ∧ ∃ q ∈ s.queues, ∃ b ∈ q.view,
        b.head.cost ≤ s.available ∧ ∀ r ∈ q.view, r.head.skipCount < maxUnfittableSkips := by
    refine ⟨_, rfl, ?_⟩
    decide +kernel
  obtain ⟨r, hr, old, -⟩ := ((hall s ⟨_, _, _, hrun⟩) hmode hopen).2 q hq b hb hfits
  exact absurd old.1 (not_le.2 (hfree r hr))

end AdmissionController
end OmniRoute
