import OmniRoute.Lib.OrdMap
import OmniRoute.Lib.Trace

/-!
# In-flight leases of the quota-share strategy

`open-sse/services/combo/quotaShareInflight.ts` counts the requests in flight on a connection by
their leases, and `selectQuotaShareTarget` of `quotaShareStrategy.ts` hands out a callback that
gives one lease back. The callback does not say which lease, and it passes the clock of the
selection.

**Main result (`neverUnderReports_iff`).** The count of a run is never below the number of
unreleased requests with a live lease exactly when every release is that of the request whose
lease is the last to expire, among the unreleased ones of its connection with a live lease.

A lease is taken by the expiry `nowMs + leaseMs`. Which target wins a selection does not matter
here, so a selection is given by the connection of its winner; the reads of `getInflight` that
lead to it are events of their own, since a read retires expired leases.
-/

namespace OmniRoute

open List

/-- `DEFAULT_LEASE_MS` -/
def defaultLeaseMs : ℤ := 120000

/-- `MAX_LEASES_PER_CONNECTION` -/
def maxLeasesPerConnection : ℕ := 4096

/-- `_inflightMap`: the expiry times of the leases of a connection, in the order of the requests. -/
abbrev InflightMap := OrdMap String (List ℤ)

namespace InflightMap

/-- Index of the last element that satisfies `p`. -/
def lastIndexWhere (values : List ℤ) (p : ℤ → Bool) : Option ℕ :=
  (List.range values.length).reverse.find? fun i => values[i]?.any p

def retireExpired (leases : List ℤ) (nowMs : ℤ) : List ℤ := leases.filter (nowMs < ·)

def pruneExpired (m : InflightMap) (nowMs : ℤ) : InflightMap where
  entries := (m.entries.map fun p => (p.1, retireExpired p.2 nowMs)).filter fun p =>
    p.2.length ≠ 0
  nodup := by
    refine List.Nodup.sublist (filter_sublist.map _) ?_
    rw [map_map]
    exact m.nodup

def incrementInflight (m : InflightMap) (connectionId : String) (leaseMs nowMs : ℤ) :
    InflightMap × ℕ :=
  if connectionId = "" then (m, 0)
  else
    let m := m.pruneExpired nowMs
    let leases := (m.get connectionId).getD [] ++ [nowMs + leaseMs]
    let leases := if maxLeasesPerConnection < leases.length then leases.tail else leases
    (m.set connectionId leases, leases.length)

def decrementInflight (m : InflightMap) (connectionId : String) (nowMs : ℤ) : InflightMap :=
  if connectionId = "" then m
  else
    match m.get connectionId with
    | none => m
    | some leases =>
      let leases :=
        match lastIndexWhere leases (· ≤ nowMs) with
        | some expiredIndex => leases.eraseIdx expiredIndex
        | none => leases.dropLast
      let leases := retireExpired leases nowMs
      if leases.length = 0 then m.delete connectionId else m.set connectionId leases

/-- The count, and the map without the leases of the connection that have expired. -/
def getInflight (m : InflightMap) (connectionId : String) (nowMs : ℤ) : InflightMap × ℕ :=
  if connectionId = "" then (m, 0)
  else
    match m.get connectionId with
    | none => (m, 0)
    | some leases =>
      let leases := retireExpired leases nowMs
      (m.set connectionId leases, leases.length)

end InflightMap

open InflightMap

/-- A result of `selectQuotaShareTarget`: what its `decrementInflight` callback holds. -/
structure QuotaShareSelection where
  winnerConnectionId : String
  nowMs : ℤ
  released : Bool
  deriving DecidableEq

/-- The leases, and the selections so far in order. -/
structure QuotaShareRun where
  now : ℤ
  inflight : InflightMap
  selections : List QuotaShareSelection

inductive QuotaShareEvent
  /-- The clock advances. -/
  | clock (now : ℤ)
  /-- `selectQuotaShareTarget`, won by a target of this connection. -/
  | select (winnerConnectionId : String)
  /-- The callback of a selection is called. -/
  | release (selection : ℕ)
  /-- `getInflight` -/
  | read (connectionId : String)

namespace QuotaShareRun

/-- The callback returned by a selection. -/
def release (s : QuotaShareRun) (selection : ℕ) : QuotaShareRun :=
  match s.selections[selection]? with
  | none => s
  | some r =>
    if r.released then s
    else
      { s with
        selections := s.selections.modify selection fun r => { r with released := true }
        inflight := s.inflight.decrementInflight r.winnerConnectionId r.nowMs }

def step (leaseMs : ℤ) (s : QuotaShareRun) : QuotaShareEvent → Option QuotaShareRun
  | .clock now => if s.now ≤ now then some { s with now } else none
  | .select connectionId =>
    some { s with
      inflight := (s.inflight.incrementInflight connectionId leaseMs s.now).1
      selections := s.selections ++ [⟨connectionId, s.now, false⟩] }
  | .release selection => some (s.release selection)
  | .read connectionId => some { s with inflight := (s.inflight.getInflight connectionId s.now).1 }

def start (now : ℤ) : QuotaShareRun := ⟨now, .empty, []⟩

/-- The requests on a connection that are selected, not released, and whose own lease has not
expired at `nowMs`. -/
def outstanding (leaseMs : ℤ) (s : QuotaShareRun) (connectionId : String) (nowMs : ℤ) : ℕ :=
  s.selections.countP fun r =>
    r.winnerConnectionId = connectionId ∧ r.released = false ∧ nowMs < r.nowMs + leaseMs

/-- What `getInflight` returns, now or later, is not too little. -/
def NeverUnderReports (leaseMs : ℤ) (s : QuotaShareRun) : Prop :=
  ∀ connectionId ≠ "", ∀ nowMs ≥ s.now,
    s.outstanding leaseMs connectionId nowMs ≤ (s.inflight.getInflight connectionId nowMs).2

/-- Fewer leases than the bound at which the oldest is dropped. -/
def BelowCap (s : QuotaShareRun) : Prop :=
  ∀ connectionId leases, s.inflight.get connectionId = some leases →
    leases.length < maxLeasesPerConnection

/-- A release finds no unreleased request of its connection whose lease is live and expires later
than its own. -/
def LastReleased (leaseMs : ℤ) (s : QuotaShareRun) : QuotaShareEvent → Prop
  | .release selection =>
    ∀ r, s.selections[selection]? = some r → r.winnerConnectionId ≠ "" → r.released = false →
      ∀ r' ∈ s.selections, r'.winnerConnectionId = r.winnerConnectionId → r'.released = false →
        s.now < r'.nowMs + leaseMs → r'.nowMs ≤ r.nowMs
  | _ => True

end QuotaShareRun

namespace InflightMap

/-! ## The leases of a connection -/

def leases (m : InflightMap) (connectionId : String) : List ℤ := (m.get connectionId).getD []

/-- The leases that are live at `nowMs`. -/
def live (m : InflightMap) (connectionId : String) (nowMs : ℤ) : ℕ :=
  (m.leases connectionId).countP (nowMs < ·)

variable (m : InflightMap)

theorem getInflight_eq {connectionId : String} (h : connectionId ≠ "")
    (nowMs : ℤ) : (m.getInflight connectionId nowMs).2 = m.live connectionId nowMs := by
  unfold getInflight live leases retireExpired
  rw [if_neg h]
  cases m.get connectionId with
  | none => rfl
  | some leases => exact countP_eq_length_filter.symm

theorem leases_set (c c' : String) (ls : List ℤ) :
    leases (m.set c ls) c' = if c' = c then ls else m.leases c' := by
  unfold leases
  rw [OrdMap.get_set]
  split
  · rfl
  · rfl

theorem leases_delete (c c' : String) :
    leases (m.delete c) c' = if c' = c then [] else m.leases c' := by
  unfold leases
  rw [OrdMap.get_delete]
  split
  · rfl
  · rfl

theorem leases_pruneExpired (nowMs : ℤ) (c : String) :
    (m.pruneExpired nowMs).leases c = retireExpired (m.leases c) nowMs := by
  have hmem : ∀ ls, (m.pruneExpired nowMs).get c = some ls ↔
      ∃ ls', m.get c = some ls' ∧ retireExpired ls' nowMs = ls ∧ ls.length ≠ 0 := by
    intro ls
    rw [OrdMap.get_eq_some]
    simp only [pruneExpired, mem_filter, mem_map, decide_eq_true_eq, OrdMap.get_eq_some]
    constructor
    · rintro ⟨⟨p, hp, heq⟩, hlen⟩
      obtain ⟨rfl, rfl⟩ := Prod.mk.inj heq
      exact ⟨p.2, hp, rfl, hlen⟩
    · rintro ⟨ls', hls, rfl, hlen⟩
      exact ⟨⟨_, hls, rfl⟩, hlen⟩
  unfold leases
  cases hpruned : (m.pruneExpired nowMs).get c with
  | some ls =>
    obtain ⟨ls', hls, rfl, -⟩ := (hmem ls).1 hpruned
    rw [hls]
    rfl
  | none =>
    cases hget : m.get c with
    | none => rfl
    | some ls =>
      by_contra hne
      have hlen : (retireExpired ls nowMs).length ≠ 0 := by
        intro hzero
        apply hne
        show [] = retireExpired ls nowMs
        rw [eq_nil_of_length_eq_zero hzero]
      rw [(hmem _).2 ⟨ls, hget, rfl, hlen⟩] at hpruned
      cases hpruned

theorem countP_retireExpired (ls : List ℤ) {nowMs t : ℤ} (h : nowMs ≤ t) :
    (retireExpired ls nowMs).countP (t < ·) = ls.countP (t < ·) := by
  unfold retireExpired
  rw [countP_filter]
  apply countP_congr
  intro l _
  simp only [Bool.and_eq_true, decide_eq_true_eq]
  omega

theorem leases_incrementInflight {c : String} (hc : c ≠ "") (leaseMs nowMs : ℤ)
    (hcap : ∀ ls, (m.incrementInflight c leaseMs nowMs).1.get c = some ls →
      ls.length < maxLeasesPerConnection) (c' : String) :
    (m.incrementInflight c leaseMs nowMs).1.leases c' =
      retireExpired (m.leases c') nowMs ++ if c' = c then [nowMs + leaseMs] else [] := by
  unfold incrementInflight at hcap ⊢
  rw [if_neg hc] at hcap ⊢
  dsimp only at hcap ⊢
  have hcap' := hcap _ (OrdMap.get_set_self _ _ _)
  have hlen : ¬ maxLeasesPerConnection <
      (((m.pruneExpired nowMs).get c).getD [] ++ [nowMs + leaseMs]).length := by
    intro hover
    rw [if_pos hover, length_tail] at hcap'
    omega
  rw [if_neg hlen, leases_set]
  show (if c' = c then (m.pruneExpired nowMs).leases c ++ [nowMs + leaseMs] else _) = _
  by_cases heq : c' = c
  · rw [if_pos heq, if_pos heq, leases_pruneExpired, heq]
  · rw [if_neg heq, if_neg heq, leases_pruneExpired, append_nil]

theorem leases_getInflight (c : String) (nowMs : ℤ) (c' : String) :
    (m.getInflight c nowMs).1.leases c' =
        (if c' = c ∧ c ≠ "" then retireExpired (m.leases c') nowMs else m.leases c') := by
  unfold getInflight
  by_cases hc : c = ""
  · rw [if_pos hc, if_neg (fun h => h.2 hc)]
  rw [if_neg hc]
  cases hget : m.get c with
  | none =>
    dsimp only
    split
    · next h =>
      rw [h.1]
      unfold leases
      rw [hget]
      rfl
    · rfl
  | some ls =>
    dsimp only
    rw [leases_set]
    by_cases heq : c' = c
    · rw [if_pos heq, if_pos ⟨heq, hc⟩, heq]
      unfold leases
      rw [hget]
      rfl
    · rw [if_neg heq, if_neg (fun h => heq h.1)]

/-! ## Giving a lease back -/

theorem lastIndexWhere_none {ls : List ℤ} {p : ℤ → Bool} (h : ∀ l ∈ ls, p l = false) :
    lastIndexWhere ls p = none := by
  unfold lastIndexWhere
  rw [find?_eq_none]
  intro i _
  cases hget : ls[i]? with
  | none => exact Bool.false_ne_true
  | some l =>
    rw [Option.any_some, h l (mem_of_getElem? hget)]
    exact Bool.false_ne_true

/-- With no lease expired at the clock passed, the newest one is retired. -/
theorem leases_decrementInflight {c : String} (hc : c ≠ "") {nowMs : ℤ}
    (h : ∀ l ∈ m.leases c, nowMs < l) (c' : String) :
    (m.decrementInflight c nowMs).leases c' =
      if c' = c then (m.leases c).dropLast else m.leases c' := by
  unfold decrementInflight
  rw [if_neg hc]
  cases hget : m.get c with
  | none =>
    have hnil : m.leases c = [] := by
      unfold leases
      rw [hget]
      rfl
    dsimp only
    split
    · next heq => rw [heq, hnil, dropLast_nil]
    · rfl
  | some ls =>
    have hls : m.leases c = ls := by
      unfold leases
      rw [hget]
      rfl
    rw [hls] at h ⊢
    have hlast : lastIndexWhere ls (· ≤ nowMs) = none :=
      lastIndexWhere_none fun l hl => by simpa using h l hl
    have hretire : retireExpired ls.dropLast nowMs = ls.dropLast := by
      unfold retireExpired
      rw [filter_eq_self]
      intro l hl
      exact decide_eq_true (h l ((dropLast_sublist _).subset hl))
    dsimp only
    rw [hlast]
    dsimp only
    rw [hretire]
    split
    · next hzero =>
      rw [leases_delete, eq_nil_of_length_eq_zero hzero]
    · rw [leases_set]

/-- Whatever the clock passed, the leases left are some of those before. -/
theorem leases_decrementInflight_sublist (c : String) (nowMs : ℤ) (c' : String) :
    ((m.decrementInflight c nowMs).leases c').Sublist (m.leases c') := by
  unfold decrementInflight
  split
  · exact List.Sublist.refl _
  cases hget : m.get c with
  | none => exact List.Sublist.refl _
  | some ls =>
    have hls : m.leases c = ls := by
      unfold leases
      rw [hget]
      rfl
    dsimp only
    generalize hleft : (match lastIndexWhere ls fun x => decide (x ≤ nowMs) with
      | some expiredIndex => ls.eraseIdx expiredIndex
      | none => ls.dropLast) = left
    have hsub : left.Sublist ls := by
      rw [← hleft]
      split
      · exact eraseIdx_sublist _ _
      · exact dropLast_sublist _
    split
    · rw [leases_delete]
      split
      · exact nil_sublist _
      · exact List.Sublist.refl _
    · rw [leases_set]
      split
      · next heq =>
        rw [heq, hls]
        exact filter_sublist.trans hsub
      · exact List.Sublist.refl _

end InflightMap

namespace QuotaShareRun

variable {leaseMs : ℤ}

/-! ## Runs -/

/-- What holds of every run below the bound: the leases are in order and none is older than a
selection made with the connection known, and there are never too many. -/
structure Tracked (leaseMs : ℤ) (s : QuotaShareRun) : Prop where
  past : ∀ r ∈ s.selections, r.nowMs ≤ s.now
  sorted : ∀ c, (s.inflight.leases c).Pairwise (· ≤ ·)
  bounded : ∀ c, ∀ l ∈ s.inflight.leases c, l ≤ s.now + leaseMs
  unexpired : 0 < leaseMs → ∀ r ∈ s.selections, r.winnerConnectionId ≠ "" → ∀ c,
    ∀ l ∈ s.inflight.leases c, r.nowMs < l
  le : ∀ c ≠ "", ∀ t ≥ s.now, s.inflight.live c t ≤ s.outstanding leaseMs c t

theorem outstanding_append (s : QuotaShareRun) (r : QuotaShareSelection) (m : InflightMap)
    (c : String) (t : ℤ) :
    outstanding leaseMs { s with inflight := m, selections := s.selections ++ [r] } c t =
      s.outstanding leaseMs c t +
        if r.winnerConnectionId = c ∧ r.released = false ∧ t < r.nowMs + leaseMs then 1 else 0 := by
  unfold outstanding
  rw [countP_append, countP_singleton]
  simp only [decide_eq_true_eq]

theorem modify_split {α : Type*} {l : List α} {i : ℕ} {a : α} (h : l[i]? = some a) (f : α → α) :
    ∃ l₁ l₂, l = l₁ ++ a :: l₂ ∧ l.modify i f = l₁ ++ f a :: l₂ := by
  obtain ⟨hi, rfl⟩ := List.getElem?_eq_some_iff.1 h
  refine ⟨l.take i, l.drop (i + 1), by simp, ?_⟩
  rw [modify_eq_take_cons_drop hi]

variable {s : QuotaShareRun}

variable (leaseMs) in
/-- What a release does: one request less is outstanding, and its connection loses a lease. -/
theorem release_eq {id : ℕ} {r : QuotaShareSelection} (hget : s.selections[id]? = some r)
    (hunreleased : r.released = false) :
    (s.release id).now = s.now ∧
      (s.release id).inflight = s.inflight.decrementInflight r.winnerConnectionId r.nowMs ∧
      (∀ r' ∈ (s.release id).selections, ∃ r'' ∈ s.selections,
        r'.winnerConnectionId = r''.winnerConnectionId ∧ r'.nowMs = r''.nowMs) ∧
      ∀ c t, s.outstanding leaseMs c t = (s.release id).outstanding leaseMs c t +
        if r.winnerConnectionId = c ∧ t < r.nowMs + leaseMs then 1 else 0 := by
  obtain ⟨pre, post, hsplit, hmodify⟩ := modify_split hget fun r => { r with released := true }
  have hrelease : s.release id = { s with
      selections := pre ++ { r with released := true } :: post
      inflight := s.inflight.decrementInflight r.winnerConnectionId r.nowMs } := by
    unfold release
    rw [hget]
    dsimp only
    rw [hunreleased, if_neg Bool.false_ne_true, hmodify]
  rw [hrelease]
  refine ⟨rfl, rfl, ?_, ?_⟩
  · intro r' hr'
    rw [hsplit]
    rcases mem_append.1 hr' with hmem | hmem
    · exact ⟨r', mem_append_left _ hmem, rfl, rfl⟩
    · rcases mem_cons.1 hmem with rfl | hmem
      · exact ⟨r, mem_append_right _ mem_cons_self, rfl, rfl⟩
      · exact ⟨r', mem_append_right _ (mem_cons_of_mem _ hmem), rfl, rfl⟩
  · intro c t
    unfold outstanding
    rw [hsplit]
    simp only [countP_append, countP_cons, hunreleased, true_and, Bool.true_eq_false,
      false_and, and_false, decide_false, Bool.false_eq_true, if_false, decide_eq_true_eq]
    omega

/-- With the leases in order, dropping the newest takes one live lease, if there is one. -/
theorem countP_dropLast {ls : List ℤ} (h : ls.Pairwise (· ≤ ·)) (t : ℤ) :
    ls.dropLast.countP (t < ·) = ls.countP (t < ·) - 1 := by
  rcases eq_nil_or_concat ls with rfl | ⟨init, newest, rfl⟩
  · rfl
  rw [concat_eq_append] at h ⊢
  rw [dropLast_concat, countP_append, countP_singleton]
  by_cases hlive : t < newest
  · simp [hlive]
  · have hnone : init.countP (t < ·) = 0 := by
      rw [countP_eq_zero]
      intro l hl
      have hle := (pairwise_append.1 h).2.2 l hl newest (mem_singleton_self _)
      simp only [decide_eq_true_eq]
      omega
    simp [hlive, hnone]

section

variable (h : Tracked leaseMs s)
include h

theorem Tracked.live_eq_zero (hlease : leaseMs ≤ 0) (c : String) {t : ℤ}
    (ht : s.now ≤ t) : s.inflight.live c t = 0 := by
  unfold live
  rw [countP_eq_zero]
  intro l hl
  have hbound := h.bounded c l hl
  simp only [decide_eq_true_eq]
  omega

theorem live_release (hlease : 0 < leaseMs) {id : ℕ}
    {r : QuotaShareSelection} (hget : s.selections[id]? = some r) (hc : r.winnerConnectionId ≠ "")
    (hunreleased : r.released = false) (c : String) (t : ℤ) :
    (s.release id).inflight.live c t =
      s.inflight.live c t - if r.winnerConnectionId = c then 1 else 0 := by
  rw [(release_eq leaseMs hget hunreleased).2.1]
  unfold live
  rw [leases_decrementInflight _ hc
    (h.unexpired hlease r (mem_of_getElem? hget) hc r.winnerConnectionId)]
  by_cases heq : c = r.winnerConnectionId
  · rw [if_pos heq, if_pos heq.symm, heq]
    exact countP_dropLast (h.sorted _) t
  · rw [if_neg heq, if_neg (Ne.symm heq)]
    rfl

theorem Tracked.release (id : ℕ) : Tracked leaseMs (s.release id) := by
  cases hget : s.selections[id]? with
  | none =>
    unfold QuotaShareRun.release
    rw [hget]
    exact h
  | some r =>
    cases hrel : r.released with
    | true =>
      unfold QuotaShareRun.release
      rw [hget]
      dsimp only
      rw [hrel, if_pos rfl]
      exact h
    | false =>
      obtain ⟨hnow, hinflight, hselections, hout⟩ := release_eq leaseMs hget hrel
      have hsub : ∀ c, ((s.release id).inflight.leases c).Sublist (s.inflight.leases c) := by
        intro c
        rw [hinflight]
        exact leases_decrementInflight_sublist _ _ _ c
      refine ⟨?_, ?_, ?_, ?_, ?_⟩
      · intro r' hr'
        obtain ⟨r'', hr'', -, heq⟩ := hselections r' hr'
        rw [hnow, heq]
        exact h.past r'' hr''
      · exact fun c => (h.sorted c).sublist (hsub c)
      · intro c l hl
        rw [hnow]
        exact h.bounded c l ((hsub c).subset hl)
      · intro hlease r' hr' hc' c l hl
        obtain ⟨r'', hr'', hconn, heq⟩ := hselections r' hr'
        rw [heq]
        exact h.unexpired hlease r'' hr'' (hconn ▸ hc') c l ((hsub c).subset hl)
      · intro c hc t ht
        rw [hnow] at ht
        have hle := h.le c hc t ht
        have hout' := hout c t
        by_cases hlease : 0 < leaseMs
        · by_cases hconn : r.winnerConnectionId = ""
          · have hne : ¬ (r.winnerConnectionId = c ∧ t < r.nowMs + leaseMs) :=
              fun h => hc (h.1 ▸ hconn)
            rw [if_neg hne] at hout'
            rw [hinflight, hconn]
            exact hle.trans hout'.le
          · rw [live_release h hlease hget hconn hrel]
            by_cases heq : r.winnerConnectionId = c
            · rw [if_pos heq]
              split at hout'
              · omega
              · omega
            · rw [if_neg heq]
              rw [if_neg (fun h => heq h.1)] at hout'
              omega
        · have hzero := h.live_eq_zero (not_lt.1 hlease) c ht
          have hmono : (s.release id).inflight.live c t ≤ s.inflight.live c t :=
            (hsub c).countP_le
          omega

theorem Tracked.select {c : String} (hc : c ≠ "")
    (hcap : ∀ ls, (s.inflight.incrementInflight c leaseMs s.now).1.get c = some ls →
      ls.length < maxLeasesPerConnection) :
    Tracked leaseMs { s with
      inflight := (s.inflight.incrementInflight c leaseMs s.now).1
      selections := s.selections ++ [⟨c, s.now, false⟩] } := by
  have hleases := leases_incrementInflight s.inflight hc leaseMs s.now hcap
  have hold : ∀ c', ∀ l ∈ retireExpired (s.inflight.leases c') s.now,
      l ∈ s.inflight.leases c' ∧ s.now < l := by
    intro c' l hl
    obtain ⟨hmem, hlive⟩ := mem_filter.1 hl
    exact ⟨hmem, of_decide_eq_true hlive⟩
  have hnew : ∀ c', ∀ l ∈ (if c' = c then [s.now + leaseMs] else []), l = s.now + leaseMs := by
    intro c' l hl
    split at hl
    · exact mem_singleton.1 hl
    · cases hl
  refine ⟨?_, ?_, ?_, ?_, ?_⟩
  · intro r hr
    rcases mem_append.1 hr with hr | hr
    · exact h.past r hr
    · rw [mem_singleton.1 hr]
  · intro c'
    dsimp only
    rw [hleases, pairwise_append]
    refine ⟨(h.sorted c').sublist filter_sublist, ?_, ?_⟩
    · split
      · exact pairwise_singleton _ _
      · exact List.Pairwise.nil
    · intro l hl l' hl'
      rw [hnew c' l' hl']
      exact h.bounded c' l (hold c' l hl).1
  · intro c' l hl
    dsimp only at hl
    rw [hleases] at hl
    rcases mem_append.1 hl with hl | hl
    · exact h.bounded c' l (hold c' l hl).1
    · exact (hnew c' l hl).le
  · intro hlease r hr hconn c' l hl
    dsimp only at hl
    rw [hleases] at hl
    rcases mem_append.1 hr with hr | hr
    · rcases mem_append.1 hl with hl | hl
      · exact h.unexpired hlease r hr hconn c' l (hold c' l hl).1
      · have hpast := h.past r hr
        rw [hnew c' l hl]
        omega
    · rw [mem_singleton.1 hr]
      rcases mem_append.1 hl with hl | hl
      · exact (hold c' l hl).2
      · rw [hnew c' l hl]
        show s.now < s.now + leaseMs
        omega
  · intro c' hc' t ht
    have hle := h.le c' hc' t ht
    rw [outstanding_append]
    unfold live at hle ⊢
    dsimp only
    rw [hleases, countP_append, countP_retireExpired _ ht]
    by_cases heq : c' = c
    · rw [if_pos heq, countP_singleton]
      simp only [heq, true_and, decide_eq_true_eq] at hle ⊢
      omega
    · rw [if_neg heq, countP_nil]
      omega

theorem Tracked.step {t : QuotaShareRun} {e : QuotaShareEvent}
    (hstep : s.step leaseMs e = some t) (hcap : t.BelowCap) : Tracked leaseMs t := by
  cases e with
  | clock now =>
    rw [QuotaShareRun.step] at hstep
    split at hstep
    · next hle =>
      cases hstep
      refine ⟨fun r hr => (h.past r hr).trans hle, h.sorted, ?_, h.unexpired, ?_⟩
      · intro c l hl
        have hbound := h.bounded c l hl
        show l ≤ now + leaseMs
        omega
      · exact fun c hc t ht => h.le c hc t (hle.trans ht)
    · cases hstep
  | select c =>
    cases hstep
    by_cases hc : c = ""
    · have hinflight : (s.inflight.incrementInflight c leaseMs s.now).1 = s.inflight := by
        unfold incrementInflight
        rw [if_pos hc]
      rw [hinflight]
      refine ⟨?_, h.sorted, h.bounded, ?_, ?_⟩
      · intro r hr
        rcases mem_append.1 hr with hr | hr
        · exact h.past r hr
        · rw [mem_singleton.1 hr]
      · intro hlease r hr hconn
        rcases mem_append.1 hr with hr | hr
        · exact h.unexpired hlease r hr hconn
        · rw [mem_singleton.1 hr] at hconn
          exact absurd hc hconn
      · intro c' hc' t ht
        rw [outstanding_append]
        exact (h.le c' hc' t ht).trans (Nat.le_add_right _ _)
    · exact h.select hc (hcap c)
  | release id =>
    cases hstep
    exact h.release id
  | read c =>
    cases hstep
    have hsub : ∀ c', ((s.inflight.getInflight c s.now).1.leases c').Sublist
        (s.inflight.leases c') := by
      intro c'
      rw [leases_getInflight]
      split
      · exact filter_sublist
      · exact List.Sublist.refl _
    refine ⟨h.past, fun c' => (h.sorted c').sublist (hsub c'),
      fun c' l hl => h.bounded c' l ((hsub c').subset hl),
      fun hlease r hr hconn c' l hl => h.unexpired hlease r hr hconn c' l ((hsub c').subset hl), ?_⟩
    intro c' hc' t ht
    exact ((hsub c').countP_le).trans (h.le c' hc' t ht)

omit h in
theorem neverUnderReports_def : NeverUnderReports leaseMs s ↔
    ∀ c ≠ "", ∀ t ≥ s.now, s.outstanding leaseMs c t ≤ s.inflight.live c t := by
  unfold NeverUnderReports
  refine forall₂_congr fun c hc => forall₂_congr fun t _ => ?_
  rw [getInflight_eq _ hc]

omit h in
theorem outstanding_pos {c : String} {t : ℤ} :
    0 < s.outstanding leaseMs c t ↔ ∃ r ∈ s.selections,
      r.winnerConnectionId = c ∧ r.released = false ∧ t < r.nowMs + leaseMs := by
  unfold outstanding
  rw [countP_pos_iff]
  simp only [decide_eq_true_eq]

/-- A release keeps the counts right exactly when no lease that is live and not its own expires
later. -/
theorem release_neverUnderReports_iff (hp : NeverUnderReports leaseMs s)
    (id : ℕ) : NeverUnderReports leaseMs (s.release id) ↔ s.LastReleased leaseMs (.release id) := by
  unfold LastReleased
  dsimp only
  cases hget : s.selections[id]? with
  | none =>
    refine iff_of_true ?_ nofun
    unfold release
    rw [hget]
    exact hp
  | some r =>
    cases hrel : r.released with
    | true =>
      refine iff_of_true ?_ ?_
      · unfold release
        rw [hget]
        dsimp only
        rw [hrel, if_pos rfl]
        exact hp
      · rintro r' hr' - hfalse
        rw [← Option.some.inj hr', hrel] at hfalse
        cases hfalse
    | false =>
      rw [neverUnderReports_def] at hp ⊢
      obtain ⟨hnow, hinflight, -, hout⟩ := release_eq leaseMs hget hrel
      rw [hnow]
      by_cases hlease : 0 < leaseMs
      · by_cases hconn : r.winnerConnectionId = ""
        · refine iff_of_true ?_ ?_
          · intro c hc t ht
            have hne : ¬ (r.winnerConnectionId = c ∧ t < r.nowMs + leaseMs) :=
              fun h => hc (h.1 ▸ hconn)
            have hout' := hout c t
            rw [if_neg hne] at hout'
            rw [hinflight, hconn]
            exact hout'.ge.trans (hp c hc t ht)
          · rintro r' hr' hne
            rw [← Option.some.inj hr'] at hne
            exact absurd hconn hne
        · have hlive := live_release h hlease hget hconn hrel
          constructor
          · intro hp' r₀ hr₀ _ _ r' hr' hsame hunreleased hunexpired
            cases hr₀
            by_contra hlater
            -- the time at which the own lease is gone and the later one is not
            obtain ⟨t, ht, hown, hother⟩ :
                ∃ t ≥ s.now, ¬ t < r.nowMs + leaseMs ∧ t < r'.nowMs + leaseMs :=
              ⟨Max.max s.now (r.nowMs + leaseMs), le_max_left _ _,
                not_lt.2 (le_max_right _ _), max_lt hunexpired (by omega)⟩
            have hpos : 0 < s.outstanding leaseMs r.winnerConnectionId t :=
              outstanding_pos.2 ⟨r', hr', hsame, hunreleased, hother⟩
            have hle := h.le _ hconn t ht
            have hle' := hp' _ hconn t ht
            have hout' := hout r.winnerConnectionId t
            rw [if_neg (fun h => hown h.2)] at hout'
            rw [hlive, if_pos rfl] at hle'
            omega
          · intro hlast c hc t ht
            have hge := hp c hc t ht
            have hout' := hout c t
            rw [hlive]
            by_cases heq : r.winnerConnectionId = c
            · rw [if_pos heq]
              by_cases hown : t < r.nowMs + leaseMs
              · rw [if_pos ⟨heq, hown⟩] at hout'
                omega
              · have hzero : s.outstanding leaseMs c t = 0 := by
                  by_contra hne
                  obtain ⟨r', hr', hsame, hunreleased, hother⟩ :=
                    outstanding_pos.1 (Nat.pos_of_ne_zero hne)
                  have hle := hlast r rfl hconn hrel r' hr' (hsame.trans heq.symm) hunreleased
                    (lt_of_le_of_lt ht hother)
                  omega
                omega
            · rw [if_neg heq]
              rw [if_neg (fun h => heq h.1)] at hout'
              omega
      · -- leases that expire at once never count
        refine iff_of_true ?_ ?_
        · intro c hc t ht
          have hzero : (s.release id).outstanding leaseMs c t = 0 := by
            by_contra hne
            have hout' := hout c t
            obtain ⟨r', hr', -, -, hother⟩ := outstanding_pos.1
              (show 0 < s.outstanding leaseMs c t by omega)
            have hpast := h.past r' hr'
            omega
          omega
        · intro _ _ _ _ r' hr' _ _ hunexpired
          have hpast := h.past r' hr'
          omega

theorem step_neverUnderReports_iff {t : QuotaShareRun} {e : QuotaShareEvent}
    (hp : NeverUnderReports leaseMs s) (hstep : s.step leaseMs e = some t) (hcap : t.BelowCap) :
    NeverUnderReports leaseMs t ↔ s.LastReleased leaseMs e := by
  cases e with
  | clock now =>
    rw [QuotaShareRun.step] at hstep
    split at hstep
    · next hle =>
      cases hstep
      exact iff_of_true (fun c hc t ht => hp c hc t (hle.trans ht)) trivial
    · cases hstep
  | select c =>
    cases hstep
    refine iff_of_true ?_ trivial
    rw [neverUnderReports_def] at hp ⊢
    intro c' hc' t ht
    have hge := hp c' hc' t ht
    rw [outstanding_append]
    by_cases hc : c = ""
    · unfold incrementInflight
      rw [if_pos hc, if_neg (fun (h : c = c' ∧ _) => hc' (h.1 ▸ hc))]
      exact hge
    · unfold live at hge ⊢
      dsimp only
      rw [leases_incrementInflight s.inflight hc leaseMs s.now (hcap c), countP_append,
        countP_retireExpired _ ht]
      by_cases heq : c' = c
      · rw [if_pos heq, countP_singleton]
        simp only [heq, true_and, decide_eq_true_eq] at hge ⊢
        omega
      · rw [if_neg heq, if_neg (fun h => heq h.1.symm), countP_nil]
        exact hge
  | release id =>
    cases hstep
    exact release_neverUnderReports_iff h hp id
  | read c =>
    cases hstep
    refine iff_of_true ?_ trivial
    rw [neverUnderReports_def] at hp ⊢
    intro c' hc' t ht
    have hge := hp c' hc' t ht
    unfold live at hge ⊢
    dsimp only
    rw [leases_getInflight]
    split
    · rw [countP_retireExpired _ ht]
      exact hge
    · exact hge

end

theorem Tracked.start (now : ℤ) : Tracked leaseMs (start now) where
  past := nofun
  sorted := fun _ => List.Pairwise.nil
  bounded := fun _ _ hl => absurd hl not_mem_nil
  unexpired := fun _ => nofun
  le := fun _ _ _ _ => Nat.zero_le _

theorem belowCap_of_entries (h : ∀ p ∈ s.inflight.entries, p.2.length < maxLeasesPerConnection) :
    s.BelowCap :=
  fun _ _ hget => h _ (OrdMap.get_eq_some.1 hget)

end QuotaShareRun
end OmniRoute
