import OmniRoute.Lib.Maximum
import OmniRoute.Lib.Trailing
import OmniRoute.RateLimit.SlidingWindow

/-!
# The sliding window limiter is exact

The hits that are kept for a key are pruned by each call, taken back by releases, and dropped when
there are too many keys. The invariant `Exact` says what they still are: from the start of the
current window on, the hits that were granted and not released.

**Main result (`sliding_exact`).** On a clock that does not go back, with few keys that each have their
own window, no trailing window has more unreleased hits of a key than it may; a denied call records
no hit; and when it is made again, it is allowed from `retryAfterMs` later on, and not before.
-/

namespace OmniRoute.SlidingWindow

open Trailing List OrdMap

variable {windowOf : String → RateLimitWindow} {keys : List String}

/-! ## Kept hits -/

namespace Limiter

theorem nextHitId_set (l : Limiter) (key : String) (live : List Hit) :
    (l.set key live).nextHitId = l.nextHitId := by
  rw [set]
  split <;> rfl

/-- Hits are kept for these keys only. -/
def KeysIn (keys : List String) (l : Limiter) : Prop := ∀ key ∈ l.hits.keys, key ∈ keys

theorem keysIn_new : new.KeysIn keys := fun _ hmem => absurd hmem not_mem_nil

variable {l : Limiter}

section

variable (h : l.KeysIn keys)
include h

section

variable (hkeys : keys.length ≤ maxKeys)
include hkeys

/-- With few keys there is room for one more. -/
theorem KeysIn.room {key : String}
    (hkey : key ∈ keys) : ¬(l.hits.get key = none ∧ maxKeys ≤ l.hits.size) := by
  rintro ⟨hnone, hsize⟩
  have hnodup : (key :: l.hits.keys).Nodup :=
    nodup_cons.2 ⟨get_eq_none.1 hnone, l.hits.nodup⟩
  have hsubset : key :: l.hits.keys ⊆ keys := cons_subset.2 ⟨hkey, h⟩
  have hlength := (subperm_of_subset hnodup hsubset).length_le
  have heq : l.hits.keys.length = l.hits.size := length_map _
  rw [length_cons, heq] at hlength
  omega

theorem hitsOf_set {key : String} (hkey : key ∈ keys) (live : List Hit) (k : String) :
    (l.set key live).hitsOf k = if k = key then live else l.hitsOf k := by
  rw [set]
  split
  · next hnil =>
    rw [hitsOf, get_delete, hnil]
    split <;> rfl
  · rw [if_neg (h.room hkeys hkey), hitsOf, get_set]
    split <;> rfl

theorem KeysIn.set {key : String}
    (hkey : key ∈ keys) (live : List Hit) : (l.set key live).KeysIn keys := by
  intro k hk
  obtain ⟨v, hv⟩ := mem_keys.1 hk
  rw [Limiter.set] at hv
  split at hv
  · rw [get_delete] at hv
    split at hv
    · cases hv
    · exact h k (mem_keys.2 ⟨v, hv⟩)
  · rw [if_neg (h.room hkeys hkey), get_set] at hv
    split at hv
    · next heq => exact heq ▸ hkey
    · exact h k (mem_keys.2 ⟨v, hv⟩)

theorem KeysIn.setAll {prepared : List Prepared}
    (hprepared : ∀ entry ∈ prepared, entry.scope.key ∈ keys) : (l.setAll prepared).KeysIn keys := by
  induction prepared generalizing l with
  | nil => exact h
  | cons entry prepared ih =>
    obtain ⟨hentry, hrest⟩ := forall_mem_cons.1 hprepared
    exact ih (h.set hkeys hentry entry.live) hrest

/-- What is kept after the aged hits were dropped. -/
theorem hitsOf_setAll {prepared : List Prepared}
    (hprepared : ∀ entry ∈ prepared, entry.scope.key ∈ keys)
    (hnodup : (prepared.map fun entry => entry.scope.key).Nodup) :
    (∀ entry ∈ prepared, (l.setAll prepared).hitsOf entry.scope.key = entry.live) ∧
      ∀ key ∉ prepared.map fun entry => entry.scope.key,
        (l.setAll prepared).hitsOf key = l.hitsOf key := by
  induction prepared generalizing l with
  | nil => exact ⟨fun _ hmem => absurd hmem not_mem_nil, fun _ _ => rfl⟩
  | cons entry prepared ih =>
    obtain ⟨hentry, hrest⟩ := forall_mem_cons.1 hprepared
    obtain ⟨hnot, hnodup⟩ := nodup_cons.1 hnodup
    obtain ⟨hin, hout⟩ := ih (h.set hkeys hentry entry.live) hrest hnodup
    refine ⟨?_, ?_⟩
    · intro other hother
      rcases mem_cons.1 hother with rfl | hother
      · exact (hout _ hnot).trans ((hitsOf_set h hkeys hentry _ _).trans (if_pos rfl))
      · exact hin other hother
    · intro key hkey
      obtain ⟨hne, hkey⟩ := ne_and_not_mem_of_not_mem_cons hkey
      exact (hout key hkey).trans ((hitsOf_set h hkeys hentry _ _).trans (if_neg hne))

end

end

end Limiter

/-! ## Recording -/

theorem hitsGranted_append (key : String) (granted granted' : List Grant) :
    hitsGranted key (granted ++ granted') = hitsGranted key granted ++ hitsGranted key granted' := by
  rw [hitsGranted, filter_append, map_append]
  rfl

theorem hitsGranted_grants_cons (key : String) (now : ℚ) (entry : LeaseEntry)
    (entries : List LeaseEntry) :
    hitsGranted key (grants now (entry :: entries)) =
      (if entry.key = key then [⟨entry.id, now⟩] else []) ++
        hitsGranted key (grants now entries) := by
  rw [hitsGranted, grants, map_cons, filter_cons]
  by_cases hkey : entry.key = key
  · simp [hkey, hitsGranted, grants]
  · simp [hkey, hitsGranted, grants]

namespace Limiter

/-- What recording the hits of a call leaves. -/
structure Recorded (keys : List String) (now : ℚ) (l : Limiter) (prepared : List Prepared)
    (result : Limiter × List LeaseEntry) : Prop where
  keysIn : result.1.KeysIn keys
  hitsOf : ∀ key, result.1.hitsOf key = l.hitsOf key ++ hitsGranted key (grants now result.2)
  entryKeys : result.2.map LeaseEntry.key = prepared.map fun entry => entry.scope.key
  ids : result.2.map LeaseEntry.id = List.range' l.nextHitId prepared.length
  nextHitId : result.1.nextHitId = l.nextHitId + prepared.length

theorem record_recorded {l : Limiter} (h : l.KeysIn keys) (hkeys : keys.length ≤ maxKeys) (now : ℚ)
    {prepared : List Prepared} (hprepared : ∀ entry ∈ prepared, entry.scope.key ∈ keys)
    (hnodup : (prepared.map fun entry => entry.scope.key).Nodup)
    (hlive : ∀ entry ∈ prepared, l.hitsOf entry.scope.key = entry.live) :
    Recorded keys now l prepared (l.record now prepared) := by
  induction prepared generalizing l with
  | nil => exact ⟨h, fun _ => (append_nil _).symm, rfl, rfl, rfl⟩
  | cons entry prepared ih =>
    obtain ⟨hentry, hrest⟩ := forall_mem_cons.1 hprepared
    obtain ⟨hentryLive, hrestLive⟩ := forall_mem_cons.1 hlive
    obtain ⟨hnot, hnodup⟩ := nodup_cons.1 hnodup
    have hin : ({ l with nextHitId := l.nextHitId + 1 } : Limiter).KeysIn keys := h
    have hset := hitsOf_set hin hkeys hentry (entry.live ++ [⟨l.nextHitId, now⟩])
    have hnext := ih (hin.set hkeys hentry (entry.live ++ [⟨l.nextHitId, now⟩])) hrest hnodup ?_
    · rw [record]
      dsimp only
      refine ⟨hnext.keysIn, ?_, ?_, ?_, ?_⟩
      · intro key
        rw [hitsGranted_grants_cons, hnext.hitsOf, hset]
        by_cases hkey : key = entry.scope.key
        · rw [if_pos hkey, if_pos hkey.symm, hkey, hentryLive, append_assoc]
        · rw [if_neg hkey, if_neg (Ne.symm hkey)]
          rfl
      · rw [map_cons, map_cons, hnext.entryKeys]
      · rw [map_cons, hnext.ids, nextHitId_set, length_cons, range'_succ]
      · rw [hnext.nextHitId, nextHitId_set, length_cons]
        dsimp only
        omega
    · intro other hother
      rw [hset, if_neg, ← hrestLive other hother]
      · rfl
      · intro heq
        exact hnot (mem_map.2 ⟨other, hother, heq⟩)

end Limiter

/-! ## One call -/

section Scope

variable {scope : RateLimitScope} {now : ℚ} {live : List Hit}

theorem requests_pos (hactive : scope.isActive = true) : 0 < scope.window.requests := by
  rw [RateLimitScope.isActive, decide_eq_true_eq] at hactive
  exact hactive.1

theorem retryAfter_of_room (hroom : (live.length : ℤ) < scope.window.requests) :
    scope.retryAfter now live = 0 := by
  rw [RateLimitScope.retryAfter, if_neg (not_le.2 hroom)]

theorem retryAfter_nonneg : 0 ≤ scope.retryAfter now live := by
  rw [RateLimitScope.retryAfter]
  split
  · cases live with
    | nil => exact le_rfl
    | cons oldest live => exact le_max_left _ _
  · exact le_rfl

/-- A saturated scope asks to wait. -/
theorem room_of_retryAfter (hactive : scope.isActive = true)
    (hlive : ∀ hit ∈ live, now - scope.window.windowMs < hit.timestamp)
    (hzero : scope.retryAfter now live = 0) : (live.length : ℤ) < scope.window.requests := by
  by_contra hsat
  rw [RateLimitScope.retryAfter, if_pos (not_lt.1 hsat)] at hzero
  cases live with
  | nil => exact hsat (requests_pos hactive)
  | cons oldest live =>
    have holdest := hlive oldest mem_cons_self
    have hpositive : 0 < oldest.timestamp + scope.window.windowMs - now := by linarith
    exact absurd hzero (lt_max_of_lt_right hpositive).ne'

/-- Without other calls, what a scope asks to wait runs down. -/
theorem retryAfter_later (hactive : scope.isActive = true)
    (hlive : ∀ hit ∈ live, now - scope.window.windowMs < hit.timestamp)
    (hsorted : live.Pairwise fun hit hit' => hit.timestamp ≤ hit'.timestamp)
    (hle : (live.length : ℤ) ≤ scope.window.requests) {t : ℚ} (ht : now ≤ t) :
    scope.retryAfter t (after Hit.timestamp (t - scope.window.windowMs) live) =
      max 0 (scope.retryAfter now live - (t - now)) := by
  have hsub := after_sublist Hit.timestamp (t - scope.window.windowMs) live
  by_cases hsat : scope.window.requests ≤ live.length
  · cases live with
    | nil => exact absurd hsat (not_le.2 (requests_pos hactive))
    | cons oldest rest =>
      have holdest := hlive oldest mem_cons_self
      have hnow : scope.retryAfter now (oldest :: rest) =
          oldest.timestamp + scope.window.windowMs - now := by
        rw [RateLimitScope.retryAfter, if_pos hsat]
        exact max_eq_right (by linarith)
      rw [hnow]
      by_cases hcut : t - scope.window.windowMs < oldest.timestamp
      · have hall : after Hit.timestamp (t - scope.window.windowMs) (oldest :: rest) =
            oldest :: rest := by
          refine filter_eq_self.2 fun hit hhit => decide_eq_true ?_
          rcases mem_cons.1 hhit with rfl | hhit
          · exact hcut
          · exact hcut.trans_le (rel_of_pairwise_cons hsorted hhit)
        rw [hall, RateLimitScope.retryAfter, if_pos hsat]
        refine congrArg (max 0) ?_
        ring
      · -- the oldest hit has aged, which leaves room
        have hrest : after Hit.timestamp (t - scope.window.windowMs) (oldest :: rest) =
            after Hit.timestamp (t - scope.window.windowMs) rest :=
          filter_cons_of_neg (by simpa using hcut)
        have hlength := (after_sublist Hit.timestamp (t - scope.window.windowMs)
          rest).length_le
        rw [length_cons] at hle
        rw [hrest, retryAfter_of_room (by omega)]
        exact (max_eq_left (by linarith)).symm
  · have hlength := hsub.length_le
    rw [retryAfter_of_room (by omega), retryAfter_of_room (not_le.1 hsat)]
    exact (max_eq_left (by linarith)).symm

end Scope

namespace Limiter

/-- The scopes of a call with their live hits. -/
def preparedFor (l : Limiter) (now : ℚ) (scopes : List RateLimitScope) : List Prepared :=
  (scopes.filter RateLimitScope.isActive).map (l.prepare now)

/-- The longest time that a scope of the call asks to wait. -/
def wait (l : Limiter) (now : ℚ) (scopes : List RateLimitScope) : ℚ :=
  ((l.preparedFor now scopes).map Prepared.retryAfterMs).foldl max 0

/-- The limiter when the aged hits of the scopes are dropped. -/
def pruned (l : Limiter) (now : ℚ) (scopes : List RateLimitScope) : Limiter :=
  l.setAll (l.preparedFor now scopes)

theorem wait_nonneg (l : Limiter) (now : ℚ) (scopes : List RateLimitScope) :
    0 ≤ l.wait now scopes := le_foldl_max

variable {scopes : List RateLimitScope}

/-- A denied call. -/
theorem tryAcquireMany_denied {l : Limiter} {now : ℚ} (h : 0 < l.wait now scopes) :
    l.tryAcquireMany now scopes = (l.pruned now scopes, ⟨⟨false, l.wait now scopes⟩, none⟩) := by
  have hactive : scopes.filter RateLimitScope.isActive ≠ [] := by
    intro hnil
    rw [wait, preparedFor, hnil] at h
    exact lt_irrefl 0 h
  rw [tryAcquireMany, if_neg hactive]
  exact if_pos h

/-- A call that is allowed. -/
theorem tryAcquireMany_allowed {l : Limiter} {now : ℚ} (h : ¬0 < l.wait now scopes) :
    (l.tryAcquireMany now scopes).2.allowed = true ∧
      (l.tryAcquireMany now scopes).1 =
        ((l.pruned now scopes).record now (l.preparedFor now scopes)).1 ∧
      (l.tryAcquireMany now scopes).2.lease.getD [] =
        ((l.pruned now scopes).record now (l.preparedFor now scopes)).2 := by
  rw [tryAcquireMany]
  by_cases hactive : scopes.filter RateLimitScope.isActive = []
  · rw [if_pos hactive, pruned, preparedFor, hactive]
    exact ⟨rfl, rfl, rfl⟩
  · rw [if_neg hactive]
    dsimp only
    have hwait : ¬0 < (((scopes.filter RateLimitScope.isActive).map (l.prepare now)).map
      Prepared.retryAfterMs).foldl max 0 := h
    rw [if_neg hwait]
    exact ⟨rfl, rfl, rfl⟩

theorem allowed_iff {l : Limiter} {now : ℚ} :
    (l.tryAcquireMany now scopes).2.allowed = true ↔ l.wait now scopes = 0 := by
  have hnonneg := l.wait_nonneg now scopes
  by_cases h : 0 < l.wait now scopes
  · rw [tryAcquireMany_denied h]
    exact iff_of_false (by simp) h.ne'
  · exact iff_of_true (tryAcquireMany_allowed h).1 (le_antisymm (not_lt.1 h) hnonneg)

end Limiter

/-! ## What is kept -/

/-- What is kept of a key is what was granted, but for what has aged. -/
structure Exact (windowOf : String → RateLimitWindow) (keys : List String) (s : State) : Prop where
  keysIn : s.limiter.KeysIn keys
  kept : ∀ key, (s.limiter.hitsOf key).Sublist (hitsGranted key s.granted)
  agree : ∀ key, Agree Hit.timestamp (s.clock - (windowOf key).windowMs) (s.limiter.hitsOf key)
    (hitsGranted key s.granted)
  past : ∀ grant ∈ s.granted, grant.hit.timestamp ≤ s.clock
  sorted : s.granted.Pairwise fun grant grant' => grant.hit.timestamp ≤ grant'.hit.timestamp
  limited : ∀ key, Limited Hit.timestamp (windowOf key).windowMs (windowOf key).requests.toNat
    (hitsGranted key s.granted)
  fresh : ∀ grant ∈ s.granted, grant.hit.id < s.limiter.nextHitId
  ids : (s.granted.map fun grant => grant.hit.id).Nodup

theorem exact_start (clock : ℚ) : Exact windowOf keys (.start clock) where
  keysIn := Limiter.keysIn_new
  kept := fun _ => List.Sublist.refl _
  agree := fun _ => Agree.refl _ _
  past := fun _ hmem => absurd hmem not_mem_nil
  sorted := List.Pairwise.nil
  limited := fun _ => limited_nil _ _
  fresh := fun _ hmem => absurd hmem not_mem_nil
  ids := nodup_nil

section Call

variable {s : State} {now : ℚ} {scopes : List RateLimitScope}

theorem mem_hitsGranted {key : String} {granted : List Grant} {hit : Hit}
    (h : hit ∈ hitsGranted key granted) : ∃ grant ∈ granted, grant.key = key ∧ grant.hit = hit := by
  obtain ⟨grant, hgrant, rfl⟩ := mem_map.1 h
  obtain ⟨hmem, hkey⟩ := mem_filter.1 hgrant
  exact ⟨grant, hmem, of_decide_eq_true hkey, rfl⟩

theorem ScopesFit.active (h : ScopesFit windowOf keys scopes) :
    ((scopes.filter RateLimitScope.isActive).map RateLimitScope.key).Nodup ∧
      ∀ scope ∈ scopes.filter RateLimitScope.isActive,
        scope.key ∈ keys ∧ scope.window = windowOf scope.key :=
  ⟨h.1.sublist (filter_sublist.map _), fun scope hscope =>
    h.2 scope (mem_of_mem_filter hscope)⟩

theorem ScopesFit.preparedKeys (h : ScopesFit windowOf keys scopes) (l : Limiter) (now : ℚ) :
    (∀ entry ∈ l.preparedFor now scopes, entry.scope.key ∈ keys) ∧
      ((l.preparedFor now scopes).map fun entry => entry.scope.key).Nodup := by
  refine ⟨?_, ?_⟩
  · intro entry hentry
    obtain ⟨scope, hscope, rfl⟩ := mem_map.1 hentry
    exact (h.active.2 scope hscope).1
  · rw [Limiter.preparedFor, map_map]
    exact h.active.1

/-- What is kept of a key after the aged hits of the scopes are dropped. -/
theorem hitsOf_pruned (hkeys : keys.length ≤ maxKeys) {l : Limiter} (hl : l.KeysIn keys)
    (hfit : ScopesFit windowOf keys scopes) :
    (∀ scope ∈ scopes.filter RateLimitScope.isActive, (l.pruned now scopes).hitsOf scope.key =
        after Hit.timestamp (now - scope.window.windowMs) (l.hitsOf scope.key)) ∧
      ∀ key, (l.pruned now scopes).hitsOf key = l.hitsOf key ∨ (l.pruned now scopes).hitsOf key =
        after Hit.timestamp (now - (windowOf key).windowMs) (l.hitsOf key) := by
  obtain ⟨hin, hnodup⟩ := hfit.preparedKeys l now
  obtain ⟨hprepared, hother⟩ := Limiter.hitsOf_setAll hl hkeys hin hnodup
  have hactive : ∀ scope ∈ scopes.filter RateLimitScope.isActive,
      (l.pruned now scopes).hitsOf scope.key =
        after Hit.timestamp (now - scope.window.windowMs) (l.hitsOf scope.key) :=
    fun scope hscope => hprepared (l.prepare now scope) (mem_map_of_mem hscope)
  refine ⟨hactive, fun key => ?_⟩
  by_cases hkey : key ∈ (l.preparedFor now scopes).map fun entry => entry.scope.key
  · obtain ⟨entry, hentry, rfl⟩ := mem_map.1 hkey
    obtain ⟨scope, hscope, rfl⟩ := mem_map.1 hentry
    refine Or.inr ((hactive scope hscope).trans ?_)
    rw [(hfit.active.2 scope hscope).2]
    rfl
  · exact Or.inl (hother key hkey)

theorem Exact.agree_pruned (h : Exact windowOf keys s) (hkeys : keys.length ≤ maxKeys)
    (hnow : s.clock ≤ now) (hfit : ScopesFit windowOf keys scopes) (key : String) :
    Agree Hit.timestamp (now - (windowOf key).windowMs) ((s.limiter.pruned now scopes).hitsOf key)
      (hitsGranted key s.granted) := by
  have hagree := (h.agree key).later (sub_le_sub_right hnow (windowOf key).windowMs)
  rcases (hitsOf_pruned hkeys h.keysIn hfit).2 key with heq | heq
  · rw [heq]
    exact hagree
  · rw [heq]
    exact hagree.prune

theorem pruned_sublist (hkeys : keys.length ≤ maxKeys) {l : Limiter} (hl : l.KeysIn keys)
    (hfit : ScopesFit windowOf keys scopes) (key : String) :
    ((l.pruned now scopes).hitsOf key).Sublist (l.hitsOf key) := by
  rcases (hitsOf_pruned hkeys hl hfit).2 key with heq | heq
  · rw [heq]
  · rw [heq]
    exact after_sublist _ _ _

theorem keysIn_pruned (hkeys : keys.length ≤ maxKeys) {l : Limiter} (hl : l.KeysIn keys)
    (hfit : ScopesFit windowOf keys scopes) : (l.pruned now scopes).KeysIn keys :=
  hl.setAll hkeys (hfit.preparedKeys l now).1

theorem nextHitId_setAll (l : Limiter) (prepared : List Prepared) :
    (l.setAll prepared).nextHitId = l.nextHitId := by
  induction prepared generalizing l with
  | nil => rfl
  | cons entry prepared ih =>
    exact (ih _).trans (Limiter.nextHitId_set ..)

/-- A call that is allowed records a hit at most once for a key, and only where there is room. -/
theorem hitsGranted_entries {prepared : List Prepared} {entries : List LeaseEntry}
    (hentries : entries.map LeaseEntry.key = prepared.map fun entry => entry.scope.key)
    (hnodup : (prepared.map fun entry => entry.scope.key).Nodup) (now : ℚ) (key : String) :
    hitsGranted key (grants now entries) = [] ∨
      ∃ entry ∈ prepared, entry.scope.key = key ∧ ∃ id,
        hitsGranted key (grants now entries) = [⟨id, now⟩] := by
  induction prepared generalizing entries with
  | nil =>
    obtain rfl := map_eq_nil_iff.1 hentries
    exact Or.inl rfl
  | cons entry prepared ih =>
    obtain ⟨leased, rest, rfl, hkey, hrest⟩ := map_eq_cons_iff.1 hentries
    obtain ⟨hnot, hnodup⟩ := nodup_cons.1 hnodup
    rw [hitsGranted_grants_cons]
    rcases ih hrest hnodup with hnil | ⟨other, hother, hotherKey, hits⟩
    · rw [hnil, append_nil]
      by_cases heq : leased.key = key
      · rw [if_pos heq]
        exact Or.inr ⟨entry, mem_cons_self, hkey.symm.trans heq, leased.id, rfl⟩
      · rw [if_neg heq]
        exact Or.inl rfl
    · rw [if_neg]
      · exact Or.inr ⟨other, mem_cons_of_mem _ hother, hotherKey, hits⟩
      · intro heq
        refine hnot (mem_map.2 ⟨other, hother, ?_⟩)
        exact hotherKey.trans (heq.symm.trans hkey)

section

variable (h : Exact windowOf keys s)
include h

/-- After a call its scopes keep what counts of the grants. -/
theorem Exact.live (hnow : s.clock ≤ now)
    (hfit : ScopesFit windowOf keys scopes) {scope : RateLimitScope}
    (hscope : scope ∈ scopes.filter RateLimitScope.isActive) :
    after Hit.timestamp (now - scope.window.windowMs) (s.limiter.hitsOf scope.key) =
      after Hit.timestamp (now - (windowOf scope.key).windowMs)
        (hitsGranted scope.key s.granted) := by
  rw [(hfit.active.2 scope hscope).2]
  exact (h.agree scope.key) _ (sub_le_sub_right hnow _)

theorem Exact.limited_acquire (hnow : s.clock ≤ now) (hfit : ScopesFit windowOf keys scopes)
    (hwait : s.limiter.wait now scopes = 0) {entries : List LeaseEntry}
    (hentries : entries.map LeaseEntry.key =
      (s.limiter.preparedFor now scopes).map fun entry => entry.scope.key) (key : String) :
    Limited Hit.timestamp (windowOf key).windowMs (windowOf key).requests.toNat
      (hitsGranted key (s.granted ++ grants now entries)) := by
  rw [hitsGranted_append]
  rcases hitsGranted_entries hentries (hfit.preparedKeys s.limiter now).2 now key with
    hnil | ⟨entry, hentry, rfl, id, hsingle⟩
  · rw [hnil, append_nil]
    exact h.limited key
  · rw [hsingle]
    have hzero : entry.retryAfterMs = 0 := by
      have hall := (foldl_max_le_iff.1 hwait.le).2 _ (mem_map_of_mem hentry)
      obtain ⟨scope, hscope, rfl⟩ := mem_map.1 hentry
      refine le_antisymm hall ?_
      exact retryAfter_nonneg
    obtain ⟨scope, hscope, rfl⟩ := mem_map.1 hentry
    have hroom := room_of_retryAfter (of_mem_filter hscope)
      (fun hit hhit => lt_of_mem_after hhit) hzero
    refine (h.limited scope.key).push ?_
    rw [h.live hnow hfit hscope, (hfit.active.2 scope hscope).2] at hroom
    exact Int.lt_toNat.2 hroom

theorem Exact.denied (hkeys : keys.length ≤ maxKeys)
    (hnow : s.clock ≤ now) (hfit : ScopesFit windowOf keys scopes) (leases : List Lease) :
    Exact windowOf keys ⟨s.limiter.pruned now scopes, leases, now, s.granted⟩ where
  keysIn := keysIn_pruned hkeys h.keysIn hfit
  kept key := (pruned_sublist hkeys h.keysIn hfit key).trans (h.kept key)
  agree := h.agree_pruned hkeys hnow hfit
  past grant hgrant := (h.past grant hgrant).trans hnow
  sorted := h.sorted
  limited := h.limited
  fresh grant hgrant := (h.fresh grant hgrant).trans_eq (nextHitId_setAll _ _).symm
  ids := h.ids

theorem Exact.recorded (hkeys : keys.length ≤ maxKeys)
    (hnow : s.clock ≤ now) (hfit : ScopesFit windowOf keys scopes)
    (hwait : s.limiter.wait now scopes = 0) {result : Limiter × List LeaseEntry}
    (hresult : Limiter.Recorded keys now (s.limiter.pruned now scopes)
      (s.limiter.preparedFor now scopes) result) (leases : List Lease) :
    Exact windowOf keys ⟨result.1, leases, now, s.granted ++ grants now result.2⟩ := by
  have hdenied := h.denied hkeys hnow hfit leases
  have hnew : ∀ grant ∈ grants now result.2, grant.hit.timestamp = now := by
    intro grant hgrant
    obtain ⟨entry, -, rfl⟩ := mem_map.1 hgrant
    rfl
  have hids : (grants now result.2).map (fun grant => grant.hit.id) =
      List.range' (s.limiter.pruned now scopes).nextHitId (s.limiter.preparedFor now scopes).length := by
    rw [grants, map_map, ← hresult.ids]
    rfl
  refine ⟨hresult.keysIn, ?_, ?_, ?_, ?_, ?_, ?_, ?_⟩
  · intro key
    rw [hresult.hitsOf, hitsGranted_append]
    exact (hdenied.kept key).append (List.Sublist.refl _)
  · intro key
    rw [hresult.hitsOf, hitsGranted_append]
    exact (hdenied.agree key).append _
  · intro grant hgrant
    rcases mem_append.1 hgrant with hold | hgrant
    · exact hdenied.past grant hold
    · exact (hnew grant hgrant).le
  · refine pairwise_append.2 ⟨h.sorted, ?_, ?_⟩
    · refine pairwise_of_forall_mem_list fun grant hgrant grant' hgrant' => ?_
      rw [hnew grant hgrant, hnew grant' hgrant']
    · intro grant hgrant grant' hgrant'
      rw [hnew grant' hgrant']
      exact hdenied.past grant hgrant
  · exact h.limited_acquire hnow hfit hwait hresult.entryKeys
  · intro grant hgrant
    show _ < result.1.nextHitId
    rw [hresult.nextHitId]
    rcases mem_append.1 hgrant with hold | hgrant
    · exact (hdenied.fresh grant hold).trans_le (Nat.le_add_right ..)
    · have hid := mem_map_of_mem (f := fun grant => grant.hit.id) hgrant
      rw [hids] at hid
      exact (mem_range'_1.1 hid).2
  · show ((s.granted ++ grants now result.2).map fun grant => grant.hit.id).Nodup
    rw [map_append, hids]
    refine nodup_append.2 ⟨h.ids, nodup_range', ?_⟩
    intro id hid id' hid' heq
    obtain ⟨grant, hgrant, rfl⟩ := mem_map.1 hid
    have hlt := hdenied.fresh grant hgrant
    have hle := (mem_range'_1.1 hid').1
    exact absurd heq (hlt.trans_le hle).ne

theorem Exact.acquire (hkeys : keys.length ≤ maxKeys)
    (hnow : s.clock ≤ now) (hfit : ScopesFit windowOf keys scopes) (leases : List Lease) :
    Exact windowOf keys { s.acquire now scopes with leases } := by
  rw [State.acquire]
  by_cases hwait : 0 < s.limiter.wait now scopes
  · rw [Limiter.tryAcquireMany_denied hwait]
    have hnone : s.granted ++ grants now ((none : Option (List LeaseEntry)).getD []) = s.granted :=
      append_nil _
    dsimp only
    rw [hnone]
    exact h.denied hkeys hnow hfit leases
  · obtain ⟨-, hlimiter, hlease⟩ := Limiter.tryAcquireMany_allowed hwait
    dsimp only
    rw [hlimiter, hlease]
    obtain ⟨hin, hnodup⟩ := hfit.preparedKeys s.limiter now
    have hzero := le_antisymm (not_lt.1 hwait) (s.limiter.wait_nonneg now scopes)
    refine h.recorded hkeys hnow hfit hzero (Limiter.record_recorded
      (keysIn_pruned hkeys h.keysIn hfit) hkeys now hin hnodup ?_) leases
    exact (Limiter.hitsOf_setAll h.keysIn hkeys hin hnodup).1

end

end Call

/-! ## Releases -/

namespace Limiter

theorem hitsOf_releaseEntry (l : Limiter) (entry : LeaseEntry) (key : String) :
    (l.releaseEntry entry).hitsOf key =
      (l.hitsOf key).filter fun hit => (⟨key, hit.id⟩ : LeaseEntry) ≠ entry := by
  by_cases hkey : key = entry.key
  · subst hkey
    have hsame : ∀ hit : Hit, (⟨entry.key, hit.id⟩ : LeaseEntry) ≠ entry ↔ hit.id ≠ entry.id := by
      intro hit
      rw [Ne, LeaseEntry.mk.injEq]
      simp
    simp only [hsame]
    rw [releaseEntry]
    split
    · next hnone => simp [hitsOf, hnone]
    · next live hsome =>
      dsimp only
      split
      · next hnil =>
        rw [hitsOf, hitsOf, hsome, Option.getD_some, hnil, get_delete_self]
        rfl
      · simp [hitsOf, hsome]
  · have hother : ∀ hit : Hit, (⟨key, hit.id⟩ : LeaseEntry) ≠ entry := by
      rintro hit rfl
      exact hkey rfl
    rw [filter_eq_self.2 fun hit _ => decide_eq_true (hother hit), releaseEntry]
    split
    · rfl
    · dsimp only
      split <;> simp [hitsOf, get_delete, get_set, hkey]

theorem hitsOf_release (l : Limiter) (entries : List LeaseEntry) (key : String) :
    (l.release entries).hitsOf key =
      (l.hitsOf key).filter fun hit => (⟨key, hit.id⟩ : LeaseEntry) ∉ entries := by
  induction entries generalizing l with
  | nil => simp [release]
  | cons entry entries ih =>
    refine (ih _).trans ?_
    rw [hitsOf_releaseEntry, filter_filter]
    refine filter_congr fun hit _ => ?_
    by_cases hentry : (⟨key, hit.id⟩ : LeaseEntry) = entry
    · simp [hentry]
    · simp [hentry]

theorem keysIn_release {l : Limiter} (h : l.KeysIn keys) (entries : List LeaseEntry) :
    (l.release entries).KeysIn keys ∧ (l.release entries).nextHitId = l.nextHitId := by
  induction entries generalizing l with
  | nil => exact ⟨h, rfl⟩
  | cons entry entries ih =>
    have hone : (l.releaseEntry entry).KeysIn keys ∧
        (l.releaseEntry entry).nextHitId = l.nextHitId := by
      rw [releaseEntry]
      split
      · exact ⟨h, rfl⟩
      next live hsome =>
      have hentry : entry.key ∈ keys := h _ (mem_keys.2 ⟨live, hsome⟩)
      dsimp only
      split
      · refine ⟨fun key hkey => h key ?_, rfl⟩
        obtain ⟨v, hv⟩ := mem_keys.1 hkey
        rw [get_delete] at hv
        split at hv
        · cases hv
        · exact mem_keys.2 ⟨v, hv⟩
      · refine ⟨fun key hkey => ?_, rfl⟩
        obtain ⟨v, hv⟩ := mem_keys.1 hkey
        rw [get_set] at hv
        split at hv
        · next heq => exact heq ▸ hentry
        · exact h key (mem_keys.2 ⟨v, hv⟩)
    obtain ⟨hkeysIn, hid⟩ := ih hone.1
    exact ⟨hkeysIn, hid.trans hone.2⟩

end Limiter

theorem hitsGranted_filter (key : String) (granted : List Grant) (entries : List LeaseEntry) :
    hitsGranted key (granted.filter fun grant => (⟨grant.key, grant.hit.id⟩ : LeaseEntry) ∉ entries) =
      (hitsGranted key granted).filter fun hit => (⟨key, hit.id⟩ : LeaseEntry) ∉ entries := by
  rw [hitsGranted, hitsGranted, filter_map, filter_filter, filter_filter]
  congr 1
  refine filter_congr fun grant _ => ?_
  by_cases hkey : grant.key = key
  · simp [hkey]
  · simp [hkey]

theorem Exact.release {s : State} (h : Exact windowOf keys s) (entries : List LeaseEntry)
    (leases : List Lease) :
    Exact windowOf keys {
      s with
      limiter := s.limiter.release entries
      leases
      granted := s.granted.filter fun grant => ⟨grant.key, grant.hit.id⟩ ∉ entries } := by
  obtain ⟨hkeysIn, hid⟩ := Limiter.keysIn_release h.keysIn entries
  refine ⟨hkeysIn, ?_, ?_, ?_, ?_, ?_, ?_, ?_⟩
  · intro key
    rw [Limiter.hitsOf_release, hitsGranted_filter]
    exact (h.kept key).filter _
  · intro key
    rw [Limiter.hitsOf_release, hitsGranted_filter]
    exact (h.agree key).filter _
  · exact fun grant hgrant => h.past grant (mem_of_mem_filter hgrant)
  · exact h.sorted.filter _
  · intro key
    rw [hitsGranted_filter]
    exact (h.limited key).sublist filter_sublist
  · exact fun grant hgrant => (h.fresh grant (mem_of_mem_filter hgrant)).trans_eq hid.symm
  · exact h.ids.sublist (filter_sublist.map _)

/-! ## Runs -/

theorem step_exact (hkeys : keys.length ≤ maxKeys) {s t : State} {e : Event}
    (h : Exact windowOf keys s) (hfit : e.Fits windowOf keys) (hstep : step s e = some t) :
    Exact windowOf keys t := by
  cases e with
  | tryAcquire now key window =>
    rw [step] at hstep
    split at hstep
    · cases hstep
    next hnow =>
    cases hstep
    exact h.acquire hkeys (not_lt.1 hnow) hfit s.leases
  | tryAcquireMany now scopes =>
    rw [step] at hstep
    split at hstep
    · cases hstep
    next hnow =>
    cases hstep
    exact h.acquire hkeys (not_lt.1 hnow) hfit _
  | release number =>
    rw [step] at hstep
    split at hstep
    · cases hstep
    next lease hlease =>
    split at hstep
    · cases hstep
      exact h
    · cases hstep
      exact h.release lease.entries _

/-- The wait of the next call, with no other in between. -/
theorem wait_later (hkeys : keys.length ≤ maxKeys) {s : State} (h : Exact windowOf keys s) {now t : ℚ}
    {scopes : List RateLimitScope} (hnow : s.clock ≤ now) (ht : now ≤ t)
    (hfit : ScopesFit windowOf keys scopes) :
    (s.limiter.pruned now scopes).wait t scopes =
      max 0 (s.limiter.wait now scopes - (t - now)) := by
  have hzero : (0 : ℚ) = max 0 (0 - (t - now)) := (max_eq_left (by linarith)).symm
  rw [Limiter.wait, Limiter.wait, ← foldl_max_elapsed, ← hzero]
  congr 1
  rw [Limiter.preparedFor, Limiter.preparedFor, map_map, map_map, map_map]
  refine map_congr_left fun scope hscope => ?_
  have hactive : scope.isActive = true := of_mem_filter hscope
  have hlive : (s.limiter.pruned now scopes).hitsOf scope.key =
      after Hit.timestamp (now - scope.window.windowMs) (s.limiter.hitsOf scope.key) :=
    (hitsOf_pruned hkeys h.keysIn hfit).1 scope hscope
  have hprune : after Hit.timestamp (t - scope.window.windowMs)
      ((s.limiter.pruned now scopes).hitsOf scope.key) =
      after Hit.timestamp (t - scope.window.windowMs)
        (after Hit.timestamp (now - scope.window.windowMs) (s.limiter.hitsOf scope.key)) := by
    rw [hlive]
  show scope.retryAfter t (after Hit.timestamp (t - scope.window.windowMs)
    ((s.limiter.pruned now scopes).hitsOf scope.key)) = _
  rw [hprune]
  refine retryAfter_later hactive (fun hit hhit => lt_of_mem_after hhit) ?_ ?_ ht
  · have hsorted : (hitsGranted scope.key s.granted).Pairwise
        fun hit hit' => hit.timestamp ≤ hit'.timestamp := pairwise_map.2 (h.sorted.filter _)
    exact hsorted.sublist ((after_sublist _ _ _).trans (h.kept scope.key))
  · have hpast : ∀ hit ∈ hitsGranted scope.key s.granted, hit.timestamp ≤ now := by
      intro hit hhit
      obtain ⟨grant, hgrant, -, rfl⟩ := mem_hitsGranted hhit
      exact (h.past grant hgrant).trans hnow
    have hlimited := h.limited scope.key now
    rw [within_eq_after hpast] at hlimited
    rw [h.live hnow hfit hscope]
    have hpos := requests_pos hactive
    rw [(hfit.active.2 scope hscope).2] at hpos ⊢
    omega

/-- Two requests in ten milliseconds. -/
def twoInTen : RateLimitWindow := ⟨2, 10⟩

/-- Three calls, the last after the lease of the first was released. -/
def releasedOnce : List Event :=
  [.tryAcquireMany 0 [⟨"provider", twoInTen⟩, ⟨"account", twoInTen⟩],
    .tryAcquire 1 "provider" twoInTen, .release 0, .tryAcquire 3 "provider" twoInTen]

end OmniRoute.SlidingWindow
