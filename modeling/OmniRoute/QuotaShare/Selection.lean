import OmniRoute.QuotaShare.Proportional

/-!
# What the quota-share selection returns

The gates and the two choices only move targets, so the ordered targets are those that were passed.
A target of weight zero gains no credit, but the choice by requests in flight does not look at
weights, and neither does a credit that an earlier round left.

**Main result (`select_positive_iff`).** The ordered targets are a permutation of the input that
starts with the selected target, and the selected target does not have weight zero exactly when the
choice between the leader in credit and the first other target with room does not fall on one of
weight zero.
-/

namespace OmniRoute

open List

namespace InflightMap

theorem live_getInflight (m : InflightMap) (c : String) (nowMs : ℤ) (c' : String) :
    (m.getInflight c nowMs).1.live c' nowMs = m.live c' nowMs := by
  unfold live
  rw [leases_getInflight]
  split
  · exact countP_retireExpired _ le_rfl
  · rfl

/-- Reading one count does not change another at the same time. -/
theorem getInflight_getInflight (m : InflightMap) (c c' : String) (nowMs : ℤ) :
    ((m.getInflight c nowMs).1.getInflight c' nowMs).2 = (m.getInflight c' nowMs).2 := by
  by_cases hc : c' = ""
  · rw [hc]
    rfl
  · rw [getInflight_eq _ hc, getInflight_eq _ hc, live_getInflight]

end InflightMap

namespace QuotaShareStrategy

/-- The requests in flight on the connection of a target. -/
def loadOf (inflight : InflightMap) (nowMs : ℤ) (t : ResolvedComboTarget) : ℕ :=
  (inflight.getInflight t.connection nowMs).2

/-- Below its cap, if the connection has one. -/
def hasRoom (inflight : InflightMap) (caps : Option Caps) (nowMs : ℤ) (t : ResolvedComboTarget) :
    Bool :=
  match resolveConnectionCap t.connection caps with
  | none => true
  | some cap => (loadOf inflight nowMs t : ℚ) < cap

/-- The eligible targets with concurrency headroom. -/
def roomyTargets (s : State) (targets : List ResolvedComboTarget) (modelStr : String) (nowMs : ℤ)
    (caps : Option Caps) : List ResolvedComboTarget :=
  (filterEligibleBySaturation s.buckets targets modelStr nowMs).2.filter
    (hasRoom s.inflight caps nowMs)

/-- The first target with the most credit. -/
def leadingTarget (credit : ResolvedComboTarget → ℚ) (room : List ResolvedComboTarget) :
    Option ResolvedComboTarget :=
  room.find? fun t => room.all fun u => credit u ≤ credit t

/-- The choice between the leader in credit and the first other target does not fall on a target of
weight zero. -/
def ChoosesPositive (s : State) (comboName : String) (nowMs : ℤ)
    (room : List ResolvedComboTarget) : Prop :=
  ∀ leader, leadingTarget (creditOf s.drr comboName room) room = some leader →
    match room.find? fun t => t.executionKey ≠ leader.executionKey with
    | none => leader.weight ≠ some 0
    | some second =>
      if loadOf s.inflight nowMs second < loadOf s.inflight nowMs leader then
        second.weight ≠ some 0
      else leader.weight ≠ some 0

/-! ## The gates -/

theorem filterUnsaturated_sublist (modelName : String) (nowMs : ℤ) (m : Buckets)
    (targets : List ResolvedComboTarget) :
    (filterUnsaturated modelName nowMs m targets).2.Sublist targets := by
  induction targets generalizing m with
  | nil => exact List.Sublist.refl _
  | cons t ts ih =>
    unfold filterUnsaturated
    dsimp only
    split
    · exact (ih _).cons t
    · exact (ih _).cons_cons t

theorem filterEligible_sublist (m : Buckets) (targets : List ResolvedComboTarget)
    (modelStr : String) (nowMs : ℤ) :
    (filterEligibleBySaturation m targets modelStr nowMs).2.Sublist targets := by
  unfold filterEligibleBySaturation
  dsimp only
  split
  · exact filterUnsaturated_sublist _ _ _ _
  · exact List.Sublist.refl _

variable {targets : List ResolvedComboTarget}

theorem eligible_ne_nil (m : Buckets) (modelStr : String) (nowMs : ℤ) (h : targets ≠ []) :
    (filterEligibleBySaturation m targets modelStr nowMs).2 ≠ [] := by
  unfold filterEligibleBySaturation
  dsimp only
  split
  · next hpos => exact length_pos_iff.1 hpos
  · exact h

/-- The eligible targets and the deprioritized ones. -/
theorem eligible_append_perm {eligible : List ResolvedComboTarget} (hnodup : targets.Nodup)
    (hsub : eligible.Sublist targets) :
    (eligible ++ targets.filter fun t => t ∉ eligible).Perm targets := by
  have hmem : eligible.Perm (targets.filter fun t => t ∈ eligible) := by
    refine (perm_ext_iff_of_nodup (hnodup.sublist hsub) (hnodup.filter _)).2 fun t => ?_
    rw [mem_filter, decide_eq_true_eq]
    exact ⟨fun ht => ⟨hsub.subset ht, ht⟩, fun ht => ht.2⟩
  refine (hmem.append_right _).trans ?_
  have hsplit := filter_append_perm (fun t => decide (t ∈ eligible)) targets
  simpa only [decide_not] using hsplit

/-- What a split by caps reads is not changed by what it read before. -/
theorem splitByCap_eq (caps : Option Caps) (nowMs : ℤ) (inflight : InflightMap)
    (targets : List ResolvedComboTarget) :
    (splitByCap caps nowMs inflight targets).2.1 =
      targets.filter (hasRoom inflight caps nowMs) ∧
    (splitByCap caps nowMs inflight targets).2.2 =
      (targets.filter fun t => !hasRoom inflight caps nowMs t) ∧
    ∀ t, loadOf (splitByCap caps nowMs inflight targets).1 nowMs t = loadOf inflight nowMs t := by
  induction targets generalizing inflight with
  | nil => exact ⟨rfl, rfl, fun t => rfl⟩
  | cons u us ih =>
    unfold splitByCap
    cases hcap : resolveConnectionCap u.connection caps with
    | none =>
      obtain ⟨hwith, hat, hload⟩ := ih inflight
      have hroom : hasRoom inflight caps nowMs u = true := by rw [hasRoom, hcap]
      refine ⟨?_, ?_, hload⟩
      · rw [filter_cons_of_pos hroom, ← hwith]
      · rw [filter_cons_of_neg (by simp [hroom]), ← hat]
    | some cap =>
      obtain ⟨hwith, hat, hload⟩ := ih (inflight.getInflight u.connection nowMs).1
      have hsame : ∀ t, loadOf (inflight.getInflight u.connection nowMs).1 nowMs t =
          loadOf inflight nowMs t := fun t => InflightMap.getInflight_getInflight _ _ _ _
      have hroom : hasRoom (inflight.getInflight u.connection nowMs).1 caps nowMs =
          hasRoom inflight caps nowMs := by
        funext t
        simp only [hasRoom, hsame]
      rw [hroom] at hwith hat
      dsimp only
      by_cases hfull : cap ≤ ((inflight.getInflight u.connection nowMs).2 : ℚ)
      · have hnot : hasRoom inflight caps nowMs u = false := by
          rw [hasRoom, hcap]
          exact decide_eq_false (not_lt.2 hfull)
        rw [if_pos hfull]
        refine ⟨?_, ?_, fun t => (hload t).trans (hsame t)⟩
        · rw [filter_cons_of_neg (by simp [hnot]), ← hwith]
        · rw [filter_cons_of_pos (by simp [hnot]), ← hat]
      · have hyes : hasRoom inflight caps nowMs u = true := by
          rw [hasRoom, hcap]
          exact decide_eq_true (not_le.1 hfull)
        rw [if_neg hfull]
        refine ⟨?_, ?_, fun t => (hload t).trans (hsame t)⟩
        · rw [filter_cons_of_pos hyes, ← hwith]
        · rw [filter_cons_of_neg (by simp [hyes]), ← hat]

/-- Without a cap every target has room. -/
theorem hasRoom_of_noCaps {caps : Option Caps} (h : (caps.all fun caps => caps.size = 0) = true)
    (inflight : InflightMap) (nowMs : ℤ) (t : ResolvedComboTarget) :
    hasRoom inflight caps nowMs t = true := by
  have hnone : resolveConnectionCap t.connection caps = none := by
    unfold resolveConnectionCap
    split
    · rfl
    · cases caps with
      | none => rfl
      | some caps =>
        have hnil : caps.entries = [] := length_eq_zero_iff.1 (of_decide_eq_true h)
        have hget : caps.get t.connection = none := by
          rw [OrdMap.get, hnil]
          rfl
        dsimp only
        rw [hget]
  rw [hasRoom, hnone]

variable (inflight : InflightMap)

/-- What the cap gate leaves: if some target has room, those that have. -/
theorem partition_spec (eligible : List ResolvedComboTarget) (caps : Option Caps) (nowMs : ℤ) :
    ((partitionByConcurrencyCap inflight eligible caps nowMs).2.1 ++
      (partitionByConcurrencyCap inflight eligible caps nowMs).2.2).Perm eligible ∧
    (∀ t, loadOf (partitionByConcurrencyCap inflight eligible caps nowMs).1 nowMs t =
      loadOf inflight nowMs t) ∧
    (eligible ≠ [] → (partitionByConcurrencyCap inflight eligible caps nowMs).2.1 ≠ []) ∧
    (eligible.filter (hasRoom inflight caps nowMs) ≠ [] →
      (partitionByConcurrencyCap inflight eligible caps nowMs).2.1 =
        eligible.filter (hasRoom inflight caps nowMs)) := by
  obtain ⟨hwith, hat, hload⟩ := splitByCap_eq caps nowMs inflight eligible
  unfold partitionByConcurrencyCap
  by_cases hcaps : (caps.all fun caps => caps.size = 0) = true
  · rw [if_pos hcaps]
    refine ⟨by rw [append_nil], fun t => rfl, fun h => h, fun _ => ?_⟩
    exact (filter_eq_self.2 fun t _ => hasRoom_of_noCaps hcaps inflight nowMs t).symm
  · rw [if_neg hcaps]
    dsimp only
    rw [hwith, hat]
    by_cases hnone : (eligible.filter (hasRoom inflight caps nowMs)).length = 0
    · rw [if_pos hnone]
      refine ⟨by rw [append_nil], hload, fun h => h, fun h => ?_⟩
      exact absurd (length_eq_zero_iff.1 hnone) h
    · rw [if_neg hnone]
      refine ⟨?_, hload, fun _ h => hnone (length_eq_zero_iff.2 h), fun _ => rfl⟩
      exact filter_append_perm _ _

/-! ## The order -/

theorem filter_key_ne {before after : List ResolvedComboTarget} {winner : ResolvedComboTarget}
    (hkeys : ((before ++ winner :: after).map ResolvedComboTarget.executionKey).Nodup) :
    (before ++ winner :: after).filter (fun t => t.executionKey ≠ winner.executionKey) =
      before ++ after := by
  rw [map_append, map_cons, nodup_middle, nodup_cons, mem_append, not_or] at hkeys
  obtain ⟨⟨hbefore, hafter⟩, -⟩ := hkeys
  rw [filter_append, filter_cons_of_neg (by simp)]
  congr 1
  · exact filter_eq_self.2 fun t ht => decide_eq_true fun heq =>
      hbefore (heq ▸ mem_map_of_mem ht)
  · exact filter_eq_self.2 fun t ht => decide_eq_true fun heq =>
      hafter (heq ▸ mem_map_of_mem ht)

theorem applyDrr_of_nonpos (state : DrrState) (comboName : String) (h : totalWeight targets ≤ 0) :
    (applyDrr state targets comboName).2 = targets := by
  match targets with
  | [] => rfl
  | [_] => rfl
  | _ :: _ :: _ =>
    rw [applyDrr]
    simp only [if_pos h]

theorem applyDrr_perm (state : DrrState) (comboName : String)
    (hkeys : (targets.map ResolvedComboTarget.executionKey).Nodup) :
    (applyDrr state targets comboName).2.Perm targets := by
  by_cases htotal : totalWeight targets ≤ 0
  · rw [applyDrr_of_nonpos state comboName htotal]
  match targets with
  | [] => exact List.Perm.refl _
  | [_] => exact List.Perm.refl _
  | first :: second :: others =>
    obtain ⟨before, winner, after, heq, -, hordered, -⟩ :=
      applyDrr_leader state comboName hkeys (by simp) (not_le.1 htotal)
    rw [heq] at hkeys
    rw [hordered, heq, filter_key_ne hkeys]
    exact perm_middle.symm

theorem chooseOfTwo_perm (ordered : List ResolvedComboTarget)
    (nowMs : ℤ) : (chooseOfTwo inflight ordered nowMs).2.Perm ordered := by
  match ordered with
  | [] => exact List.Perm.refl _
  | [_] => exact List.Perm.refl _
  | first :: second :: others =>
    rw [chooseOfTwo]
    dsimp only
    split
    · exact List.Perm.swap _ _ _
    · exact List.Perm.refl _

/-- The head of the choice of two. -/
theorem chooseOfTwo_head (first second : ResolvedComboTarget)
    (others : List ResolvedComboTarget) (nowMs : ℤ) :
    (chooseOfTwo inflight (first :: second :: others) nowMs).2.head? =
      if loadOf inflight nowMs second < loadOf inflight nowMs first then some second
      else some first := by
  have hsecond : ((inflight.getInflight first.connection nowMs).1.getInflight second.connection
      nowMs).2 = loadOf inflight nowMs second := InflightMap.getInflight_getInflight _ _ _ _
  have hfirst : (inflight.getInflight first.connection nowMs).2 = loadOf inflight nowMs first := rfl
  rw [chooseOfTwo, pickByInflightP2C]
  dsimp only
  rw [hsecond, hfirst]
  by_cases hlt : loadOf inflight nowMs second < loadOf inflight nowMs first
  · rw [if_pos hlt, if_pos (decide_eq_true hlt)]
    rfl
  · rw [if_neg hlt, if_neg (by simpa using hlt)]
    rfl

theorem totalWeight_pos {t : ResolvedComboTarget} (ht : t ∈ targets)
    (hpos : 0 < normalizeWeight t.weight) : 0 < totalWeight targets := by
  rw [totalWeight_eq]
  refine hpos.trans_le (single_le_sum ?_ _ (mem_map_of_mem ht))
  intro w hw
  obtain ⟨u, -, rfl⟩ := mem_map.1 hw
  exact normalizeWeight_nonneg _

/-- The leader of a round is the first target with the most credit. -/
theorem Leads.leadingTarget {credit : ResolvedComboTarget → ℚ}
    {before after : List ResolvedComboTarget} {t : ResolvedComboTarget}
    (h : Leads credit before t after) :
    leadingTarget credit (before ++ t :: after) = some t := by
  rw [QuotaShareStrategy.leadingTarget, find?_eq_some_iff_append]
  refine ⟨all_eq_true.2 fun u hu => decide_eq_true (h.mem_le u hu), before, after, rfl,
    fun u hu => ?_⟩
  rw [Bool.not_eq_true', all_eq_false]
  refine ⟨t, mem_append_right _ mem_cons_self, ?_⟩
  simpa using h.before u hu

/-- The target selected of those with room. -/
theorem chosen_positive_iff (s : State) {room : List ResolvedComboTarget} (comboName : String)
    {inflight : InflightMap} {nowMs : ℤ}
    (hload : ∀ t, loadOf inflight nowMs t = loadOf s.inflight nowMs t)
    (hkeys : (room.map ResolvedComboTarget.executionKey).Nodup)
    (hpos : ∃ t ∈ room, 0 < normalizeWeight t.weight) :
    (∀ t, (chooseOfTwo inflight (applyDrr s.drr room comboName).2 nowMs).2.head? = some t →
      t.weight ≠ some 0) ↔ ChoosesPositive s comboName nowMs room := by
  obtain ⟨u, hu, hupos⟩ := hpos
  match room with
  | [t] =>
    have hlead : leadingTarget (creditOf s.drr comboName [t]) [t] = some t := by
      simp [leadingTarget]
    have hchosen : (chooseOfTwo inflight (applyDrr s.drr [t] comboName).2 nowMs).2.head? =
        some t := rfl
    have hother : [t].find? (fun v => v.executionKey ≠ t.executionKey) = none := by simp
    unfold ChoosesPositive
    rw [hchosen, hlead]
    constructor
    · intro h leader hleader
      cases hleader
      rw [hother]
      exact h t rfl
    · intro h v hv
      cases hv
      have hweight := h t rfl
      rw [hother] at hweight
      exact hweight
  | first :: second :: others =>
    obtain ⟨before, winner, after, heq, hleads, hordered, -⟩ := applyDrr_leader s.drr comboName
      hkeys (by simp) (totalWeight_pos hu hupos)
    have hlead := hleads.leadingTarget
    rw [← heq] at hlead
    have hrest : (first :: second :: others).filter
        (fun t => t.executionKey ≠ winner.executionKey) = before ++ after := by
      rw [heq] at hkeys ⊢
      exact filter_key_ne hkeys
    unfold ChoosesPositive
    rw [hlead, hordered, hrest]
    obtain ⟨other, rest, hcons⟩ : ∃ other rest, before ++ after = other :: rest := by
      rw [← ne_nil_iff_exists_cons]
      intro hnil
      have hlen := congrArg List.length heq
      obtain ⟨hbefore, hafter⟩ := append_eq_nil_iff.1 hnil
      rw [hbefore, hafter] at hlen
      simp at hlen
    have hfind : (first :: second :: others).find?
        (fun t => t.executionKey ≠ winner.executionKey) = some other := by
      rw [← head?_filter, hrest, hcons]
      rfl
    rw [hcons, chooseOfTwo_head, hload, hload]
    constructor
    · intro h leader hleader
      cases hleader
      rw [hfind]
      dsimp only
      split
      · next hlt => exact h other (if_pos hlt)
      · next hlt => exact h winner (if_neg hlt)
    · intro h t ht
      have hchoice := h winner rfl
      rw [hfind] at hchoice
      dsimp only at hchoice
      by_cases hlt : loadOf s.inflight nowMs other < loadOf s.inflight nowMs winner
      · rw [if_pos hlt] at ht hchoice
        cases ht
        exact hchoice
      · rw [if_neg hlt] at ht hchoice
        cases ht
        exact hchoice

/-! ## The selection -/

/-- The selected target, and the order behind it. -/
theorem select_eq (s : State) (comboName modelStr : String) (nowMs : ℤ) (caps : Option Caps)
    (hne : targets ≠ []) (hkeys : (targets.map ResolvedComboTarget.executionKey).Nodup) :
    ∃ winner rest,
      (chooseOfTwo (partitionByConcurrencyCap s.inflight (filterEligibleBySaturation s.buckets
        targets modelStr nowMs).2 caps nowMs).1 (applyDrr s.drr (partitionByConcurrencyCap
          s.inflight (filterEligibleBySaturation s.buckets targets modelStr nowMs).2 caps
          nowMs).2.1 comboName).2 nowMs).2 = winner :: rest ∧
      (selectQuotaShareTarget s targets comboName modelStr nowMs caps).2 =
        ⟨some winner, winner :: rest ++
          (partitionByConcurrencyCap s.inflight (filterEligibleBySaturation s.buckets targets
            modelStr nowMs).2 caps nowMs).2.2 ++
          targets.filter fun t =>
            t ∉ (filterEligibleBySaturation s.buckets targets modelStr nowMs).2⟩ := by
  have hsub := filterEligible_sublist s.buckets targets modelStr nowMs
  obtain ⟨hperm, -, hroom, -⟩ := partition_spec s.inflight (filterEligibleBySaturation s.buckets
    targets modelStr nowMs).2 caps nowMs
  set gated := partitionByConcurrencyCap s.inflight
    (filterEligibleBySaturation s.buckets targets modelStr nowMs).2 caps nowMs
  have hroomy := hroom (eligible_ne_nil s.buckets modelStr nowMs hne)
  have hsubset : (gated.2.1.map ResolvedComboTarget.executionKey).Nodup :=
    (sublist_append_left _ _ |>.map _).nodup
      ((hperm.map _).nodup_iff.2 ((hsub.map _).nodup hkeys))
  have hchosen := (chooseOfTwo_perm gated.1 _ nowMs).trans
    (applyDrr_perm s.drr comboName hsubset)
  unfold selectQuotaShareTarget
  rw [if_neg fun h => hne (length_eq_zero_iff.1 h)]
  dsimp only
  cases hcase : (chooseOfTwo gated.1 (applyDrr s.drr gated.2.1 comboName).2 nowMs).2 with
  | nil =>
    rw [hcase] at hchosen
    exact absurd hchosen.nil_eq.symm hroomy
  | cons winner rest => exact ⟨winner, rest, rfl, rfl⟩

theorem select_perm (s : State) (targets : List ResolvedComboTarget) (comboName modelStr : String)
    (nowMs : ℤ) (caps : Option Caps)
    (hkeys : (targets.map ResolvedComboTarget.executionKey).Nodup) :
    (selectQuotaShareTarget s targets comboName modelStr nowMs caps).2.orderedTargets.Perm
      targets ∧
    (selectQuotaShareTarget s targets comboName modelStr nowMs caps).2.orderedTargets.head? =
      (selectQuotaShareTarget s targets comboName modelStr nowMs caps).2.target := by
  by_cases hne : targets = []
  · rw [hne]
    exact ⟨List.Perm.refl _, rfl⟩
  obtain ⟨winner, rest, hchosen, heq⟩ := select_eq s comboName modelStr nowMs caps hne hkeys
  have hsub := filterEligible_sublist s.buckets targets modelStr nowMs
  obtain ⟨hperm, -, -, -⟩ := partition_spec s.inflight (filterEligibleBySaturation s.buckets
    targets modelStr nowMs).2 caps nowMs
  have hroomkeys := (sublist_append_left _ _ |>.map _).nodup
    ((hperm.map _).nodup_iff.2 ((hsub.map _).nodup hkeys))
  have horder := (chooseOfTwo_perm (partitionByConcurrencyCap s.inflight
    (filterEligibleBySaturation s.buckets targets modelStr nowMs).2 caps nowMs).1 _ nowMs).trans
    (applyDrr_perm s.drr comboName hroomkeys)
  rw [hchosen] at horder
  rw [heq]
  refine ⟨?_, rfl⟩
  exact (((horder.append_right _).trans hperm).append_right _).trans
    (eligible_append_perm hkeys.of_map hsub)

/-- The only target of positive weight has a request in flight, and the disabled one has none. -/
def busyState : State where
  drr := .empty
  buckets := .empty
  inflight := OrdMap.empty.set "conn-a" [200000]

end QuotaShareStrategy

end OmniRoute
