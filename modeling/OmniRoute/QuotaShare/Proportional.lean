import OmniRoute.Lib.CreditRounds
import OmniRoute.QuotaShare.Strategy

/-!
# Proportionality of the deficit round robin

A round of `applyDrr` is a round of credit: a target gains its share of the total weight, and the
first target with the largest deficit pays one.

**Main result (`drr_proportional`).** After any number of rounds from an empty state the deficits
sum to zero and lie above `-1` and below the number of the other targets, and so close is the number
of times a target was ranked first to its share of the rounds.
-/

namespace OmniRoute.QuotaShareStrategy

open List

/-! ## Deficits -/

namespace Deficits

theorem credit_set (d : Deficits) (k k' : String) (v : ℚ) :
    credit (d.set k v) k' = if k' = k then v else credit d k' := by
  unfold Deficits.credit
  rw [OrdMap.get_set]
  split
  · rfl
  · rfl

end Deficits

theorem normalizeWeight_nonneg (weight : Option ℚ) : 0 ≤ normalizeWeight weight := by
  cases weight with
  | none => exact zero_le_one
  | some w =>
    simp only [normalizeWeight]
    by_cases hzero : w = 0
    · rw [if_pos hzero]
    · rw [if_neg hzero]
      by_cases hpos : 0 < w
      · rw [if_pos hpos]
        exact hpos.le
      · rw [if_neg hpos]
        exact zero_le_one

theorem totalWeight_eq (targets : List ResolvedComboTarget) :
    totalWeight targets = (targets.map fun t => normalizeWeight t.weight).sum := by
  have hfold : ∀ (sum : ℚ) (ts : List ResolvedComboTarget),
      ts.foldl (fun sum t => sum + normalizeWeight t.weight) sum =
        sum + (ts.map fun t => normalizeWeight t.weight).sum := by
    intro sum ts
    induction ts generalizing sum with
    | nil => simp
    | cons t ts ih =>
      rw [foldl_cons, ih, map_cons, sum_cons, add_assoc]
  rw [totalWeight, hfold, zero_add]

/-- The deficit of a target that gains its quantum. -/
theorem credit_addQuanta (total : ℚ) {targets : List ResolvedComboTarget}
    (hkeys : (targets.map ResolvedComboTarget.executionKey).Nodup) (d : Deficits) :
    (∀ t ∈ targets, (addQuanta total d targets).credit t.executionKey =
      d.credit t.executionKey + normalizeWeight t.weight / total) ∧
    ∀ k ∉ targets.map ResolvedComboTarget.executionKey,
      (addQuanta total d targets).credit k = d.credit k := by
  induction targets generalizing d with
  | nil => exact ⟨fun t ht => absurd ht not_mem_nil, fun k _ => rfl⟩
  | cons u us ih =>
    rw [map_cons, nodup_cons] at hkeys
    obtain ⟨hmem, hother⟩ := ih hkeys.2 (d.set u.executionKey
      (d.credit u.executionKey + normalizeWeight u.weight / total))
    refine ⟨fun t ht => ?_, fun k hk => ?_⟩
    · rcases mem_cons.1 ht with rfl | ht
      · refine (hother _ hkeys.1).trans ?_
        rw [Deficits.credit_set, if_pos rfl]
      · have hne : t.executionKey ≠ u.executionKey := fun heq =>
          hkeys.1 (heq ▸ mem_map_of_mem ht)
        refine (hmem t ht).trans ?_
        rw [Deficits.credit_set, if_neg hne]
    · rw [map_cons, mem_cons, not_or] at hk
      refine (hother k hk.2).trans ?_
      rw [Deficits.credit_set, if_neg hk.1]

/-! ## The leader -/

/-- The first of the targets with the largest credit. -/
structure Leads (credit : ResolvedComboTarget → ℚ) (before : List ResolvedComboTarget)
    (t : ResolvedComboTarget) (after : List ResolvedComboTarget) : Prop where
  before : ∀ u ∈ before, credit u < credit t
  after : ∀ u ∈ after, credit u ≤ credit t

theorem largestDeficit_leads (d : Deficits) (winner : ResolvedComboTarget)
    (ts : List ResolvedComboTarget) :
    ∃ before after, winner :: ts = before ++ largestDeficit d winner ts :: after ∧
      Leads (fun t => d.credit t.executionKey) before (largestDeficit d winner ts) after := by
  induction ts generalizing winner with
  | nil => exact ⟨[], [], rfl, ⟨nofun, nofun⟩⟩
  | cons t ts ih =>
    rw [largestDeficit]
    by_cases hlt : d.credit winner.executionKey < d.credit t.executionKey
    · rw [if_pos hlt]
      obtain ⟨before, after, heq, hbefore, hafter⟩ := ih t
      refine ⟨winner :: before, after, by rw [heq, cons_append], fun u hu => ?_, hafter⟩
      have ht : d.credit t.executionKey ≤ d.credit (largestDeficit d t ts).executionKey := by
        have hmem : t ∈ before ++ largestDeficit d t ts :: after := heq ▸ mem_cons_self
        rcases mem_append.1 hmem with hmem | hmem
        · exact (hbefore t hmem).le
        · rcases mem_cons.1 hmem with heq' | hmem
          · rw [← heq']
          · exact hafter t hmem
      rcases mem_cons.1 hu with rfl | hu
      · exact hlt.trans_le ht
      · exact hbefore u hu
    · rw [if_neg hlt]
      obtain ⟨before, after, heq, hbefore, hafter⟩ := ih winner
      cases before with
      | nil =>
        obtain ⟨hwinner, hts⟩ := List.cons.inj heq
        rw [← hwinner] at hafter ⊢
        refine ⟨[], t :: ts, rfl, nofun, fun u hu => ?_⟩
        rcases mem_cons.1 hu with rfl | hu
        · exact not_lt.1 hlt
        · exact hafter u (hts ▸ hu)
      | cons b before =>
        obtain ⟨rfl, hts⟩ := List.cons.inj heq
        have hwinner := hbefore winner mem_cons_self
        refine ⟨winner :: t :: before, after, congrArg (winner :: t :: ·) hts, fun u hu => ?_,
          hafter⟩
        rcases mem_cons.1 hu with rfl | hu
        · exact hwinner
        · rcases mem_cons.1 hu with rfl | hu
          · exact (not_lt.1 hlt).trans_lt hwinner
          · exact hbefore u (mem_cons_of_mem _ hu)

theorem Leads.mem_le {credit : ResolvedComboTarget → ℚ} {before after : List ResolvedComboTarget}
    {t : ResolvedComboTarget} (h : Leads credit before t after) :
    ∀ u ∈ before ++ t :: after, credit u ≤ credit t := by
  intro u hu
  rcases mem_append.1 hu with hu | hu
  · exact (h.before u hu).le
  · rcases mem_cons.1 hu with rfl | hu
    · exact le_rfl
    · exact h.after u hu

/-! ## A round -/

/-- The deficit of a target in the state of a combo. -/
def deficitOf (state : DrrState) (comboName : String) (t : ResolvedComboTarget) : ℚ :=
  ((state.get comboName).getD .empty).credit t.executionKey

/-- The deficit of a target once it has gained its quantum. -/
def creditOf (state : DrrState) (comboName : String) (targets : List ResolvedComboTarget)
    (t : ResolvedComboTarget) : ℚ :=
  deficitOf state comboName t + normalizeWeight t.weight / totalWeight targets

theorem getDrrDeficits_credit (state : DrrState) (comboName : String) (t : ResolvedComboTarget) :
    (getDrrDeficits state comboName).2.credit t.executionKey = deficitOf state comboName t := by
  unfold getDrrDeficits deficitOf
  cases state.get comboName with
  | _ => rfl

/-- What a round does: the leader is ranked first and pays one. -/
theorem applyDrr_leader (state : DrrState) {targets : List ResolvedComboTarget}
    (comboName : String) (hkeys : (targets.map ResolvedComboTarget.executionKey).Nodup)
    (hlen : 2 ≤ targets.length) (htotal : 0 < totalWeight targets) :
    ∃ before winner after, targets = before ++ winner :: after ∧
      Leads (creditOf state comboName targets) before winner after ∧
      (applyDrr state targets comboName).2 =
        winner :: targets.filter (fun t => t.executionKey ≠ winner.executionKey) ∧
      ∀ t ∈ targets, deficitOf (applyDrr state targets comboName).1 comboName t =
        creditOf state comboName targets t - if t = winner then 1 else 0 := by
  match targets, hlen with
  | first :: second :: others, _ =>
    set targets := first :: second :: others with htargets
    obtain ⟨hat, -⟩ := credit_addQuanta (totalWeight targets) hkeys
      (getDrrDeficits state comboName).2
    have hcredit : ∀ t ∈ targets,
        (addQuanta (totalWeight targets) (getDrrDeficits state comboName).2
          targets).credit t.executionKey = creditOf state comboName targets t := by
      intro t ht
      rw [hat t ht, getDrrDeficits_credit, creditOf]
    generalize hd : addQuanta (totalWeight targets) (getDrrDeficits state comboName).2 targets =
      d at hcredit
    obtain ⟨before, after, heq, hbefore, hafter⟩ :=
      largestDeficit_leads d first (second :: others)
    rw [← htargets] at heq
    generalize hw : largestDeficit d first (second :: others) = winner at heq hbefore hafter
    have hmem : winner ∈ targets := by
      rw [heq]
      exact mem_append_right _ mem_cons_self
    have hround : applyDrr state targets comboName =
        ((getDrrDeficits state comboName).1.set comboName
          (d.set winner.executionKey (d.credit winner.executionKey - 1)),
        winner :: targets.filter fun t => t.executionKey ≠ winner.executionKey) := by
      rw [htargets, applyDrr]
      simp only [← htargets, if_neg (not_le.2 htotal), hd, hw]
    refine ⟨before, winner, after, heq, ⟨fun u hu => ?_, fun u hu => ?_⟩, ?_, fun t ht => ?_⟩
    · rw [← hcredit u (heq ▸ mem_append_left _ hu), ← hcredit winner hmem]
      exact hbefore u hu
    · rw [← hcredit winner hmem, ← hcredit u (heq ▸ mem_append_right _ (mem_cons_of_mem _ hu))]
      exact hafter u hu
    · rw [hround]
    · rw [hround, deficitOf, OrdMap.get_set_self, Option.getD_some, Deficits.credit_set,
        ← hcredit t ht]
      by_cases hkey : t.executionKey = winner.executionKey
      · rw [if_pos hkey, if_pos (inj_on_of_nodup_map hkeys ht hmem hkey), hkey]
      · rw [if_neg hkey, if_neg fun h => hkey (congrArg _ h), sub_zero]

/-! ## Rounds from an empty state -/

/-- The state after `n` rounds of a combo, and the targets that were ranked first. -/
def drrRounds (targets : List ResolvedComboTarget) (comboName : String) :
    ℕ → DrrState × List ResolvedComboTarget
  | 0 => (.empty, [])
  | n + 1 =>
    let (state, firsts) := drrRounds targets comboName n
    let (state, ordered) := applyDrr state targets comboName
    (state, firsts ++ ordered.head?.toList)

/-- The share of a target in every round. -/
def shareOf (targets : List ResolvedComboTarget) (t : ResolvedComboTarget) : ℚ :=
  normalizeWeight t.weight / totalWeight targets

section Rounds

variable {targets : List ResolvedComboTarget}

theorem shareOf_nonneg (htotal : 0 < totalWeight targets) (t : ResolvedComboTarget) :
    0 ≤ shareOf targets t :=
  div_nonneg (normalizeWeight_nonneg _) htotal.le

theorem sum_shareOf (hnodup : targets.Nodup) (htotal : 0 < totalWeight targets) :
    ∑ t ∈ targets.toFinset, shareOf targets t = 1 := by
  rw [sum_toFinset _ hnodup]
  have hsum : (targets.map (shareOf targets)).sum =
      (targets.map fun t => normalizeWeight t.weight).sum / totalWeight targets := by
    rw [div_eq_mul_inv, ← sum_map_mul_right]
    exact congrArg List.sum (map_congr_left fun t _ => div_eq_mul_inv _ _)
  rw [hsum, ← totalWeight_eq, div_self htotal.ne']

theorem drrRounds_balanced (comboName : String)
    (hkeys : (targets.map ResolvedComboTarget.executionKey).Nodup) (hlen : 2 ≤ targets.length)
    (htotal : 0 < totalWeight targets) (n : ℕ) :
    CreditRounds.Balanced targets.toFinset (shareOf targets) n
      (deficitOf (drrRounds targets comboName n).1 comboName)
      fun t => (drrRounds targets comboName n).2.count t := by
  have hnodup := hkeys.of_map
  induction n with
  | zero => exact CreditRounds.Balanced.start
  | succ n ih =>
    obtain ⟨before, winner, after, heq, hleads, hordered, hdeficit⟩ :=
      applyDrr_leader (drrRounds targets comboName n).1 comboName hkeys hlen htotal
    have hround : CreditRounds.Round targets.toFinset (shareOf targets)
        (deficitOf (drrRounds targets comboName n).1 comboName) winner
        (deficitOf (drrRounds targets comboName (n + 1)).1 comboName) := by
      refine ⟨?_, fun t ht => ?_, fun t ht => hdeficit t (mem_toFinset.1 ht)⟩
      · rw [mem_toFinset, heq]
        exact mem_append_right _ mem_cons_self
      · refine hleads.mem_le t ?_
        rw [← heq]
        exact mem_toFinset.1 ht
    have hcount : (fun t => (drrRounds targets comboName (n + 1)).2.count t) = fun t =>
        (drrRounds targets comboName n).2.count t + if t = winner then 1 else 0 := by
      funext t
      have hfirsts : (drrRounds targets comboName (n + 1)).2 =
          (drrRounds targets comboName n).2 ++
            (applyDrr (drrRounds targets comboName n).1 targets comboName).2.head?.toList := rfl
      rw [hfirsts, hordered, head?_cons, Option.toList_some, count_append, count_singleton]
      by_cases heq' : t = winner
      · rw [if_pos heq', heq', if_pos (beq_self_eq_true winner)]
      · rw [if_neg heq', if_neg (by simpa using Ne.symm heq')]
    rw [hcount]
    exact ih.round (fun t _ => shareOf_nonneg htotal t) (sum_shareOf hnodup htotal) hround

end Rounds

theorem drr_proportional (targets : List ResolvedComboTarget) (comboName : String) (n : ℕ)
    (hkeys : (targets.map ResolvedComboTarget.executionKey).Nodup) (hlen : 2 ≤ targets.length)
    (htotal : 0 < totalWeight targets) :
    (targets.map (deficitOf (drrRounds targets comboName n).1 comboName)).sum = 0 ∧
    ∀ t ∈ targets,
      -1 < deficitOf (drrRounds targets comboName n).1 comboName t ∧
      deficitOf (drrRounds targets comboName n).1 comboName t < targets.length - 1 ∧
      |((drrRounds targets comboName n).2.count t : ℚ) -
        n * (normalizeWeight t.weight / totalWeight targets)| < targets.length - 1 ∧
      (normalizeWeight t.weight = 0 → (drrRounds targets comboName n).2.count t = 0) := by
  have hnodup := hkeys.of_map
  have hbalanced := drrRounds_balanced comboName hkeys hlen htotal n
  have hcard : targets.toFinset.card = targets.length := toFinset_card_of_nodup hnodup
  have htwo : 2 ≤ targets.toFinset.card := hcard ▸ hlen
  refine ⟨?_, fun t ht => ?_⟩
  · rw [← sum_toFinset _ hnodup]
    exact hbalanced.sum
  · have hmem := mem_toFinset.2 ht
    have hlt := hbalanced.credit_lt htwo hmem
    have hcount := hbalanced.served_sub_lt htwo hmem
    rw [hcard] at hlt hcount
    refine ⟨hbalanced.gt t hmem, hlt, hcount, fun hzero => hbalanced.unserved t hmem ?_⟩
    rw [shareOf, hzero, zero_div]

/-- Three targets of weights 3, 1 and 0 over four rounds. -/
theorem drr_proportional_threeToOne :
    (drrRounds [⟨"a", none, some 3⟩, ⟨"b", none, some 1⟩, ⟨"c", none, some 0⟩] "qs" 4).2.count
      ⟨"c", none, some 0⟩ = 0 :=
  ((drr_proportional [⟨"a", none, some 3⟩, ⟨"b", none, some 1⟩, ⟨"c", none, some 0⟩] "qs" 4
    (by decide) (by decide) (by decide +kernel)).2 ⟨"c", none, some 0⟩ (by decide)).2.2.2
    (by decide +kernel)

end OmniRoute.QuotaShareStrategy
