import OmniRoute.Combos.KeyedExpand

/-!
# Expansion without loss

Whether the two expansions of a validated combo have a target for every path of references from the
combo to a model, and every execution key once.

**Main result (`expansion_lossless_iff`).** They have exactly when no two paths spell the same key,
no step that another one of its id takes the place of has a model below it, and no two steps of the
combo itself with models below them have one id. Ids that users give break each of these.
-/

namespace OmniRoute.ComboKeys

open Combo Firsts List Option RefGraph

/-! ## Collections -/

/-- A collection as the schemas of the routes let it in. -/
structure KeyedCollection where
  combos : List KeyedCombo
  trimmed : ∀ c ∈ combos, toTrimmedString (some c.name) = some c.name
  distinct : (combos.map KeyedCombo.name).Nodup
  no_wildcards : ∀ c ∈ combos, ∀ e ∈ c.models, e.entry.isWildcard = false

namespace KeyedCollection

variable (coll : KeyedCollection)

/-- The collection without ids, weights and tiers. -/
def plain : Collection where
  combos := coll.combos.map KeyedCombo.plain
  trimmed := by
    intro c hc
    obtain ⟨k, hk, rfl⟩ := List.mem_map.1 hc
    exact coll.trimmed k hk
  distinct := by
    rw [List.map_map]
    exact coll.distinct
  no_wildcards := by
    intro c hc entry hentry
    obtain ⟨k, hk, rfl⟩ := List.mem_map.1 hc
    obtain ⟨e, he, rfl⟩ := List.mem_map.1 hentry
    exact coll.no_wildcards k hk e he

theorem getCombosArray_eq : getCombosArray coll.combos = coll.combos := by
  have hid : ∀ c ∈ coll.combos, toComboLike c = c := fun c hc => by
    rw [toComboLike, coll.trimmed c hc]
    rfl
  rw [getCombosArray, map_congr_left hid, List.map_id']

def names : List String := collectComboNames coll.combos

theorem mem_of_find {name : String} {c : KeyedCombo} (h : findCombo coll.combos name = some c) :
    c ∈ coll.combos ∧ c.name = name :=
  ⟨mem_of_find?_eq_some h, by simpa using find?_some h⟩

theorem find_plain (name : String) :
    coll.plain.find name = (findCombo coll.combos name).map KeyedCombo.plain := by
  unfold Collection.find Combo.findCombo findCombo
  rw [plain, find?_map]
  rfl

theorem find_name {c : KeyedCombo} (hc : c ∈ coll.combos) : findCombo coll.combos c.name = some c :=
  find?_key coll.distinct hc

/-! ## Places and paths -/

/-- A combo, with the ids and the places of the entries that lead to it. -/
structure Place where
  combo : KeyedCombo
  path : List String
  origin : List ℕ

/-- A combo itself. -/
def Place.root (combo : KeyedCombo) : Place := ⟨combo, [], []⟩

/-- The steps of the combo, in the order of its entries. -/
def steps (p : Place) : List KeyedStep := getTopLevelRuntimeSteps p.combo coll.names p.path

/-- The steps after the tiers have ordered them. -/
def keptSteps (p : Place) : List KeyedStep :=
  getOrderedTopLevelRuntimeSteps p.combo coll.names p.path

/-- The step refers to the combo of the second place. -/
def EntersBy (p : Place) (s : KeyedStep) (q : Place) : Prop :=
  ∃ name label fallback, s.step = .comboRef name label fallback ∧
    findCombo coll.combos name = some q.combo ∧ q.path = p.path ++ [s.stepId] ∧
    q.origin = p.origin ++ [s.index]

def Enters (p q : Place) : Prop := ∃ s ∈ coll.steps p, coll.EntersBy p s q

/-- A path along these steps, from a combo to a model. -/
inductive PathTarget (list : Place → List KeyedStep) : Place → KeyedTarget → Prop
  | model {p s target} : s ∈ list p → s.step = .model target →
      PathTarget list p (s.toTarget p.origin target)
  | ref {p s q t} : s ∈ list p → coll.EntersBy p s q → PathTarget list q t → PathTarget list p t

/-- A path that begins with this step. -/
def Below (list : Place → List KeyedStep) (p : Place) (s : KeyedStep) (t : KeyedTarget) : Prop :=
  (∃ target, s.step = .model target ∧ t = s.toTarget p.origin target) ∨
    ∃ q, coll.EntersBy p s q ∧ coll.PathTarget list q t

variable {coll}

variable {t : KeyedTarget} {p : Place} {list : Place → List KeyedStep}

theorem pathTarget_iff_below : coll.PathTarget list p t ↔ ∃ s ∈ list p, coll.Below list p s t := by
  constructor
  · intro h
    cases h with
    | model hs hstep => exact ⟨_, hs, .inl ⟨_, hstep, rfl⟩⟩
    | ref hs henters ht => exact ⟨_, hs, .inr ⟨_, henters, ht⟩⟩
  · rintro ⟨s, hs, ⟨target, hstep, rfl⟩ | ⟨q, henters, ht⟩⟩
    · exact .model hs hstep
    · exact .ref hs henters ht

variable {s : KeyedStep}

theorem mem_keptSteps :
    s ∈ coll.keptSteps p ↔ s ∈ coll.steps p ∧
      ¬PassedOver (coll.steps p) (getCompositeTierStepOrder p.combo) s :=
  mem_ordered_iff (sorted_topLevelSteps p.combo coll.names p.path)

theorem PathTarget.mono {list' : Place → List KeyedStep} (hsub : ∀ p, list p ⊆ list' p)
    (h : coll.PathTarget list p t) : coll.PathTarget list' p t := by
  induction h with
  | model hs hstep => exact .model (hsub _ hs) hstep
  | ref hs henters _ ih => exact .ref (hsub _ hs) henters ih

/-- A path begins where it says. -/
theorem PathTarget.origin_prefix (h : coll.PathTarget list p t) :
    ∃ rest, t.origin = p.origin ++ rest := by
  induction h with
  | model hs hstep => exact ⟨_, rfl⟩
  | @ref p s q t hs henters _ ih =>
    obtain ⟨_, _, _, _, _, _, horigin⟩ := henters
    obtain ⟨rest, hrest⟩ := ih
    exact ⟨s.index :: rest, by rw [hrest, horigin, append_assoc]; rfl⟩

theorem Below.origin_prefix (h : coll.Below list p s t) :
    ∃ rest, t.origin = p.origin ++ s.index :: rest := by
  rcases h with ⟨target, -, rfl⟩ | ⟨q, ⟨_, _, _, _, _, _, horigin⟩, ht⟩
  · exact ⟨[], rfl⟩
  · obtain ⟨rest, hrest⟩ := ht.origin_prefix
    exact ⟨rest, by rw [hrest, horigin, append_assoc]; rfl⟩

/-- Steps of a combo are told apart by their places. -/
theorem steps_inj {s' : KeyedStep} (hs : s ∈ coll.steps p) (hs' : s' ∈ coll.steps p)
    (h : s.index = s'.index) : s = s' := by
  have hnodup : ((coll.steps p).map KeyedStep.index).Nodup :=
    pairwise_map.2 ((sorted_topLevelSteps p.combo coll.names p.path).imp Nat.ne_of_lt)
  exact inj_on_of_nodup_map hnodup hs hs' h

/-- The target tells the step. -/
theorem index_of_origin {i j : ℕ} {rest rest' : List ℕ} (h : t.origin = p.origin ++ i :: rest)
    (h' : t.origin = p.origin ++ j :: rest') : i = j := by
  rw [h] at h'
  exact (List.cons.inj (append_cancel_left h')).1

theorem Below.step_unique {list' : Place → List KeyedStep} {s' : KeyedStep} (hs : s ∈ coll.steps p)
    (hs' : s' ∈ coll.steps p) (h : coll.Below list p s t) (h' : coll.Below list' p s' t) :
    s = s' := by
  obtain ⟨rest, hrest⟩ := h.origin_prefix
  obtain ⟨rest', hrest'⟩ := h'.origin_prefix
  exact steps_inj hs hs' (index_of_origin hrest hrest')

theorem EntersBy.unique {q q' : Place} (h : coll.EntersBy p s q) (h' : coll.EntersBy p s q') :
    q = q' := by
  obtain ⟨name, _, _, hstep, hfind, hpath, horigin⟩ := h
  obtain ⟨name', _, _, hstep', hfind', hpath', horigin'⟩ := h'
  rw [hstep] at hstep'
  injection hstep' with hname
  subst hname
  rw [hfind] at hfind'
  cases q
  cases q'
  simp_all

/-! ## The expansions, path by path -/

theorem step_of_mem (hs : s ∈ coll.steps p) :
    ∃ e ∈ p.combo.models,
      Combo.normalizeRuntimeStep e.entry p.combo.name coll.names = some s.step := by
  obtain ⟨⟨e, index⟩, hmem, hnorm⟩ := mem_filterMap.1 hs
  refine ⟨e, (mem_zipIdx' hmem).2 ▸ getElem_mem _, ?_⟩
  unfold normalizeRuntimeStep at hnorm
  dsimp only at hnorm
  split at hnorm
  · next hstep => rw [hstep, ← some.inj hnorm]
  · cases hnorm

/-- A step leads to a combo that is referred to. -/
theorem EntersBy.refs {q : Place} (hp : p.combo ∈ coll.combos) (hs : s ∈ coll.steps p)
    (h : coll.EntersBy p s q) :
    q.combo ∈ coll.combos ∧ q.combo.name ∈ coll.plain.runtimeRefs p.combo.name := by
  obtain ⟨name, label, fallback, hstep, hfind, -, -⟩ := h
  obtain ⟨hmem, hname⟩ := coll.mem_of_find hfind
  refine ⟨hmem, (mem_refs _ _).2 ?_⟩
  obtain ⟨e, he, hnorm⟩ := step_of_mem hs
  have hplain : coll.plain.find p.combo.name = some p.combo.plain := by
    rw [coll.find_plain, coll.find_name hp]
    rfl
  refine ⟨e.entry, ?_, ?_⟩
  · rw [coll.plain.entries_of_find hplain]
    exact List.mem_map_of_mem he
  · have hnorm' : Combo.normalizeRuntimeStep e.entry p.combo.name
        (Combo.collectComboNames coll.plain.combos) = some s.step := hnorm
    have hsome : (coll.plain.find name).isSome = true := by
      rw [coll.find_plain, hfind]
      rfl
    rw [Collection.readStep, hnorm', hstep]
    dsimp only
    rw [if_pos hsome, hname]

/-- The walk of the references of typed steps. -/
def Fits (left : ℕ) (visited : List String) (name : String) : Prop :=
  check (refs coll.plain.entries coll.plain.readStep) left visited name = true

theorem mem_expandRuntimeStep {left : ℕ} {visited : List String} (hp : p.combo ∈ coll.combos)
    (hfits : ∀ j ∈ coll.plain.runtimeRefs p.combo.name, coll.Fits left visited j)
    (hresolve : ∀ q : Place, q.combo ∈ coll.combos → coll.Fits left visited q.combo.name →
      ∀ t, t ∈ resolveNestedComboTargets left coll.combos visited q.path q.origin q.combo ↔
        coll.PathTarget coll.keptSteps q t) (hs : s ∈ coll.steps p) (t : KeyedTarget) :
    t ∈ expandRuntimeStep (resolveNestedComboTargets left coll.combos) coll.combos visited p.path
      p.origin s ↔ coll.Below coll.keptSteps p s t := by
  unfold expandRuntimeStep Below
  cases hstep : s.step with
  | model target =>
    rw [mem_singleton]
    constructor
    · exact fun h => .inl ⟨target, rfl, h⟩
    · rintro (⟨target', heq, h⟩ | ⟨q, ⟨_, _, _, hstep', _⟩, -⟩)
      · injection heq with heq
        rw [h, heq]
      · rw [hstep] at hstep'
        cases hstep'
  | comboRef name label fallback =>
    dsimp only
    cases hfind : findCombo coll.combos name with
    | none =>
      refine iff_of_false not_mem_nil ?_
      rintro (⟨_, heq, -⟩ | ⟨q, ⟨_, _, _, hstep', hfind', _⟩, -⟩)
      · cases heq
      · rw [hstep] at hstep'
        injection hstep' with hname
        rw [← hname, hfind] at hfind'
        cases hfind'
    | some nestedCombo =>
      have henters : coll.EntersBy p s
          ⟨nestedCombo, p.path ++ [s.stepId], p.origin ++ [s.index]⟩ :=
        ⟨name, label, fallback, hstep, hfind, rfl, rfl⟩
      obtain ⟨hmem, href⟩ := henters.refs hp hs
      have hcheck := hfits _ href
      have hname := (coll.mem_of_find hfind).2
      have hnot : name ∉ visited := by
        rw [← hname]
        cases left with
        | zero => cases hcheck
        | succ left => exact (check_succ.1 hcheck).1
      dsimp only
      rw [if_neg hnot]
      have hiff := hresolve ⟨nestedCombo, p.path ++ [s.stepId], p.origin ++ [s.index]⟩ hmem hcheck t
      rw [hiff]
      constructor
      · exact fun h => .inr ⟨_, henters, h⟩
      · rintro (⟨_, heq, -⟩ | ⟨q, hq, h⟩)
        · cases heq
        · rw [henters.unique hq]
          exact h

/-- Where the walk succeeds the expansion follows the kept steps. -/
theorem mem_resolveNested {left : ℕ} {visited : List String} (hp : p.combo ∈ coll.combos)
    (hfits : coll.Fits left visited p.combo.name) (t : KeyedTarget) :
    t ∈ resolveNestedComboTargets left coll.combos visited p.path p.origin p.combo ↔
      coll.PathTarget coll.keptSteps p t := by
  induction left generalizing visited p t with
  | zero => cases hfits
  | succ left ih =>
    obtain ⟨hnot, hrefs⟩ := check_succ.1 hfits
    rw [resolveNestedComboTargets, if_neg hnot, coll.getCombosArray_eq, mem_flatMap,
      pathTarget_iff_below]
    refine exists_congr fun s => and_congr_right fun hs => ?_
    exact mem_expandRuntimeStep hp hrefs (fun q hq hfits t => ih hq hfits t)
      (mem_keptSteps.1 hs).1 t

/-- No target is there twice. -/
theorem nodup_resolveNested {left : ℕ} {visited : List String} (hp : p.combo ∈ coll.combos)
    (hfits : coll.Fits left visited p.combo.name) :
    (resolveNestedComboTargets left coll.combos visited p.path p.origin p.combo).Nodup := by
  induction left generalizing visited p with
  | zero => cases hfits
  | succ left ih =>
    obtain ⟨hnot, hrefs⟩ := check_succ.1 hfits
    have hmem : ∀ s ∈ coll.keptSteps p, ∀ t, t ∈ expandRuntimeStep
        (resolveNestedComboTargets left coll.combos) coll.combos (p.combo.name :: visited) p.path
          p.origin s ↔ coll.Below coll.keptSteps p s t := fun s hs t =>
      mem_expandRuntimeStep hp hrefs (fun q hq hfits t => mem_resolveNested hq hfits t)
        (mem_keptSteps.1 hs).1 t
    rw [resolveNestedComboTargets, if_neg hnot, coll.getCombosArray_eq]
    refine nodup_flatMap.2 ⟨fun s hs => ?_, ?_⟩
    · unfold expandRuntimeStep
      split
      · exact nodup_singleton _
      · next name label fallback hstep =>
        split
        · exact nodup_nil
        · next nestedCombo hfind =>
          split
          · exact nodup_nil
          · have henters : coll.EntersBy p s
                ⟨nestedCombo, p.path ++ [s.stepId], p.origin ++ [s.index]⟩ :=
              ⟨name, label, fallback, hstep, hfind, rfl, rfl⟩
            obtain ⟨hq, href⟩ := henters.refs hp (mem_keptSteps.1 hs).1
            exact ih hq (hrefs _ href)
    · have hnodup : (coll.keptSteps p).Nodup :=
        nodup_ordered (sorted_topLevelSteps p.combo coll.names p.path) _
      refine hnodup.imp_of_mem fun {s s'} hs hs' hne t ht ht' => hne ?_
      exact Below.step_unique (mem_keptSteps.1 hs).1 (mem_keptSteps.1 hs').1
        ((hmem s hs t).1 ht) ((hmem s' hs' t).1 ht')

/-! ## Loss by tiers -/

variable (coll) in
/-- No step that another one takes the place of has a model below it. -/
def NothingPassedOver (root : KeyedCombo) : Prop :=
  ∀ p, Relation.ReflTransGen coll.Enters (.root root) p → ∀ s ∈ coll.steps p,
    PassedOver (coll.steps p) (getCompositeTierStepOrder p.combo) s →
      ∀ t, ¬coll.Below coll.steps p s t

theorem PathTarget.kept (h : coll.PathTarget coll.steps p t)
    (hnothing : ∀ q, Relation.ReflTransGen coll.Enters p q → ∀ s ∈ coll.steps q,
      PassedOver (coll.steps q) (getCompositeTierStepOrder q.combo) s →
        ∀ t, ¬coll.Below coll.steps q s t) : coll.PathTarget coll.keptSteps p t := by
  induction h with
  | @model p s target hs hstep =>
    have hkept : s ∈ coll.keptSteps p :=
      mem_keptSteps.2 ⟨hs, fun hpassed => hnothing p .refl s hs hpassed _ (.inl ⟨_, hstep, rfl⟩)⟩
    exact .model hkept hstep
  | @ref p s q t hs henters ht ih =>
    have hkept : s ∈ coll.keptSteps p :=
      mem_keptSteps.2 ⟨hs, fun hpassed => hnothing p .refl s hs hpassed t (.inr ⟨q, henters, ht⟩)⟩
    exact .ref hkept henters (ih fun r hr => hnothing r (.head ⟨s, hs, henters⟩ hr))

/-- Where every path is kept, the paths from every combo that is reached are. -/
theorem kept_of_reached {root : Place}
    (hroot : ∀ t, coll.PathTarget coll.steps root t → coll.PathTarget coll.keptSteps root t)
    (hreached : Relation.ReflTransGen coll.Enters root p) (h : coll.PathTarget coll.steps p t) :
    coll.PathTarget coll.keptSteps p t := by
  induction hreached generalizing t with
  | refl => exact hroot t h
  | @tail p q _ henters ih =>
    obtain ⟨s, hs, henters⟩ := henters
    obtain ⟨s', hs', hbelow⟩ := pathTarget_iff_below.1 (ih (.ref hs henters h))
    have hsame : s = s' := Below.step_unique hs (mem_keptSteps.1 hs').1 (.inr ⟨q, henters, h⟩) hbelow
    subst hsame
    rcases hbelow with ⟨target, hstep, -⟩ | ⟨q', henters', ht⟩
    · obtain ⟨_, _, _, hstep', -⟩ := henters
      rw [hstep] at hstep'
      cases hstep'
    · rw [henters.unique henters']
      exact ht

variable {root : KeyedCombo}

theorem nothingPassedOver_iff :
    coll.NothingPassedOver root ↔ ∀ t, coll.PathTarget coll.steps (.root root) t →
      coll.PathTarget coll.keptSteps (.root root) t := by
  constructor
  · exact fun h t ht => ht.kept h
  · intro hkept p hreached s hs hpassed t hbelow
    have ht := kept_of_reached hkept hreached (pathTarget_iff_below.2 ⟨s, hs, hbelow⟩)
    obtain ⟨s', hs', hbelow'⟩ := pathTarget_iff_below.1 ht
    obtain ⟨hmem, hnot⟩ := mem_keptSteps.1 hs'
    have hsame := Below.step_unique hs hmem hbelow hbelow'
    exact hnot (hsame ▸ hpassed)

theorem PathTarget.of_kept (h : coll.PathTarget coll.keptSteps p t) :
    coll.PathTarget coll.steps p t :=
  h.mono fun _ _ hs => (mem_keptSteps.1 hs).1

/-- What is reached is in the collection. -/
theorem mem_of_reached {q : Place} (hp : p.combo ∈ coll.combos)
    (h : Relation.ReflTransGen coll.Enters p q) : q.combo ∈ coll.combos := by
  induction h with
  | refl => exact hp
  | tail _ henters _ =>
    obtain ⟨s, -, _, _, _, -, hfind, -⟩ := henters
    exact (coll.mem_of_find hfind).1

/-- Without tiers no step takes the place of another one. -/
theorem nothingPassedOver_of_no_tiers (hroot : root ∈ coll.combos)
    (h : ∀ c ∈ coll.combos, getCompositeTierStepOrder c = []) : coll.NothingPassedOver root :=
  fun _ hreached _ _ hpassed => absurd (h _ (mem_of_reached (p := .root root) hroot hreached))
    hpassed.1

/-! ## Loss in the weighted resolution -/

theorem executionKey_root (hs : s ∈ coll.steps (.root root)) : s.executionKey = s.stepId := by
  obtain ⟨⟨e, index⟩, -, hnorm⟩ := mem_filterMap.1 hs
  unfold normalizeRuntimeStep at hnorm
  dsimp only at hnorm
  split at hnorm
  · rw [← some.inj hnorm]
    rfl
  · cases hnorm

section Weighted

variable (coll) in
/-- What is below a step of the combo itself, by the weighted resolution. -/
def stepTargets (root : KeyedCombo) (s : KeyedStep) : List KeyedTarget :=
  expandRuntimeStep (resolveNestedComboTargets maxComboDepth coll.combos) coll.combos [root.name]
    [] [] s

variable (coll) in
/-- `targetsByStep` -/
def targetsByStep (root : KeyedCombo) : OrdMap String (List KeyedTarget) :=
  OrdMap.ofList ((resolveWeightedStepGroups (fun _ => true) root coll.combos).map fun group =>
    (group.1.executionKey, group.2))

theorem mem_groups (group : KeyedStep × List KeyedTarget) :
    group ∈ resolveWeightedStepGroups (fun _ => true) root coll.combos ↔
      group.1 ∈ coll.keptSteps (.root root) ∧ group.2 = coll.stepTargets root group.1 ∧
        group.2 ≠ [] := by
  unfold resolveWeightedStepGroups
  rw [mem_filter, List.mem_map, coll.getCombosArray_eq]
  simp only [filter_true, Bool.not_eq_true', isEmpty_eq_false_iff]
  constructor
  · rintro ⟨⟨s, hs, rfl⟩, hne⟩
    exact ⟨hs, rfl, hne⟩
  · rintro ⟨hs, htargets, hne⟩
    exact ⟨⟨group.1, hs, Prod.ext rfl htargets.symm⟩, hne⟩

/-- A key has the targets of one of its steps. -/
theorem targetsByStep_some {key : String} {targets : List KeyedTarget}
    (h : (coll.targetsByStep root).get key = some targets) :
    ∃ s ∈ coll.keptSteps (.root root), s.executionKey = key ∧
      targets = coll.stepTargets root s ∧ targets ≠ [] := by
  rw [targetsByStep, OrdMap.get_ofList] at h
  obtain ⟨⟨k, ts⟩, hfind, rfl⟩ := map_eq_some_iff.1 h
  have hkey : k = key := by simpa using find?_some hfind
  obtain ⟨group, hgroup, heq⟩ := List.mem_map.1 (mem_reverse.1 (mem_of_find?_eq_some hfind))
  obtain ⟨rfl, rfl⟩ := Prod.mk.inj heq
  obtain ⟨hs, htargets, hne⟩ := (mem_groups group).1 hgroup
  exact ⟨group.1, hs, hkey, htargets, hne⟩

theorem targetsByStep_ne_none {s : KeyedStep}
    (hs : s ∈ coll.keptSteps (.root root)) (hne : coll.stepTargets root s ≠ []) :
    ∃ targets, (coll.targetsByStep root).get s.executionKey = some targets := by
  rw [targetsByStep, OrdMap.get_ofList]
  have hgroup := (mem_groups (s, coll.stepTargets root s)).2 ⟨hs, rfl, hne⟩
  have hmem := mem_reverse.2 (List.mem_map_of_mem
    (f := fun group : KeyedStep × List KeyedTarget => (group.1.executionKey, group.2)) hgroup)
  have hfind := find?_isSome (p := fun p : String × List KeyedTarget => p.1 = s.executionKey).2
    ⟨_, hmem, decide_eq_true rfl⟩
  obtain ⟨found, hfound⟩ := isSome_iff_exists.1 hfind
  exact ⟨found.2, by rw [hfound]; rfl⟩

/-- The resolution takes the targets of the keys of all steps, in some order. -/
theorem orderedTargets_eq (coll : KeyedCollection) (root : KeyedCombo) (draws : Draws)
    (preferred : Option String) :
    ∃ ordered : List KeyedStep, (∀ s ∈ ordered, s ∈ coll.keptSteps (.root root)) ∧
      (∀ s ∈ coll.keptSteps (.root root), ∃ s' ∈ ordered, s'.executionKey = s.executionKey) ∧
      (resolveWeightedTargets draws (fun _ => true) root coll.combos preferred none).orderedTargets =
        firsts KeyedTarget.executionKey (ordered.flatMap fun s =>
          ((coll.targetsByStep root).get s.executionKey).getD []) := by
  have hall : (getOrderedTopLevelRuntimeSteps root (collectComboNames coll.combos) []).filter
      (fun _ => true) = coll.keptSteps (.root root) := filter_true _
  unfold resolveWeightedTargets
  dsimp only
  rw [hall]
  split
  · next hnone =>
    have hnil : coll.keptSteps (.root root) = [] := by
      by_contra hne
      obtain ⟨s, hs⟩ := exists_selected draws hne
      rw [hs, or_some] at hnone
      cases hnone
    rw [hnil]
    exact ⟨[], fun s hs => hs, fun s hs => (by cases hs), rfl⟩
  · next selected hsome =>
    exact ⟨_, fun s hs => mem_fallbackOrder hs, fun s hs => exists_mem_fallbackOrder _ _ hs, rfl⟩

theorem mem_stepTargets (hroot : root ∈ coll.combos)
    (hfits : coll.Fits (maxComboDepth + 1) [] root.name) {s : KeyedStep}
    (hs : s ∈ coll.steps (.root root)) (t : KeyedTarget) :
    t ∈ coll.stepTargets root s ↔ coll.Below coll.keptSteps (.root root) s t :=
  mem_expandRuntimeStep (p := .root root) hroot (check_succ.1 hfits).2
    (fun _ hq hfits t => mem_resolveNested hq hfits t) hs t

end Weighted

/-! ## Exactly when -/

variable (coll) in
/-- Every execution key once, and a target for every path. -/
structure Lossless (root : KeyedCombo) (targets : List KeyedTarget) : Prop where
  distinct : (targets.map KeyedTarget.executionKey).Nodup
  complete : ∀ t, t ∈ targets ↔ coll.PathTarget coll.steps (.root root) t

variable (coll) in
/-- No two paths spell the same key. -/
def KeysApart (root : KeyedCombo) : Prop :=
  ∀ t t', coll.PathTarget coll.steps (.root root) t → coll.PathTarget coll.steps (.root root) t' →
    t.executionKey = t'.executionKey → t = t'

variable (coll) in
/-- No two steps of the combo itself with models below them have one id. -/
def StepsApart (root : KeyedCombo) : Prop :=
  ∀ s ∈ coll.steps (.root root), ∀ s' ∈ coll.steps (.root root), s.stepId = s'.stepId →
    (∃ t, coll.Below coll.steps (.root root) s t) →
    (∃ t, coll.Below coll.steps (.root root) s' t) → s = s'

theorem Below.of_kept (h : coll.Below coll.keptSteps p s t) : coll.Below coll.steps p s t := by
  rcases h with h | ⟨q, henters, ht⟩
  · exact .inl h
  · exact .inr ⟨q, henters, ht.of_kept⟩

/-- A list of targets with distinct origins and keys tells its targets apart. -/
theorem Lossless.keysApart {targets : List KeyedTarget}
    (h : coll.Lossless root targets) : coll.KeysApart root := fun t t' ht ht' hkey =>
  inj_on_of_nodup_map h.distinct ((h.complete t).2 ht) ((h.complete t').2 ht') hkey

section Exact

variable {root : KeyedCombo} (hroot : root ∈ coll.combos)

include hroot

theorem nested_lossless_iff {left : ℕ} (hfits : coll.Fits left [] root.name) :
    coll.Lossless root (resolveNestedComboTargets left coll.combos [] [] [] root) ↔
      coll.KeysApart root ∧ coll.NothingPassedOver root := by
  have hmem := mem_resolveNested (p := .root root) hroot hfits
  constructor
  · intro h
    exact ⟨h.keysApart, nothingPassedOver_iff.2 fun t ht => (hmem t).1 ((h.complete t).2 ht)⟩
  · rintro ⟨hkeys, hnothing⟩
    have hcomplete : ∀ t, t ∈ resolveNestedComboTargets left coll.combos [] [] [] root ↔
        coll.PathTarget coll.steps (.root root) t := fun t =>
      ⟨fun ht => ((hmem t).1 ht).of_kept, fun ht => (hmem t).2 (nothingPassedOver_iff.1 hnothing t ht)⟩
    refine ⟨?_, hcomplete⟩
    have hnodup : (resolveNestedComboTargets left coll.combos [] [] [] root).Nodup :=
      nodup_resolveNested (p := .root root) hroot hfits
    rw [nodup_map_iff_inj_on hnodup]
    exact fun t ht t' ht' hkey => hkeys t t' ((hcomplete t).1 ht) ((hcomplete t').1 ht') hkey

theorem weighted_lossless (hfits : coll.Fits (maxComboDepth + 1) [] root.name)
    (hkeys : coll.KeysApart root) (hnothing : coll.NothingPassedOver root)
    (hsteps : coll.StepsApart root) (draws : Draws) (preferred : Option String) :
    coll.Lossless root (resolveWeightedTargets draws (fun _ => true) root coll.combos preferred
      none).orderedTargets := by
  obtain ⟨ordered, hsub, hall, heq⟩ := orderedTargets_eq coll root draws preferred
  rw [heq]
  -- Every target that is taken is at the end of a path.
  have hsound : ∀ t ∈ ordered.flatMap (fun s =>
      ((coll.targetsByStep root).get s.executionKey).getD []),
        coll.PathTarget coll.steps (.root root) t := by
    intro t ht
    obtain ⟨s, -, ht⟩ := mem_flatMap.1 ht
    cases hget : (coll.targetsByStep root).get s.executionKey with
    | none =>
      rw [hget] at ht
      cases ht
    | some targets =>
      rw [hget, getD_some] at ht
      obtain ⟨s', hs', -, htargets, -⟩ := targetsByStep_some hget
      have hs'' := (mem_keptSteps.1 hs').1
      rw [htargets, mem_stepTargets hroot hfits hs''] at ht
      exact pathTarget_iff_below.2 ⟨s', hs'', ht.of_kept⟩
  refine ⟨nodup_firsts _, fun t => ⟨fun ht => hsound t (mem_of_mem_firsts ht), fun ht => ?_⟩⟩
  -- The step of a path is kept, and no other step has its key and models below it.
  obtain ⟨s, hs, hbelow⟩ := pathTarget_iff_below.1 (nothingPassedOver_iff.1 hnothing t ht)
  have hs' := (mem_keptSteps.1 hs).1
  have htarget := (mem_stepTargets hroot hfits hs' t).2 hbelow
  obtain ⟨targets, hget⟩ := targetsByStep_ne_none hs (ne_nil_of_mem htarget)
  obtain ⟨found, hfound, hkey, htargets, hne⟩ := targetsByStep_some hget
  have hfound' := (mem_keptSteps.1 hfound).1
  obtain ⟨t', ht'⟩ := exists_mem_of_ne_nil _ hne
  rw [htargets, mem_stepTargets hroot hfits hfound'] at ht'
  rw [executionKey_root hfound', executionKey_root hs'] at hkey
  have hsame := hsteps found hfound' s hs' hkey ⟨t', ht'.of_kept⟩ ⟨t, hbelow.of_kept⟩
  obtain ⟨s₁, hs₁, hkey₁⟩ := hall s hs
  have hmem : t ∈ ordered.flatMap (fun s =>
      ((coll.targetsByStep root).get s.executionKey).getD []) := by
    refine mem_flatMap.2 ⟨s₁, hs₁, ?_⟩
    rw [hkey₁, hget, getD_some, htargets, hsame]
    exact htarget
  obtain ⟨t₁, ht₁, hkey'⟩ : ∃ t₁ ∈ firsts KeyedTarget.executionKey _,
      t₁.executionKey = t.executionKey := exists_mem_firsts hmem
  have hsame' := hkeys t₁ t (hsound t₁ (mem_of_mem_firsts ht₁)) ht hkey'
  exact hsame' ▸ ht₁

theorem stepsApart_of_weighted (hfits : coll.Fits (maxComboDepth + 1) [] root.name)
    {draws : Draws} {preferred : Option String}
    (h : coll.Lossless root (resolveWeightedTargets draws (fun _ => true) root coll.combos preferred
      none).orderedTargets) : coll.StepsApart root := by
  obtain ⟨ordered, -, -, heq⟩ := orderedTargets_eq coll root draws preferred
  -- The target of a step is taken from the step that its key stands for, which is the step itself.
  have htaken : ∀ s ∈ coll.steps (.root root), ∀ t, coll.Below coll.steps (.root root) s t →
      ∃ targets, (coll.targetsByStep root).get s.stepId = some targets ∧ t ∈ targets ∧
        targets = coll.stepTargets root s := by
    intro s hs t hbelow
    have ht := (h.complete t).2 (pathTarget_iff_below.2 ⟨s, hs, hbelow⟩)
    rw [heq] at ht
    obtain ⟨s₁, -, ht⟩ := mem_flatMap.1 (mem_of_mem_firsts ht)
    cases hget : (coll.targetsByStep root).get s₁.executionKey with
    | none =>
      rw [hget] at ht
      cases ht
    | some targets =>
      rw [hget, getD_some] at ht
      obtain ⟨s₂, hs₂, hkey, htargets, -⟩ := targetsByStep_some hget
      have hs₂' := (mem_keptSteps.1 hs₂).1
      have hbelow' := (mem_stepTargets hroot hfits hs₂' t).1 (htargets ▸ ht)
      have hsame := Below.step_unique hs hs₂' hbelow hbelow'
      subst hsame
      rw [← executionKey_root hs, hkey]
      exact ⟨targets, hget, ht, htargets⟩
  intro s hs s' hs' hid ⟨t, hbelow⟩ ⟨t', hbelow'⟩
  obtain ⟨targets, hget, ht, -⟩ := htaken s hs t hbelow
  obtain ⟨targets', hget', -, htargets'⟩ := htaken s' hs' t' hbelow'
  rw [hid, hget'] at hget
  rw [← some.inj hget, htargets', mem_stepTargets hroot hfits hs'] at ht
  exact Below.step_unique hs hs' hbelow ht

end Exact

end KeyedCollection

def cheap : KeyedCombo where
  name := "cheap"
  models := [{ entry := .text "deepseek/chat" }]

def fast : KeyedCombo where
  name := "fast"
  models := [{ entry := .text "openai/gpt-4o" },
    { entry := .record { kind := .comboRef, comboName := "cheap" }, weight := 5 }]

/-- The steps of both combos have the ids that are built. -/
def built : KeyedCollection where
  combos := [fast, cheap]
  trimmed := by decide +kernel
  distinct := by decide +kernel
  no_wildcards := by decide +kernel

/-- The first of several, always. -/
def firstDraws : Draws := ⟨fun _ => 0, fun _ h => h, 0⟩

/-- Two entries with the id that a user gave both. -/
def twice : KeyedCombo where
  name := "twice"
  models := [{ entry := .record { kind := .model, model := "openai/gpt-4o" }, id := "main" },
    { entry := .record { kind := .model, model := "deepseek/chat" }, id := "main" }]

def twiceOnly : KeyedCollection where
  combos := [twice]
  trimmed := by decide +kernel
  distinct := by decide +kernel
  no_wildcards := by decide +kernel

end OmniRoute.ComboKeys
