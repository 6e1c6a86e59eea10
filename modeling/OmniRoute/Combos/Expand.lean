import OmniRoute.Combos.Steps
import OmniRoute.Lib.RefGraph

/-!
# Combo expansion

`open-sse/services/combo/comboStructure.ts`: combos refer to each other, `validateComboDAG` refuses
collections with cycles or too deep a nesting, and two functions expand a combo to its models.
`resolveNestedComboTargets`, which routing uses, asks the typed step of an entry whether it is a
reference; `validateComboDAG` and `resolveNestedComboModels` look the target of the entry up among
the names of the combos.

`depth` counts up to `maxDepth` in the source; here `left` counts the levels that may still be
entered, so that `depth > maxDepth` is `left = 0`.

**Main result (`expanders_agree_iff`).** A validated combo is expanded without a cut-off, since the
references of the typed steps are among those that are validated; its two expansions are equal
exactly when every entry that is reached is read alike (`ReadAlike`).
-/

namespace OmniRoute.Combo

open List Option RefGraph

/-! ## The source -/

/-- A combo; no part of the expansion reads its other fields. -/
structure ComboLike where
  name : String
  models : List Entry

def toComboLike (combo : ComboLike) : ComboLike :=
  { combo with name := (toTrimmedString (some combo.name)).getD "" }

def getCombosArray (allCombos : List ComboLike) : List ComboLike := allCombos.map toComboLike

def collectComboNames (allCombos : List ComboLike) : List String :=
  allCombos.filterMap fun combo => toTrimmedString (some combo.name)

def findCombo (combos : List ComboLike) (name : String) : Option ComboLike :=
  combos.find? fun c => c.name = name

structure ResolvedComboTarget where
  modelStr : String
  providerId : Option String
  connectionId : Option String
  label : Option String
  prompt : Option String
  fallbackOnlyOnQuotaExhaustion : Bool

inductive RuntimeStep
  | comboRef (comboName : String) (label : Option String) (fallbackOnlyOnQuotaExhaustion : Bool)
  | model (target : ResolvedComboTarget)

/-- The target that a step names. -/
def RuntimeStep.target : RuntimeStep → String
  | .comboRef name _ _ => name
  | .model target => target.modelStr

def normalizeRuntimeStep (entry : Entry) (comboName : String) (comboNames : List String) :
    Option RuntimeStep :=
  match normalizeComboStep entry comboNames (some comboName) with
  | none => none
  | some (.comboRef name label fallback) => some (.comboRef name label fallback)
  | some step =>
    match getComboModelString step.toRecord with
    | none => none
    | some modelStr =>
      some (.model
        { modelStr
          providerId := step.toRecord.providerId
          connectionId := step.toRecord.connectionId
          label := step.toRecord.label
          prompt := step.toRecord.prompt
          fallbackOnlyOnQuotaExhaustion := step.toRecord.fallbackOnlyOnQuotaExhaustion })

/-- The models of a combo, for the case that nothing more is expanded. -/
def directTargets (combo : ComboLike) : List ResolvedComboTarget :=
  combo.models.filterMap fun entry =>
    match normalizeRuntimeStep entry combo.name [] with
    | some (.model target) => some target
    | _ => none

/-- With `expandRuntimeStep` in place; its own depth test repeats the one of the caller. -/
def resolveNestedComboTargets :
    ℕ → List ComboLike → List String → ComboLike → List ResolvedComboTarget
  | 0, _, _, combo => directTargets combo
  | left + 1, allCombos, visited, combo =>
    if combo.name ∈ visited then []
    else
      (combo.models.filterMap fun entry =>
        normalizeRuntimeStep entry combo.name (collectComboNames allCombos)).flatMap fun
        | .model target => [target]
        | .comboRef name _ _ =>
          match findCombo (getCombosArray allCombos) name with
          | none => []
          | some nestedCombo =>
            if name ∈ combo.name :: visited then []
            else resolveNestedComboTargets left (getCombosArray allCombos) (combo.name :: visited)
              nestedCombo

/-- `normalizeModelEntry(entry).model` -/
def entryTarget (entry : Entry) : String := (getComboStepTarget entry [] none).getD ""

def validateComboDAG (maxDepth : ℕ) :
    ℕ → List ComboLike → List String → String → Except String Unit
  | 0, _, _, comboName =>
    .error ("Max combo nesting depth (" ++ toString maxDepth ++ ") exceeded at \"" ++ comboName ++
      "\"")
  | left + 1, allCombos, visited, comboName =>
    if comboName ∈ visited then .error ("Circular combo reference detected: " ++ comboName)
    else
      match findCombo (getCombosArray allCombos) comboName with
      | none => .ok ()
      | some combo =>
        combo.models.forM fun entry =>
          match findCombo (getCombosArray allCombos) (entryTarget entry) with
          | some _ => validateComboDAG maxDepth left (getCombosArray allCombos)
            (comboName :: visited) (entryTarget entry)
          | none => .ok ()

def resolveNestedComboModels : ℕ → List ComboLike → List String → ComboLike → List String
  | 0, _, _, combo => combo.models.map entryTarget
  | left + 1, allCombos, visited, combo =>
    if combo.name ∈ visited then []
    else
      combo.models.flatMap fun entry =>
        match findCombo (getCombosArray allCombos) (entryTarget entry) with
        | some nestedCombo => resolveNestedComboModels left (getCombosArray allCombos)
          (combo.name :: visited) nestedCombo
        | none => [entryTarget entry]

/-! ## The target of an entry -/

/-- A model string that is read again stays as it is. -/
theorem getComboModelString_model {r : EntryRecord} {name : String} (hkind : r.kind = .model)
    (hmodel : r.model = some name) (hname : toTrimmedString (some name) = some name)
    (hprovider : name.toList.contains '/' = false → r.providerId = none ∧ r.provider = none) :
    getComboModelString r = some name := by
  have htrim := (toTrimmedString_idem hname).2
  rw [getComboModelString, if_neg (by rw [hkind]; decide), hmodel, hname]
  simp only [Option.some.injEq]
  unfold toFullModelString
  simp only [htrim]
  by_cases hslash : name.toList.contains '/' = true
  · rw [if_pos hslash]
  · rw [Bool.not_eq_true] at hslash
    obtain ⟨hid, hprov⟩ := hprovider hslash
    have hnone : r.provider' name = none := by
      rw [EntryRecord.provider', hid, hprov,
        parseProviderId_of_no_slash (by rw [htrim]; exact hslash)]
      rfl
    rw [hslash, hnone]
    rfl

theorem shouldTreatAsComboRef_nil (target : String) (providerId : Option String) :
    shouldTreatAsComboRef target providerId [] none = false := by
  unfold shouldTreatAsComboRef
  split
  · rfl
  · rfl

theorem providerId_of_comboRef {target : String} {providerId : Option String} {names : List String}
    {comboName : Option String}
    (h : shouldTreatAsComboRef target providerId names comboName = true) : providerId = none := by
  unfold shouldTreatAsComboRef at h
  split at h
  · cases h
  · next hnone => simpa using hnone

/-- A model step keeps its target. -/
theorem getComboModelString_step {rawModel : String} {pid : Option String}
    (hraw : toTrimmedString (some rawModel) = some rawModel)
    (hpid : ∀ p, pid = some p → toTrimmedString (some p) = some p)
    (connectionId label prompt : Option String) (fallback : Bool) :
    getComboModelString (ComboStep.model (toFullModelString rawModel pid) pid connectionId label
      prompt fallback).toRecord = some (toFullModelString rawModel pid) := by
  obtain ⟨hfull, hslash⟩ := toFullModelString_idem hraw hpid
  exact getComboModelString_model rfl rfl hfull fun h => ⟨(hslash h).1, rfl⟩

theorem getComboModelString_named {target : String} {pid : Option String}
    (htarget : toTrimmedString (some target) = some target)
    (hpid : target.toList.contains '/' = false → pid = none) :
    getComboModelString (ComboStep.model target pid none none none false).toRecord = some target :=
  getComboModelString_model rfl rfl htarget fun hslash => ⟨hpid hslash, rfl⟩

/-- A string names the target of its step. -/
theorem target_of_text {s : String} (hs : (Entry.text s).isWildcard = false) (comboName : String)
    (names : List String) :
    toTrimmedString (some s) =
      (normalizeRuntimeStep (.text s) comboName names).map RuntimeStep.target := by
  rw [normalizeRuntimeStep]
  simp only [normalizeComboStep]
  cases htarget : toTrimmedString (some s) with
  | none => rfl
  | some target =>
    obtain ⟨htarget', htrim⟩ := toTrimmedString_idem htarget
    obtain ⟨v, hv, hvt, -⟩ := toTrimmedString_eq_some.1 htarget
    cases hv
    by_cases href : shouldTreatAsComboRef target none names (some comboName) = true
    · simp only [if_pos href]
      rfl
    · have hwild : parseProviderWildcardPattern target = none := by
        have hsame : parseProviderWildcardPattern target = parseProviderWildcardPattern s := by
          unfold parseProviderWildcardPattern
          rw [htrim, hvt]
        rw [hsame]
        exact not_isSome_iff_eq_none.1 (Bool.eq_false_iff.1 hs)
      have hnone : target.toList.contains '/' = false → parseProviderId target = none := by
        intro hslash
        rw [← htrim] at hslash
        exact parseProviderId_of_no_slash hslash
      simp only [if_neg href, hwild, getComboModelString_named htarget' hnone]
      rfl

/-- A record that is a model or has no kind names the target of its step. -/
theorem target_of_record {r : EntryRecord} (hkind : r.kind = .legacy ∨ r.kind = .model)
    (hr : (Entry.record r).isWildcard = false) (comboName : String) (names : List String) :
    getComboStepTarget (.record r) [] none =
      (normalizeRuntimeStep (.record r) comboName names).map RuntimeStep.target := by
  have htarget : getComboStepTarget (.record r) [] none =
      (toTrimmedString r.model).map fun rawModel =>
        toFullModelString rawModel (r.provider' rawModel) := by
    unfold getComboStepTarget
    rcases hkind with hkind | hkind <;> simp only [hkind] <;>
      cases toTrimmedString r.model <;> simp [shouldTreatAsComboRef_nil]
  have hwild : ∀ rawModel, toTrimmedString r.model = some rawModel →
      parseProviderWildcardPattern rawModel = none := by
    intro rawModel hraw
    unfold Entry.isWildcard at hr
    rcases hkind with hkind | hkind <;> simp only [hkind, hraw] at hr <;>
      exact not_isSome_iff_eq_none.1 (Bool.eq_false_iff.1 hr)
  have hstep : normalizeComboStep (.record r) names (some comboName) =
      match toTrimmedString r.model with
      | none => none
      | some rawModel =>
        if r.kind ≠ .model &&
            shouldTreatAsComboRef rawModel (r.provider' rawModel) names (some comboName) then
          some (.comboRef rawModel (toTrimmedString r.label) false)
        else
          some (.model (toFullModelString rawModel (r.provider' rawModel)) (r.provider' rawModel)
            (toTrimmedString r.connectionId) (toTrimmedString r.label) (toTrimmedString r.prompt)
            r.fallbackOnlyOnQuotaExhaustion) := by
    unfold normalizeComboStep
    rcases hkind with hkind | hkind <;> simp only [hkind] <;>
      cases hraw : toTrimmedString r.model <;> simp only [] <;> rw [hwild _ hraw]
  unfold normalizeRuntimeStep
  rw [htarget, hstep]
  cases hraw : toTrimmedString r.model with
  | none => rfl
  | some rawModel =>
    obtain ⟨hraw', htrim⟩ := toTrimmedString_idem hraw
    simp only [map_some]
    by_cases href : (decide (r.kind ≠ .model) &&
        shouldTreatAsComboRef rawModel (r.provider' rawModel) names (some comboName)) = true
    · -- A reference has no provider, so its name is the whole target.
      have hnone := providerId_of_comboRef (Bool.and_eq_true_iff.1 href).2
      have hfull : toFullModelString rawModel none = rawModel := by
        unfold toFullModelString
        simp only [htrim]
        exact ite_self _
      rw [if_pos href, hnone, hfull]
      simp only [map_some, RuntimeStep.target]
    · rw [if_neg href]
      simp only [getComboModelString_step hraw' fun p hp => provider'_trimmed hp, map_some,
        RuntimeStep.target]

/-- The two readings of an entry that is no wildcard name the same target. -/
theorem target_of_runtimeStep {entry : Entry} (hentry : entry.isWildcard = false)
    (comboName : String) (names : List String) :
    getComboStepTarget entry [] none =
      (normalizeRuntimeStep entry comboName names).map RuntimeStep.target := by
  cases entry with
  | text s => exact target_of_text hentry comboName names
  | record r =>
    cases hkind : r.kind with
    | legacy => exact target_of_record (.inl hkind) hentry comboName names
    | model => exact target_of_record (.inr hkind) hentry comboName names
    | comboRef =>
      unfold normalizeRuntimeStep getComboStepTarget normalizeComboStep
      simp only [hkind]
      cases toTrimmedString r.comboName with
      | _ => rfl
    | providerWildcard =>
      unfold Entry.isWildcard at hentry
      simp only [hkind] at hentry
      cases hentry

/-! ## Collections -/

theorem find?_key {α : Type} {key : α → String} {l : List α} (hdistinct : (l.map key).Nodup) {a : α}
    (ha : a ∈ l) : l.find? (fun b => key b = key a) = some a := by
  cases hfind : l.find? (fun b => key b = key a) with
  | none => simpa using find?_eq_none.1 hfind a ha
  | some b =>
    have hb : key b = key a := by simpa using find?_some hfind
    rw [inj_on_of_nodup_map hdistinct (mem_of_find?_eq_some hfind) ha hb]

/-- A collection as the schemas of the routes let it in: the names are trimmed, not empty and
distinct. No entry is a provider wildcard. -/
structure Collection where
  combos : List ComboLike
  trimmed : ∀ c ∈ combos, toTrimmedString (some c.name) = some c.name
  distinct : (combos.map fun c => c.name).Nodup
  no_wildcards : ∀ c ∈ combos, ∀ entry ∈ c.models, entry.isWildcard = false

namespace Collection

variable (coll : Collection)

theorem getCombosArray_eq : getCombosArray coll.combos = coll.combos := by
  have hid : ∀ c ∈ coll.combos, toComboLike c = c := fun c hc => by
    rw [toComboLike, coll.trimmed c hc]
    rfl
  rw [getCombosArray, map_congr_left hid, List.map_id']

/-- The combo of a name. -/
def find (name : String) : Option ComboLike := findCombo coll.combos name

variable {c : ComboLike}

theorem find_name (hc : c ∈ coll.combos) : coll.find c.name = some c :=
  find?_key coll.distinct hc

variable {name : String}

theorem mem_of_find (h : coll.find name = some c) : c ∈ coll.combos ∧ c.name = name :=
  ⟨mem_of_find?_eq_some h, by simpa using find?_some h⟩

/-- The entries of the combo of a name. -/
def entries (name : String) : List Entry := ((coll.find name).map ComboLike.models).getD []

theorem entries_of_find (h : coll.find name = some c) : coll.entries name = c.models := by
  rw [entries, h]
  rfl

/-- How `validateComboDAG` and `resolveNestedComboModels` read an entry. -/
def readTarget : RefGraph.Reading String String Entry := fun _ entry =>
  if (coll.find (entryTarget entry)).isSome then some (.ref (entryTarget entry))
  else some (.leaf (entryTarget entry))

/-- How `resolveNestedComboTargets` reads an entry of the combo `name`. -/
def readStep : RefGraph.Reading String String Entry := fun name entry =>
  match normalizeRuntimeStep entry name (collectComboNames coll.combos) with
  | none => none
  | some (.comboRef ref _ _) => if (coll.find ref).isSome then some (.ref ref) else none
  | some (.model target) => some (.leaf target.modelStr)

/-- The combos that the typed steps of a combo refer to. -/
def runtimeRefs (name : String) : List String := refs coll.entries coll.readStep name

/-- On no path of references from a combo a combo is met twice or the depth exceeded. -/
def NoCutOff (name : String) (maxDepth : ℕ) : Prop :=
  ∀ path, List.IsChain (fun a b => b ∈ coll.runtimeRefs a) (name :: path) →
    (name :: path).Nodup ∧ path.length ≤ maxDepth

/-- An entry that is read alike: a reference to a combo that exists, or a model whose target is not
the name of a combo. -/
def ReadAlike (name : String) (entry : Entry) : Prop :=
  match normalizeRuntimeStep entry name (collectComboNames coll.combos) with
  | none => False
  | some (.comboRef ref _ _) => (coll.find ref).isSome = true
  | some (.model target) => coll.find target.modelStr = none

/-! ## The walks of the source -/

theorem forM_ok_iff {α ε : Type*} {f : α → Except ε Unit} {l : List α} :
    l.forM f = .ok () ↔ ∀ a ∈ l, f a = .ok () := by
  induction l with
  | nil => exact ⟨fun _ a ha => (by cases ha), fun _ => rfl⟩
  | cons a l ih =>
    have hcons : (a :: l).forM f = (f a >>= fun _ => l.forM f) := rfl
    rw [hcons, forall_mem_cons, ← ih]
    cases f a with
    | error e => exact ⟨fun h => (by cases h), fun h => (by cases h.1)⟩
    | ok u => exact ⟨fun h => ⟨rfl, h⟩, fun h => h.2⟩

theorem readTarget_eq_ref {j : String} {entry : Entry} :
    coll.readTarget name entry = some (.ref j) ↔
      (coll.find (entryTarget entry)).isSome = true ∧ entryTarget entry = j := by
  unfold readTarget
  by_cases h : (coll.find (entryTarget entry)).isSome = true
  · rw [if_pos h, Option.some.injEq, RefGraph.Item.ref.injEq]
    exact ⟨fun hj => ⟨h, hj⟩, fun hj => hj.2⟩
  · rw [if_neg h]
    exact ⟨fun hj => (by cases hj), fun hj => absurd hj.1 h⟩

/-- `validateComboDAG` is the walk over the targets that are names of combos. -/
theorem validate_ok_iff (maxDepth : ℕ) {left : ℕ} {visited : List String} :
    validateComboDAG maxDepth left coll.combos visited name = .ok () ↔
      check (refs coll.entries coll.readTarget) left visited name = true := by
  induction left generalizing visited name with
  | zero => exact ⟨fun h => (by cases h), fun h => (by cases h)⟩
  | succ left ih =>
    rw [validateComboDAG, coll.getCombosArray_eq, check_succ]
    by_cases hv : name ∈ visited
    · rw [if_pos hv]
      exact ⟨fun h => (by cases h), fun h => absurd hv h.1⟩
    · rw [if_neg hv]
      have hfind : findCombo coll.combos name = coll.find name := rfl
      rw [hfind]
      cases hc : coll.find name with
      | none =>
        refine ⟨fun _ => ⟨hv, fun j hj => ?_⟩, fun _ => rfl⟩
        obtain ⟨e, he, -⟩ := (mem_refs _ _).1 hj
        rw [entries, hc] at he
        cases he
      | some combo =>
        have hentries := coll.entries_of_find hc
        simp only [forM_ok_iff]
        constructor
        · refine fun hall => ⟨hv, fun j hj => ?_⟩
          obtain ⟨e, he, hread⟩ := (mem_refs _ _).1 hj
          obtain ⟨hsome, rfl⟩ := coll.readTarget_eq_ref.1 hread
          obtain ⟨nested, hnested⟩ := isSome_iff_exists.1 hsome
          have hok := hall e (hentries ▸ he)
          have hfind' : findCombo coll.combos (entryTarget e) = some nested := hnested
          rw [hfind'] at hok
          exact ih.1 hok
        · rintro ⟨-, hall⟩ e he
          cases hnested : findCombo coll.combos (entryTarget e) with
          | none => rfl
          | some nested =>
            have hsome : (coll.find (entryTarget e)).isSome = true :=
              isSome_iff_exists.2 ⟨nested, hnested⟩
            exact ih.2 (hall _ ((mem_refs _ _).2
              ⟨e, hentries ▸ he, coll.readTarget_eq_ref.2 ⟨hsome, rfl⟩⟩))

theorem resolveNestedComboModels_eq {left : ℕ} {visited : List String} (hc : c ∈ coll.combos) :
    resolveNestedComboModels left coll.combos visited c =
      expand coll.entries coll.readTarget (fun _ i => (coll.entries i).map entryTarget)
        left visited c.name := by
  induction left generalizing visited c with
  | zero => rw [resolveNestedComboModels, expand, coll.entries_of_find (coll.find_name hc)]
  | succ left ih =>
    rw [resolveNestedComboModels, expand, coll.getCombosArray_eq,
      coll.entries_of_find (coll.find_name hc)]
    by_cases hv : c.name ∈ visited
    · rw [if_pos hv, if_pos hv]
    · rw [if_neg hv, if_neg hv]
      refine flatMap_congr fun e _ => ?_
      have hfind : findCombo coll.combos (entryTarget e) = coll.find (entryTarget e) := rfl
      unfold readTarget
      rw [hfind]
      cases hnested : coll.find (entryTarget e) with
      | none => rfl
      | some nested =>
        obtain ⟨hmem, hname⟩ := coll.mem_of_find hnested
        rw [← hname]
        exact ih hmem

/-- What `resolveNestedComboTargets` has below the last level. -/
def overTargets (visited : List String) (name : String) : List String :=
  if name ∈ visited then []
  else (((coll.find name).map directTargets).getD []).map ResolvedComboTarget.modelStr

theorem map_flatMap_filterMap {α β γ δ : Type*} (f : α → Option β) (g : β → List γ) (h : γ → δ)
    (l : List α) :
    ((l.filterMap f).flatMap g).map h =
      l.flatMap fun a => match f a with
        | none => []
        | some b => (g b).map h := by
  induction l with
  | nil => rfl
  | cons a l ih =>
    rw [flatMap_cons, ← ih]
    cases hf : f a with
    | none => rw [filterMap_cons_none hf, List.nil_append]
    | some b => rw [filterMap_cons_some hf, flatMap_cons, map_append]

theorem resolveNestedComboTargets_eq {left : ℕ} {visited : List String} (hc : c ∈ coll.combos)
    (hv : c.name ∉ visited) :
    (resolveNestedComboTargets left coll.combos visited c).map ResolvedComboTarget.modelStr =
      expand coll.entries coll.readStep coll.overTargets left visited c.name := by
  induction left generalizing visited c with
  | zero =>
    rw [resolveNestedComboTargets, expand, overTargets, if_neg hv, coll.find_name hc]
    rfl
  | succ left ih =>
    rw [resolveNestedComboTargets, expand, coll.getCombosArray_eq, if_neg hv, if_neg hv,
      map_flatMap_filterMap, coll.entries_of_find (coll.find_name hc)]
    refine flatMap_congr fun e _ => ?_
    unfold readStep
    cases hstep : normalizeRuntimeStep e c.name (collectComboNames coll.combos) with
    | none => rfl
    | some step =>
      cases step with
      | model target => rfl
      | comboRef ref label fallback =>
        have hfind : findCombo coll.combos ref = coll.find ref := rfl
        simp only [hfind]
        cases hnested : coll.find ref with
        | none => rfl
        | some nested =>
          obtain ⟨hmem, hname⟩ := coll.mem_of_find hnested
          subst hname
          by_cases hin : nested.name ∈ c.name :: visited
          · -- Met again: neither function enters it, and there is nothing below the last level.
            simp only [if_pos hin, isSome_some, if_true]
            cases left with
            | zero => rw [expand, overTargets, if_pos hin, map_nil]
            | succ left => rw [expand, if_pos hin, map_nil]
          · simp only [if_neg hin, isSome_some, if_true]
            exact ih hmem hin

/-! ## Agreement -/

theorem find_empty : coll.find "" = none := by
  cases h : coll.find "" with
  | none => rfl
  | some c =>
    obtain ⟨hmem, hname⟩ := coll.mem_of_find h
    have htrim := coll.trimmed c hmem
    rw [hname] at htrim
    cases htrim

/-- The target of an entry of a combo, by its typed step. -/
theorem entryTarget_eq {entry : Entry} (he : entry ∈ coll.entries name) :
    entryTarget entry = ((normalizeRuntimeStep entry name
      (collectComboNames coll.combos)).map RuntimeStep.target).getD "" := by
  rw [entryTarget]
  cases hc : coll.find name with
  | none =>
    rw [entries, hc] at he
    cases he
  | some c =>
    rw [coll.entries_of_find hc] at he
    rw [target_of_runtimeStep (coll.no_wildcards c (coll.mem_of_find hc).1 entry he)]

/-- The typed step drops entries whose target is no combo, and takes names of combos for models. -/
theorem coarser : RefGraph.Coarser coll.entries coll.readTarget coll.readStep
    fun a => (coll.find a).isSome = true where
  not_reserved := by
    intro name entry _ a hread
    unfold readTarget at hread
    by_cases h : (coll.find (entryTarget entry)).isSome = true
    · rw [if_pos h] at hread
      cases hread
    · rw [if_neg h] at hread
      cases hread
      exact h
  differ := by
    intro name entry he
    unfold readTarget readStep
    cases hstep : normalizeRuntimeStep entry name (collectComboNames coll.combos) with
    | none =>
      have htarget : entryTarget entry = "" := by
        rw [coll.entryTarget_eq he, hstep]
        rfl
      exact .inr (.inl ⟨"", by rw [htarget, find_empty]; rfl, rfl⟩)
    | some step =>
      cases step with
      | comboRef ref label fallback =>
        have htarget : entryTarget entry = ref := by
          rw [coll.entryTarget_eq he, hstep]
          rfl
        simp only [htarget]
        by_cases h : (coll.find ref).isSome = true
        · exact .inl (by rw [if_pos h, if_pos h])
        · exact .inr (.inl ⟨ref, by rw [if_neg h], by rw [if_neg h]⟩)
      | model target =>
        have htarget : entryTarget entry = target.modelStr := by
          rw [coll.entryTarget_eq he, hstep]
          rfl
        simp only [htarget]
        by_cases h : (coll.find target.modelStr).isSome = true
        · exact .inr (.inr ⟨target.modelStr, target.modelStr, by rw [if_pos h], rfl, h⟩)
        · exact .inl (by rw [if_neg h])

theorem readAlike_iff {entry : Entry} (he : entry ∈ coll.entries name) :
    coll.readTarget name entry = coll.readStep name entry ↔ coll.ReadAlike name entry := by
  unfold readTarget readStep ReadAlike
  rw [coll.entryTarget_eq he]
  cases normalizeRuntimeStep entry name (collectComboNames coll.combos) with
  | none => simp [find_empty]
  | some step =>
    cases step with
    | comboRef ref label fallback =>
      by_cases h : (coll.find ref).isSome = true <;> simp [RuntimeStep.target, h]
    | model target =>
      cases h : coll.find target.modelStr <;> simp [RuntimeStep.target, h]

theorem noCutOff_iff (name : String) (maxDepth : ℕ) :
    coll.NoCutOff name maxDepth ↔
      check (refs coll.entries coll.readStep) (maxDepth + 1) [] name = true := by
  rw [check_iff_paths]
  refine forall_congr' fun path => imp_congr_right fun _ => and_congr_right fun _ => ?_
  rw [Nat.lt_succ_iff]
  exact ⟨fun h => ⟨fun x _ hx => (by cases hx), h⟩, fun h => h.2⟩

/-- What validation lets pass is expanded without a cut-off. -/
theorem noCutOff_of_validate {maxDepth : ℕ}
    (h : validateComboDAG maxDepth (maxDepth + 1) coll.combos [] name = .ok ()) :
    coll.NoCutOff name maxDepth :=
  (coll.noCutOff_iff name maxDepth).2
    (check_mono coll.coarser.refs_subset ((coll.validate_ok_iff maxDepth).1 h))

end Collection

/-- A combo whose typed steps would be cut off is refused, and one that is validated is expanded
without a cut-off; then the two expansions are equal exactly when every entry that is reached is
read alike. -/
theorem expanders_agree_iff (coll : Collection) {c : ComboLike} (hc : c ∈ coll.combos)
    (maxDepth : ℕ) :
    (¬coll.NoCutOff c.name maxDepth →
      ∃ msg, validateComboDAG maxDepth (maxDepth + 1) coll.combos [] c.name = .error msg) ∧
    (validateComboDAG maxDepth (maxDepth + 1) coll.combos [] c.name = .ok () →
      coll.NoCutOff c.name maxDepth ∧
      ((resolveNestedComboTargets (maxDepth + 1) coll.combos [] c).map
          ResolvedComboTarget.modelStr =
          resolveNestedComboModels (maxDepth + 1) coll.combos [] c ↔
        ∀ name, Relation.ReflTransGen (fun a b => b ∈ coll.runtimeRefs a) c.name name →
          ∀ entry ∈ coll.entries name, coll.ReadAlike name entry)) := by
  constructor
  · intro hcut
    cases hval : validateComboDAG maxDepth (maxDepth + 1) coll.combos [] c.name with
    | error msg => exact ⟨msg, rfl⟩
    | ok u => exact absurd (coll.noCutOff_of_validate hval) hcut
  · intro hval
    have hno := coll.noCutOff_of_validate hval
    have hstep := (coll.noCutOff_iff c.name maxDepth).1 hno
    refine ⟨hno, ?_⟩
    rw [coll.resolveNestedComboTargets_eq hc not_mem_nil, coll.resolveNestedComboModels_eq hc,
      expand_eq_leaves _ _ _ hstep,
      expand_eq_leaves _ _ _ ((coll.validate_ok_iff maxDepth).1 hval), eq_comm,
      coll.coarser.leaves_eq_iff hstep]
    exact forall_congr' fun name => imp_congr_right fun _ => forall_congr' fun entry =>
      forall_congr' fun he => coll.readAlike_iff he

/-- A check that returns nothing is told by whether it is passed. -/
theorem ok_of_isOk {ε : Type*} {x : Except ε Unit} (h : x.isOk = true) : x = .ok () := by
  cases x with
  | error e => cases h
  | ok u => rfl

def cheap : ComboLike where
  name := "cheap"
  models := [.text "deepseek/chat"]

def fast : ComboLike where
  name := "fast"
  models := [.text "openai/gpt-4o", .record { kind := .comboRef, comboName := "cheap" }]

def nested : Collection where
  combos := [fast, cheap]
  trimmed := by decide +kernel
  distinct := by decide +kernel
  no_wildcards := by decide +kernel

theorem expanders_agree_iff_nested :
    nested.NoCutOff "fast" 3 ∧
    (resolveNestedComboTargets 4 [fast, cheap] [] fast).map ResolvedComboTarget.modelStr =
      ["openai/gpt-4o", "deepseek/chat"] ∧
    ∀ name, Relation.ReflTransGen (fun a b => b ∈ nested.runtimeRefs a) "fast" name →
      ∀ entry ∈ nested.entries name, nested.ReadAlike name entry := by
  have hagree := (expanders_agree_iff nested (mem_cons_self (a := fast)) 3).2
    (ok_of_isOk (by decide +kernel))
  exact ⟨hagree.1, by decide +kernel, hagree.2.1 (by decide +kernel)⟩

/-- The name is that of a model, which an entry of `byParts` gives by its parts. -/
def slashed : ComboLike where
  name := "openai/gpt-4o"
  models := [.text "deepseek/chat"]

def byParts : ComboLike where
  name := "fast"
  models := [.record { kind := .legacy, provider := "openai", model := "gpt-4o" }]

def shadowed : Collection where
  combos := [slashed, byParts]
  trimmed := by decide +kernel
  distinct := by decide +kernel
  no_wildcards := by decide +kernel

/-- A validated combo whose two expansions differ. -/
theorem shadowed_differ :
    byParts ∈ shadowed.combos ∧
    validateComboDAG 3 4 shadowed.combos [] byParts.name = .ok () ∧
    (resolveNestedComboTargets 4 shadowed.combos [] byParts).map ResolvedComboTarget.modelStr =
      ["openai/gpt-4o"] ∧
    resolveNestedComboModels 4 shadowed.combos [] byParts = ["deepseek/chat"] := by
  refine ⟨.tail _ mem_cons_self, ?_, by decide +kernel, by decide +kernel⟩
  exact ok_of_isOk (by decide +kernel)

end OmniRoute.Combo
